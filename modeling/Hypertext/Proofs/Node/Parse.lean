import Hypertext.Node.Build
import Hypertext.Proofs.Node.WellFormed

/-!
# Parsing what was written

The tokens of a well-formed node add that node to a tree under construction and leave the
elements around it open as they were. So parsing gives back the nodes that were written.
-/

namespace Hypertext

set_option autoImplicit false

namespace Tag

/-- What holds of the rules in each row of the table, and of no rules, holds for every name. -/
theorem forall_impliedEnds {P : List ImpliedEnd → Prop} (hnone : P [])
    (htable : ∀ row ∈ impliedEndTable, P row.2) (name : Text) : P (impliedEnds name) := by
  rw [impliedEnds]
  cases hrow : impliedEndTable.find? fun row => name ∈ row.1 with
  | none => exact hnone
  | some row => exact htable row (List.mem_of_find?_eq_some hrow)

theorem closes_notMem_stopsAt {name : Text} {rule : ImpliedEnd} (h : rule ∈ impliedEnds name) :
    ∀ closed ∈ rule.closes, closed ∉ rule.stopsAt := by
  have hall := forall_impliedEnds
    (P := fun rules => ∀ rule ∈ rules, ∀ closed ∈ rule.closes, closed ∉ rule.stopsAt)
    (by simp) (by decide) name
  exact hall rule h

/-- A rule ends nothing exactly when what stops it comes first. -/
theorem ImpliedEnd.depth_eq_zero_iff {rule : ImpliedEnd}
    (hrule : ∀ closed ∈ rule.closes, closed ∉ rule.stopsAt) (ancestors : List Text) :
    rule.depth ancestors = 0 ↔ rule.IsBarred ancestors := by
  induction ancestors with
  | nil => simp [depth, IsBarred]
  | cons name outer ih =>
    rw [depth, IsBarred, ← ih]
    split_ifs with hcloses hstops
    · simp [hcloses, hrule name hcloses]
    · simp [hstops]
    · cases rule.depth outer <;> simp [hcloses, hstops]

end Tag

theorem Node.IsStart.depth_eq_zero {ancestors : List Text} {name : Text}
    {attributes : List Attribute} (h : IsStart ancestors name attributes) :
    ∀ rule ∈ Tag.impliedEnds name, rule.depth ancestors = 0 := by
  intro rule hrule
  rw [Tag.ImpliedEnd.depth_eq_zero_iff (Tag.closes_notMem_stopsAt hrule)]
  exact h.isBarred rule hrule

namespace Builder

variable {b : Builder} {name : Text} {attributes : List Attribute}

theorem finishImplied_eq_self {rules : List Tag.ImpliedEnd}
    (h : ∀ rule ∈ rules, rule.depth b.names = 0) : b.finishImplied rules = b := by
  induction rules with
  | nil => rfl
  | cons rule rules ih =>
    rw [List.forall_mem_cons] at h
    obtain ⟨hdepth, hrest⟩ := h
    rw [finishImplied, hdepth, finishMany]
    exact ih hrest

def appendAll (b : Builder) (nodes : List Node) : Builder :=
  nodes.foldl append b

@[simp] theorem names_append (b : Builder) (node : Node) : (b.append node).names = b.names := by
  unfold append
  split <;> simp_all [names]

theorem run_cons (b : Builder) (token : Token) (tokens : List Token) :
    b.run (token :: tokens) = (b.step token).run tokens :=
  List.foldl_cons ..

theorem run_append (b : Builder) (first second : List Token) :
    b.run (first ++ second) = (b.run first).run second :=
  List.foldl_append

theorem appendAll_of_opened {e : OpenElement} {outer : List OpenElement}
    (nodes : List Node) (h : b.opened = e :: outer) :
    b.appendAll nodes =
      { b with opened := { e with children := nodes.reverse ++ e.children } :: outer } := by
  induction nodes generalizing b e with
  | nil => simp [appendAll, ← h]
  | cons node nodes ih =>
    have happend : b.append node =
        { b with opened := { e with children := node :: e.children } :: outer } := by
      rw [append, h]
    rw [appendAll, List.foldl_cons, ← appendAll, happend, ih rfl]
    simp

/-- What was added to an element since it was opened is there when it is finished. -/
theorem finish_appendAll_begin (b : Builder) (name : Text) (attributes : List Attribute)
    (children : List Node) :
    ((b.begin name attributes).appendAll children).finish =
      b.append (.element name attributes children) := by
  rw [appendAll_of_opened children rfl]
  simp [finish, begin, OpenElement.node]

theorem appendAll_of_opened_eq_nil (nodes : List Node) (h : b.opened = []) :
    b.appendAll nodes = { b with roots := nodes.reverse ++ b.roots } := by
  induction nodes generalizing b with
  | nil => rfl
  | cons node nodes ih =>
    have happend : b.append node = { b with roots := node :: b.roots } := by
      rw [append, h]
    have hnodes := @ih ⟨node :: b.roots, b.opened⟩ h
    rw [appendAll, List.foldl_cons, ← appendAll, happend, hnodes]
    simp

theorem step_endTag {e : OpenElement} {outer : List OpenElement} (h : b.opened = e :: outer) :
    b.step (.endTag e.name) = b.finish := by
  simp [step, endDepth?, names, h, List.findIdx?_cons, finishMany]

theorem step_startTag (h : Node.IsStart b.names name attributes) (selfClosing : Bool) :
    b.step (.startTag name attributes selfClosing) =
      if selfClosing then b.append (.element name attributes []) else b.begin name attributes := by
  rw [step, finishImplied_eq_self h.depth_eq_zero]

theorem step_endTag_appendAll_begin (nodes : List Node) :
    ((b.begin name attributes).appendAll nodes).step (.endTag name) =
      ((b.begin name attributes).appendAll nodes).finish := by
  have hopened := appendAll_of_opened nodes (b := b.begin name attributes) rfl
  exact step_endTag (congrArg Builder.opened hopened)

/-- Between its tags an element takes in what its content adds. -/
theorem run_element {inside : List Token} {nodes : List Node}
    (h : Node.IsStart b.names name attributes)
    (hinside : ((b.begin name attributes).run inside).step (.endTag name) =
      ((b.begin name attributes).appendAll nodes).finish) :
    b.run (.startTag name attributes false :: (inside ++ [.endTag name])) =
      b.append (.element name attributes nodes) := by
  rw [run_cons, step_startTag h, if_neg Bool.false_ne_true, run_append, ← finish_appendAll_begin,
    ← hinside]
  rfl

mutual

/-- The tokens of a node add it and nothing else. -/
theorem run_tokens : ∀ (b : Builder) {node : Node}, Node.WellFormed b.names node →
    b.run node.tokens = b.append node
  | _, .text _, _ => rfl
  | _, .comment _, _ => rfl
  | b, .element name attributes children, h => by
    obtain ⟨hstart, hchildren⟩ := h
    rw [Node.tokens]
    split_ifs at hchildren ⊢ with hvoid hraw
    · rw [hchildren, run_cons, step_startTag hstart, if_pos rfl]
      rfl
    · apply run_element hstart
      rw [← step_endTag_appendAll_begin]
      rcases hchildren with rfl | ⟨run, rfl, -, -⟩ <;> rfl
    · apply run_element hstart
      rw [run_tokensAll (b.begin name attributes) hchildren, step_endTag_appendAll_begin]

theorem run_tokensAll : ∀ (b : Builder) {nodes : List Node}, Node.AllWellFormed b.names nodes →
    b.run (Node.tokensAll nodes) = b.appendAll nodes
  | _, [], _ => rfl
  | b, node :: nodes, h => by
    obtain ⟨hnode, -, hnodes⟩ := h
    have hrest : Node.AllWellFormed (b.append node).names nodes := by rwa [names_append]
    rw [Node.tokensAll, run_append, run_tokens b hnode, run_tokensAll _ hrest]
    rfl

end

end Builder

namespace Node

theorem ofTokens_tokensAll {nodes : List Node} (h : AllWellFormed [] nodes) :
    ofTokens (tokensAll nodes) = nodes := by
  rw [ofTokens, Builder.run_tokensAll Builder.empty h, Builder.appendAll_of_opened_eq_nil nodes rfl]
  simp [Builder.nodes, Builder.empty, Builder.finishMany]

/-- Parsing undoes writing. -/
theorem parse_writtenAll (nodes : List Node) (h : AllWellFormed [] nodes) :
    parse (writtenAll nodes) = nodes := by
  rw [parse, readAll_writtenAll_of_end h, ofTokens_tokensAll h]

theorem parse_writtenAll_list :
    parse "<!-- > --><ul><li class=\"a>b\">one<br></li></ul><script>a</b></script>".toList =
      [.comment " > ".toList,
        .element "ul".toList [] [.element "li".toList [⟨"class".toList, some "a>b".toList⟩]
          [.text "one".toList, .element "br".toList [] []]],
        .element "script".toList [] [.text "a</b>".toList]] :=
  parse_writtenAll
    [.comment " > ".toList,
      .element "ul".toList [] [.element "li".toList [⟨"class".toList, some "a>b".toList⟩]
        [.text "one".toList, .element "br".toList [] []]],
      .element "script".toList [] [.text "a</b>".toList]]
    (by decide +kernel)

end Node

end Hypertext
