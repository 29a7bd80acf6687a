import Hypertext.Proofs.Node.Order

/-!
# Optional end tags

The end tag of an element can be left out where the next thing written ends the element anyway:
the start tag of a next sibling that implies it, the end tag of the element around it, or the
end of the text. An element that is still open then is finished before anything else is done
about what follows, so leaving out such end tags does not change the tree.
-/

namespace Hypertext

set_option autoImplicit false

/-- A node together with the way it is written: elements may go without their end tags. -/
inductive WrittenNode where
  | element (name : Text) (attributes : List Attribute) (children : List WrittenNode)
      (closed : Bool)
  | text (run : Text)
  | comment (body : Text)
  deriving Repr

namespace WrittenNode

mutual

def node : WrittenNode → Node
  | element name attributes children _ => .element name attributes (nodeAll children)
  | text run => .text run
  | comment body => .comment body

def nodeAll : List WrittenNode → List Node
  | [] => []
  | w :: rest => w.node :: nodeAll rest

end

mutual

/-- The canonical written form without the end tags that are left out. -/
def source : WrittenNode → Text
  | element name attributes children closed =>
    if Tag.isVoid name then Node.startTag name attributes
    else Node.startTag name attributes ++
      (sourceAll children ++ if closed then Node.endTag name else [])
  | text run => run
  | comment body => (Node.comment body).written

def sourceAll : List WrittenNode → Text
  | [] => []
  | w :: rest => w.source ++ sourceAll rest

end

mutual

def tokens : WrittenNode → List Token
  | element name attributes children closed =>
    if Tag.isVoid name then [.startTag name attributes true]
    else .startTag name attributes false ::
      (tokensAll children ++ if closed then [.endTag name] else [])
  | text run => [.text run]
  | comment body => [.comment body]

def tokensAll : List WrittenNode → List Token
  | [] => []
  | w :: rest => w.tokens ++ tokensAll rest

end

/-- The name of an element that is left open. -/
def openName? : WrittenNode → Option Text
  | element name _ _ false => some name
  | _ => none

def lastOpen? (ws : List WrittenNode) : Option Text :=
  ws.getLast?.bind openName?

/-- Whether a node has a start tag that ends an element of the name beside it. -/
def Ends (name : Text) : WrittenNode → Prop
  | element next _ _ _ => ∃ rule ∈ Tag.impliedEnds next, name ∈ rule.closes
  | text _ | comment _ => False

/-- Whether an element of the name is ended by the next sibling. Where there is none it is for
`last` to say whether it is ended by what follows. -/
def IsEndedBy (last : Text → Prop) (name : Text) : List WrittenNode → Prop
  | [] => last name
  | next :: _ => next.Ends name

mutual

/-- Whether end tags are left out only where they are not needed. -/
def EndsAreOptional : WrittenNode → Prop
  | element name _ children closed =>
    (closed = false → Tag.isVoid name = false ∧ Tag.isRawText name = false) ∧
      AllEndsAreOptional (fun inner => closed = true ∧ inner ≠ name) children
  | text _ | comment _ => True

def AllEndsAreOptional (last : Text → Prop) : List WrittenNode → Prop
  | [] => True
  | w :: rest =>
    w.EndsAreOptional ∧ (∀ name ∈ w.openName?, IsEndedBy last name rest) ∧
      AllEndsAreOptional last rest

end

instance (name : Text) : ∀ w : WrittenNode, Decidable (w.Ends name)
  | element next _ _ _ => inferInstanceAs (Decidable (∃ rule ∈ Tag.impliedEnds next, _))
  | text _ | comment _ => isFalse id

instance (last : Text → Prop) [DecidablePred last] (name : Text) :
    ∀ ws, Decidable (IsEndedBy last name ws)
  | [] => inferInstanceAs (Decidable (last name))
  | next :: _ => inferInstanceAs (Decidable (next.Ends name))

mutual

instance decidableEndsAreOptional : ∀ w : WrittenNode, Decidable w.EndsAreOptional
  | element name _ children closed =>
    have := decidableAllEndsAreOptional (fun inner => closed = true ∧ inner ≠ name) children
    inferInstanceAs (Decidable ((_ → _ ∧ _) ∧ _))
  | text _ | comment _ => isTrue trivial

instance decidableAllEndsAreOptional (last : Text → Prop) [DecidablePred last] :
    ∀ ws, Decidable (AllEndsAreOptional last ws)
  | [] => isTrue trivial
  | w :: rest =>
    have := decidableEndsAreOptional w
    have := decidableAllEndsAreOptional last rest
    inferInstanceAs (Decidable (_ ∧ (∀ name ∈ w.openName?, _) ∧ _))

end

theorem AllEndsAreOptional.of_lastOpen? {last : Text → Prop} {ws : List WrittenNode}
    (h : AllEndsAreOptional last ws) : ∀ name ∈ lastOpen? ws, last name := by
  induction ws with
  | nil => simp [lastOpen?]
  | cons w rest ih =>
    obtain ⟨-, hopen, hrest⟩ := h
    cases rest with
    | nil => simpa [lastOpen?, IsEndedBy] using hopen
    | cons next rest => simpa [lastOpen?] using ih hrest

/-! ## Reading -/

section Reading
variable {ancestors : List Text} {name : Text} {attributes : List Attribute}

theorem eq_text_of_node_eq {w : WrittenNode} {run : Text} (h : w.node = .text run) :
    w = text run := by
  cases w <;> simp_all [node]

theorem isText_eq_false_of_ends {w : WrittenNode} (h : w.Ends name) : w.node.isText = false := by
  cases w with
  | element next attributes children closed => rfl
  | text run => exact h.elim
  | comment body => rfl

theorem eq_of_isRawContent {children : List WrittenNode}
    (h : Node.IsRawContent name (nodeAll children)) :
    children = [] ∨ ∃ run, children = [text run] := by
  cases children with
  | nil => exact .inl rfl
  | cons w rest =>
    rcases h with hnil | ⟨run, hrun, -, -⟩
    · cases hnil
    · obtain ⟨hw, hrest⟩ := List.cons.inj hrun
      cases rest with
      | nil => exact .inr ⟨run, by rw [eq_text_of_node_eq hw]⟩
      | cons next rest => cases hrest

theorem startsMarkup_source {w : WrittenNode} (h : Node.WellFormed ancestors w.node)
    (hw : w.node.isText = false) (t : Text) : Lexeme.startsMarkup (w.source ++ t) = true := by
  cases w with
  | text run => cases hw
  | comment body => rfl
  | element name attributes children closed =>
    have hname := h.1.isName
    rw [source]
    split
    · exact Node.startsMarkup_startTag hname attributes t
    · rw [List.append_assoc]
      exact Node.startsMarkup_startTag hname attributes _

mutual

theorem readAll_source : ∀ {ancestors : List Text} {w : WrittenNode},
    Node.WellFormed ancestors w.node → w.EndsAreOptional → ∀ rest : Text,
      (w.node.isText = true ∨ w.openName? ≠ none →
        rest = [] ∨ Lexeme.startsMarkup rest = true) →
      Token.readAll (w.source ++ rest) = w.tokens ++ Token.readAll rest
  | _, text _, h, _, _, hrest => Node.readAll_text h.1 h.2 (hrest (.inl rfl))
  | _, comment _, h, _, rest, _ => Node.readAll_comment h rest
  | ancestors, element name attributes children closed, h, hends, rest, hrest => by
    obtain ⟨hstart, hchildren⟩ := h
    obtain ⟨hclosed, hinside⟩ := hends
    by_cases hvoid : Tag.isVoid name = true
    · rw [source, tokens, if_pos hvoid, if_pos hvoid, hstart.readAll_append (by simp [hvoid]),
        hvoid]
      rfl
    · rw [source, tokens, if_neg hvoid, if_neg hvoid]
      rw [if_neg hvoid] at hchildren
      rw [Bool.not_eq_true] at hvoid
      simp only [List.append_assoc, List.cons_append]
      by_cases hraw : Tag.isRawText name = true
      · rw [if_pos hraw] at hchildren
        obtain rfl : closed = true := by
          cases closed with
          | false => simp [hclosed rfl] at hraw
          | true => rfl
        obtain ⟨htokens, hclose⟩ := hchildren.tokens
        have hsame : sourceAll children = Node.writtenAll (nodeAll children) ∧
            tokensAll children = Node.tokensAll (nodeAll children) := by
          rcases eq_of_isRawContent hchildren with rfl | ⟨run, rfl⟩
          · exact ⟨rfl, rfl⟩
          · exact ⟨rfl, rfl⟩
        rw [hsame.1, hsame.2, if_pos rfl, if_pos rfl,
          Node.readAll_rawText hstart hvoid hraw hclose, htokens]
        rfl
      · rw [if_neg hraw] at hchildren
        rw [hstart.readAll_append (by simp [hraw]), hvoid]
        cases closed with
        | true =>
          rw [if_pos rfl, if_pos rfl, readAll_sourceAll hchildren hinside _ (.inr rfl),
            Node.readAll_endTag hstart.isName]
          rfl
        | false =>
          -- without the end tag the last child stands where the element does
          have hbehind := hrest (.inr (by simp [openName?]))
          exact congrArg _ (readAll_sourceAll hchildren hinside rest hbehind)

theorem readAll_sourceAll : ∀ {ancestors : List Text} {last : Text → Prop}
    {ws : List WrittenNode},
    Node.AllWellFormed ancestors (nodeAll ws) → AllEndsAreOptional last ws →
    ∀ rest : Text, rest = [] ∨ Lexeme.startsMarkup rest = true →
      Token.readAll (sourceAll ws ++ rest) = tokensAll ws ++ Token.readAll rest
  | _, _, [], _, _, rest, _ => rfl
  | ancestors, last, w :: ws, h, hends, rest, hrest => by
    obtain ⟨hw, hnext, hws⟩ := h
    obtain ⟨hends, hopen, hmore⟩ := hends
    have hbehind : w.node.isText = true ∨ w.openName? ≠ none →
        sourceAll ws ++ rest = [] ∨ Lexeme.startsMarkup (sourceAll ws ++ rest) = true := by
      intro hends
      cases ws with
      | nil => exact hrest
      | cons next ws =>
        rw [sourceAll, List.append_assoc]
        refine .inr (startsMarkup_source hws.1 ?_ _)
        rcases hends with htext | hname
        · exact hnext htext next.node rfl
        · obtain ⟨name, hname⟩ := Option.ne_none_iff_exists'.mp hname
          exact isText_eq_false_of_ends (hopen name hname)
    rw [sourceAll, tokensAll, List.append_assoc, readAll_source hw hends _ hbehind,
      readAll_sourceAll hws hmore rest hrest, List.append_assoc]

end

end Reading

end WrittenNode

namespace Builder

/-- Finishing the innermost element, whose name is given, turns `c` into `b`. Where no name is
given there is nothing left to finish. -/
def Awaits (c b : Builder) : Option Text → Prop
  | none => c = b
  | some name => c.names = name :: b.names ∧ c.finish = b

variable {b c : Builder} {open? : Option Text} {name : Text} {attributes : List Attribute}

theorem Awaits.nodes_eq (h : c.Awaits b open?) : c.nodes = b.nodes := by
  cases open? with
  | none => rw [h]
  | some inner =>
    obtain ⟨-, hfinish⟩ := h
    rw [← hfinish, nodes_finish]

/-- Rules one of which closes the innermost element, and nothing else, close just that. -/
theorem finishImplied_of_closes {rules : List Tag.ImpliedEnd} (hnames : c.names = name :: b.names)
    (hfinish : c.finish = b) (hcloses : ∃ rule ∈ rules, name ∈ rule.closes)
    (hdepth : ∀ rule ∈ rules, rule.depth b.names = 0) :
    c.finishImplied rules = b := by
  induction rules with
  | nil => simp at hcloses
  | cons rule rules ih =>
    obtain ⟨hrule, hrest⟩ := List.forall_mem_cons.mp hdepth
    by_cases hhere : name ∈ rule.closes
    · have hone : rule.depth c.names = 1 := by
        rw [hnames, Tag.ImpliedEnd.depth, if_pos hhere, hrule]
      rw [finishImplied, hone, finishMany, finishMany, hfinish, finishImplied_eq_self hrest]
    · have hzero : rule.depth c.names = 0 := by
        rw [hnames, Tag.ImpliedEnd.depth, if_neg hhere, hrule]
        split_ifs <;> rfl
      have hlater : ∃ rule ∈ rules, name ∈ rule.closes := by
        simpa [hhere] using hcloses
      rw [finishImplied, hzero, finishMany, ih hlater hrest]

theorem Awaits.step_startTag (h : c.Awaits b open?)
    (hends : ∀ inner ∈ open?, ∃ rule ∈ Tag.impliedEnds name, inner ∈ rule.closes)
    (hstart : Node.IsStart b.names name attributes) (selfClosing : Bool) :
    c.step (.startTag name attributes selfClosing) =
      b.step (.startTag name attributes selfClosing) := by
  cases open? with
  | none => rw [h]
  | some inner =>
    obtain ⟨hnames, hfinish⟩ := h
    have hdepth := hstart.depth_eq_zero
    rw [step, step, finishImplied_of_closes hnames hfinish (hends inner rfl) hdepth,
      finishImplied_eq_self hdepth]

theorem Awaits.step_endTag (h : c.Awaits b open?) {e : OpenElement} {outer : List OpenElement}
    (hopened : b.opened = e :: outer) (hends : ∀ inner ∈ open?, inner ≠ e.name) :
    c.step (.endTag e.name) = b.finish := by
  cases open? with
  | none => rw [h, Builder.step_endTag hopened]
  | some inner =>
    obtain ⟨hnames, hfinish⟩ := h
    have hdepth : c.endDepth? e.name = some 2 := by
      rw [endDepth?, hnames, names, hopened]
      simp [List.findIdx?_cons, hends inner rfl]
    simp only [step, hdepth, finishMany, hfinish]

@[simp] theorem names_appendAll (b : Builder) (nodes : List Node) :
    (b.appendAll nodes).names = b.names := by
  induction nodes generalizing b with
  | nil => rfl
  | cons node nodes ih => rw [appendAll, List.foldl_cons, ← appendAll, ih, names_append]

/-- What ends an open element makes no difference to what comes of the next sibling. -/
theorem Awaits.run_tokensAll (h : c.Awaits b open?) {next : WrittenNode} (rest : List WrittenNode)
    (hends : ∀ inner ∈ open?, next.Ends inner) (hnext : Node.WellFormed b.names next.node) :
    c.run (WrittenNode.tokensAll (next :: rest)) =
      b.run (WrittenNode.tokensAll (next :: rest)) := by
  cases open? with
  | none => rw [h]
  | some inner =>
    cases next with
    | text run => exact (hends inner rfl).elim
    | comment body => exact (hends inner rfl).elim
    | element name attributes children closed =>
      have hstep := h.step_startTag hends hnext.1
      rw [WrittenNode.tokensAll, WrittenNode.tokens]
      by_cases hvoid : Tag.isVoid name = true
      · rw [if_pos hvoid, List.singleton_append, run_cons, run_cons, hstep]
      · rw [if_neg hvoid, List.cons_append, run_cons, run_cons, hstep]

section Element
variable {children : List WrittenNode}
variable (hstart : Node.IsStart b.names name attributes)
variable (hinside : ((b.begin name attributes).run (WrittenNode.tokensAll children)).Awaits
  ((b.begin name attributes).appendAll (WrittenNode.nodeAll children))
  (WrittenNode.lastOpen? children))
include hstart hinside

/-- An end tag finishes what is still open inside the element as well. -/
theorem run_closed (hends : ∀ inner ∈ WrittenNode.lastOpen? children, inner ≠ name) :
    b.run (.startTag name attributes false ::
        (WrittenNode.tokensAll children ++ [.endTag name])) =
      b.append (.element name attributes (WrittenNode.nodeAll children)) := by
  have hopened := appendAll_of_opened (b := b.begin name attributes)
    (WrittenNode.nodeAll children) rfl
  exact run_element hstart (hinside.step_endTag (congrArg Builder.opened hopened) hends)

theorem awaits_run_open (hnone : WrittenNode.lastOpen? children = none) :
    (b.run (.startTag name attributes false :: WrittenNode.tokensAll children)).Awaits
      (b.append (.element name attributes (WrittenNode.nodeAll children))) (some name) := by
  rw [hnone] at hinside
  rw [run_cons, step_startTag hstart, if_neg Bool.false_ne_true, hinside]
  refine ⟨?_, finish_appendAll_begin b name attributes _⟩
  rw [names_appendAll, names_append]
  rfl

end Element

mutual

/-- The tokens of a node that is written without its end tag add it when it is finished. -/
theorem awaits_run_tokens : ∀ (b : Builder) {w : WrittenNode}, Node.WellFormed b.names w.node →
    w.EndsAreOptional → (b.run w.tokens).Awaits (b.append w.node) w.openName?
  | _, .text _, _, _ => rfl
  | _, .comment _, _, _ => rfl
  | b, .element name attributes children closed, h, hends => by
    obtain ⟨hstart, hchildren⟩ := h
    obtain ⟨hclosed, hinner⟩ := hends
    rw [WrittenNode.tokens, WrittenNode.node]
    by_cases hvoid : Tag.isVoid name = true
    · obtain rfl : closed = true := by
        cases closed with
        | false => simp [hclosed rfl] at hvoid
        | true => rfl
      rw [if_pos hvoid] at hchildren ⊢
      rw [hchildren, run_cons, step_startTag hstart, if_pos rfl]
      rfl
    · rw [if_neg hvoid] at hchildren ⊢
      have hinside : ((b.begin name attributes).run (WrittenNode.tokensAll children)).Awaits
          ((b.begin name attributes).appendAll (WrittenNode.nodeAll children))
          (WrittenNode.lastOpen? children) := by
        -- raw text holds no element that could be left open
        by_cases hraw : Tag.isRawText name = true
        · rw [if_pos hraw] at hchildren
          rcases WrittenNode.eq_of_isRawContent hchildren with rfl | ⟨run, rfl⟩
          · rfl
          · rfl
        · rw [if_neg hraw] at hchildren
          exact awaits_run_tokensAll (b.begin name attributes) hchildren hinner
      have hlast := hinner.of_lastOpen?
      cases closed with
      | true => exact run_closed hstart hinside fun inner h => (hlast inner h).2
      | false =>
        have hnone : WrittenNode.lastOpen? children = none :=
          Option.eq_none_iff_forall_not_mem.mpr fun inner h => by simpa using (hlast inner h).1
        rw [if_neg Bool.false_ne_true, List.append_nil]
        exact awaits_run_open hstart hinside hnone

theorem awaits_run_tokensAll : ∀ (b : Builder) {last : Text → Prop} {ws : List WrittenNode},
    Node.AllWellFormed b.names (WrittenNode.nodeAll ws) → WrittenNode.AllEndsAreOptional last ws →
    (b.run (WrittenNode.tokensAll ws)).Awaits (b.appendAll (WrittenNode.nodeAll ws))
      (WrittenNode.lastOpen? ws)
  | _, _, [], _, _ => rfl
  | b, _, [w], h, hends => by
    rw [WrittenNode.tokensAll, WrittenNode.tokensAll, List.append_nil]
    exact awaits_run_tokens b h.1 hends.1
  | b, _, w :: next :: rest, h, hends => by
    -- if `w` is left open, the start tag of `next` finishes it first
    obtain ⟨hw, -, hrest⟩ := h
    obtain ⟨hends, hopen, hmore⟩ := hends
    have hnext : Node.AllWellFormed (b.append w.node).names
        (WrittenNode.nodeAll (next :: rest)) := by
      rwa [names_append]
    rw [WrittenNode.tokensAll, run_append,
      (awaits_run_tokens b hw hends).run_tokensAll rest hopen hnext.1]
    exact awaits_run_tokensAll (b.append w.node) hnext hmore

end

end Builder

namespace WrittenNode

/-- End tags can be left out where they are optional: what is parsed are the same nodes as with
all end tags written. -/
theorem parse_sourceAll (ws : List WrittenNode) (h : Node.AllWellFormed [] (nodeAll ws))
    (hends : AllEndsAreOptional (fun _ => True) ws) :
    Node.parse (sourceAll ws) = Node.parse (Node.writtenAll (nodeAll ws)) ∧
      Node.parse (sourceAll ws) = nodeAll ws := by
  have hread := readAll_sourceAll h hends [] (.inl rfl)
  rw [List.append_nil, Token.readAll_nil, List.append_nil] at hread
  have hawaits := Builder.awaits_run_tokensAll Builder.empty h hends
  have hnodes : Node.parse (sourceAll ws) = Node.ofTokens (Node.tokensAll (nodeAll ws)) := by
    rw [Node.parse, hread, Node.ofTokens, hawaits.nodes_eq, Node.ofTokens,
      Builder.run_tokensAll Builder.empty h]
  constructor
  · rw [hnodes, Node.parse, Node.readAll_writtenAll_of_end h]
  · rw [hnodes, Node.ofTokens_tokensAll h]

/-- A table and a list without the end tags of cells, rows and items. -/
theorem parse_sourceAll_table :
    Node.parse
          "<table><tr><td>a<td>b</td><tr><th>c</th></table><ul><li><p>x<ul></ul></ul>".toList =
        Node.parse ("<table><tr><td>a</td><td>b</td></tr><tr><th>c</th></tr></table>".toList ++
          "<ul><li><p>x</p><ul></ul></li></ul>".toList) ∧
      Node.parse
          "<table><tr><td>a<td>b</td><tr><th>c</th></table><ul><li><p>x<ul></ul></ul>".toList =
        [.element "table".toList []
          [.element "tr".toList [] [.element "td".toList [] [.text "a".toList],
            .element "td".toList [] [.text "b".toList]],
          .element "tr".toList [] [.element "th".toList [] [.text "c".toList]]],
        .element "ul".toList [] [.element "li".toList []
          [.element "p".toList [] [.text "x".toList], .element "ul".toList [] []]]] :=
  parse_sourceAll
    [.element "table".toList []
      [.element "tr".toList [] [.element "td".toList [] [.text "a".toList] false,
        .element "td".toList [] [.text "b".toList] true] false,
      .element "tr".toList [] [.element "th".toList [] [.text "c".toList] true] false] true,
    .element "ul".toList [] [.element "li".toList []
      [.element "p".toList [] [.text "x".toList] false,
        .element "ul".toList [] [] true] false] true]
    (by decide +kernel) (by decide +kernel)

end WrittenNode

end Hypertext
