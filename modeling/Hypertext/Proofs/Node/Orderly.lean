import Hypertext.Proofs.Node.Parse

/-!
# What trees look like

Whatever text a tree is built from, its names are names, its void elements are empty, its
raw-text elements hold a text at most, and no markup is left in any other text. Each lexeme
opens and closes its raw text by itself, so between two lexemes only elements are open that can
hold any nodes.
-/

namespace Hypertext

set_option autoImplicit false

/-- No markup starts in a text, whatever stands behind it. -/
def Text.HoldsNoMarkup (run : Text) : Prop :=
  ∀ c rest, '<' :: c :: rest <:+ run → c.isAlpha = false ∧ c ≠ '/' ∧ c ≠ '!' ∧ c ≠ '?'

/-- A name of an attribute as start tags can have it; `=` can only be its first character. -/
structure Attribute.IsNamed (a : Attribute) : Prop where
  name_ne_nil : a.name ≠ []
  not_isUpper : ∀ c ∈ a.name, c.isUpper = false
  not_endsTagName : ∀ c ∈ a.name, endsTagName c = false
  sign_notMem_tail : '=' ∉ a.name.tail

namespace Node

mutual

/-- Whether a node can be in the tree of a text. -/
def Orderly : Node → Prop
  | element name attributes children =>
    Tag.IsName name ∧ (∀ a ∈ attributes, a.IsNamed) ∧
      if Tag.isVoid name then children = []
      else if Tag.isRawText name then children = [] ∨ ∃ run, children = [text run] ∧ run ≠ []
      else AllOrderly children
  | text run => run ≠ [] ∧ run.HoldsNoMarkup
  | comment _ => True

def AllOrderly : List Node → Prop
  | [] => True
  | node :: rest => Orderly node ∧ AllOrderly rest

end

theorem allOrderly_iff {nodes : List Node} : AllOrderly nodes ↔ ∀ node ∈ nodes, node.Orderly := by
  induction nodes with
  | nil => simp [AllOrderly]
  | cons node rest ih => rw [AllOrderly, ih, List.forall_mem_cons]

end Node

/-! ## Names -/

theorem endsTagName_toLower {c : Char} (h : endsTagName c = false) :
    endsTagName c.toLower = false := by
  by_cases hc : c.isUpper = true
  · apply not_endsTagName_of_isAlpha
    rw [Char.isAlpha_toLower_eq_isAlpha, Char.isAlpha, hc, Bool.true_or]
  · rwa [Char.toLower_eq_of_not_isUpper hc]

namespace Text
variable {t : Text}

theorem not_isUpper_of_mem_lowercase {c : Char} (h : c ∈ t.lowercase) : c.isUpper = false := by
  obtain ⟨d, -, rfl⟩ := List.mem_map.mp h
  exact Char.isUpper_toLower_eq_false d

theorem not_endsTagName_of_mem_lowercase (ht : ∀ c ∈ t, endsTagName c = false) {c : Char}
    (h : c ∈ t.lowercase) : endsTagName c = false := by
  obtain ⟨d, hd, rfl⟩ := List.mem_map.mp h
  exact endsTagName_toLower (ht d hd)

end Text

theorem WrittenTag.Legible.isName_element {tag : WrittenTag} (h : tag.Legible) :
    Tag.IsName tag.element := by
  obtain ⟨c, rest, hname⟩ := List.exists_cons_of_ne_nil h.name_ne_nil
  constructor
  · refine ⟨c.toLower, ?_, ?_⟩
    · rw [WrittenTag.element, hname]
      rfl
    · rw [Char.isLower_toLower_eq_isAlpha]
      apply h.name_isAlpha
      rw [hname]
      rfl
  · exact fun d hd => Text.not_isUpper_of_mem_lowercase hd
  · exact fun d hd => Text.not_endsTagName_of_mem_lowercase h.not_endsTagName hd

theorem WrittenAttribute.LegibleBefore.isNamed {a : WrittenAttribute} {following : Text}
    (h : a.LegibleBefore following) : a.meaning.IsNamed := by
  obtain ⟨⟨c, rest, hname, hc, hrest⟩, -⟩ := h
  have hlower : a.meaning.name = c.toLower :: Text.lowercase rest := by
    rw [WrittenAttribute.meaning, hname]
    rfl
  have hends : ∀ d ∈ c :: rest, endsTagName d = false := by
    rw [List.forall_mem_cons]
    exact ⟨hc, fun d hd => (of_not_endsAttributeName (hrest d hd)).1⟩
  constructor
  · rw [hlower]
    exact List.cons_ne_nil _ _
  · intro d hd
    rw [hlower] at hd
    exact Text.not_isUpper_of_mem_lowercase (t := c :: rest) hd
  · intro d hd
    rw [hlower] at hd
    exact Text.not_endsTagName_of_mem_lowercase hends hd
  · rw [hlower, List.tail_cons]
    intro hsign
    have hmem := Text.mem_of_mem_lowercase (by decide) hsign
    exact (of_not_endsAttributeName (hrest _ hmem)).2 rfl

theorem TagPiece.Legible.exists_legibleBefore {pieces : List TagPiece} {ending : TagEnding}
    (h : Legible ending pieces) {a : WrittenAttribute} (ha : .attr a ∈ pieces) :
    ∃ following, a.LegibleBefore following := by
  induction pieces with
  | nil => cases ha
  | cons piece rest ih =>
    cases piece with
    | blank c => exact ih h.2 (List.mem_of_ne_of_mem (by simp) ha)
    | slash => exact ih h.2 (List.mem_of_ne_of_mem (by simp) ha)
    | attr first =>
      rcases List.mem_cons.mp ha with heq | hrest
      · cases heq
        exact ⟨_, h.1⟩
      · exact ih h.2 hrest

theorem WrittenTag.Legible.isNamed {tag : WrittenTag} (h : tag.Legible) :
    ∀ a ∈ tag.pieces.filterMap TagPiece.meaning?, a.IsNamed := by
  intro a ha
  obtain ⟨piece, hpiece, hmeaning⟩ := List.mem_filterMap.mp ha
  cases piece with
  | blank c => cases hmeaning
  | slash => cases hmeaning
  | attr written =>
    obtain ⟨following, hwritten⟩ := h.pieces.exists_legibleBefore hpiece
    obtain rfl : written.meaning = a := Option.some.inj hmeaning
    exact hwritten.isNamed

/-! ## What is read -/

namespace Lexeme

/-- What every lexeme is by itself. -/
def Orderly : Lexeme → Prop
  | text run => run ≠ [] ∧ run.HoldsNoMarkup
  | startTag tag => tag.Legible ∧ tag.opensRawText = false
  | rawText tag _ _ => tag.Legible ∧ tag.opensRawText = true
  | comment _ _ | declaration _ _ _ | endTag _ _ _ => True

theorem holdsNoMarkup_readRun (s : Text) : (readRun s).1.HoldsNoMarkup := by
  induction s with
  | nil =>
    intro c rest hsuffix
    simp [readRun] at hsuffix
  | cons c s ih =>
    rw [readRun]
    split
    · intro d rest hsuffix
      simp at hsuffix
    · next hstart =>
      intro d rest hsuffix
      have hwhole := append_readRun s
      rcases List.suffix_cons_iff.mp hsuffix with heq | hlater
      · obtain ⟨rfl, hrun⟩ := List.cons.inj heq
        rw [← hrun, List.cons_append] at hwhole
        rw [← hwhole] at hstart
        simpa [startsMarkup, and_assoc, and_comm, and_left_comm] using hstart
      · exact ih d rest hlater

theorem orderly_readElement {c : Char} (hc : c.isAlpha = true) (s : Text) :
    (readElement (c :: s)).1.Orderly := by
  have hlegible := WrittenTag.legible_read hc s
  rw [readElement]
  split
  · next hopens =>
    split
    · exact ⟨hlegible, hopens⟩
    · exact ⟨hlegible, hopens⟩
  · next hopens => exact ⟨hlegible, by simpa using hopens⟩

theorem orderly_readComment (s : Text) : (readComment s).1.Orderly := by
  unfold readComment
  split
  · trivial
  · trivial
  · split <;> trivial

theorem orderly_readMarkup {s : Text} (hs : startsMarkup ('<' :: s) = true) :
    (readMarkup s).1.Orderly := by
  unfold readMarkup
  split
  · exact orderly_readComment _
  · trivial
  · trivial
  · trivial
  · next hbang hquestion hslash =>
    obtain ⟨c, rest, rfl, hc⟩ := exists_isAlpha_of_startsMarkup hs hbang hquestion hslash
    exact orderly_readElement hc rest

theorem orderly_of_read? {s rest : Text} {lexeme : Lexeme} (h : read? s = some (lexeme, rest)) :
    lexeme.Orderly := by
  unfold read? at h
  split at h
  · cases h
  · next c s =>
    split at h
    · next hstart =>
      obtain rfl := eq_of_startsMarkup hstart
      have horderly := orderly_readMarkup hstart
      rwa [Option.some.inj h] at horderly
    · next hstart =>
      have hrun := holdsNoMarkup_readRun (c :: s)
      rw [readRun, if_neg hstart] at hrun
      simp only [Option.some.injEq, Prod.mk.injEq] at h
      obtain ⟨rfl, -⟩ := h
      exact ⟨List.cons_ne_nil _ _, hrun⟩

theorem orderly_of_mem_readAll {s : Text} {lexeme : Lexeme} (h : lexeme ∈ readAll s) :
    lexeme.Orderly := by
  fun_induction readAll s with
  | case1 s hread => cases h
  | case2 s first rest hread ih =>
    rcases List.mem_cons.mp h with rfl | hrest
    · exact orderly_of_read? hread
    · exact ih hrest

end Lexeme

/-! ## What is built -/

/-- An element that can hold any nodes and holds orderly ones. -/
structure OpenElement.Orderly (e : OpenElement) : Prop where
  isName : Tag.IsName e.name
  isNamed : ∀ a ∈ e.attributes, a.IsNamed
  not_isVoid : Tag.isVoid e.name = false
  not_isRawText : Tag.isRawText e.name = false
  children : ∀ child ∈ e.children, child.Orderly

theorem OpenElement.Orderly.node {e : OpenElement} (h : e.Orderly) : e.node.Orderly := by
  rw [OpenElement.node, Node.Orderly, h.not_isVoid, h.not_isRawText]
  refine ⟨h.isName, h.isNamed, ?_⟩
  rw [if_neg Bool.false_ne_true, if_neg Bool.false_ne_true, Node.allOrderly_iff]
  intro child hchild
  exact h.children child (List.mem_reverse.mp hchild)

namespace Builder

structure Orderly (b : Builder) : Prop where
  roots : ∀ node ∈ b.roots, node.Orderly
  opened : ∀ e ∈ b.opened, e.Orderly

variable {b : Builder}

theorem Orderly.append (h : b.Orderly) {node : Node} (hnode : node.Orderly) :
    (b.append node).Orderly := by
  unfold Builder.append
  split
  · next hopened =>
    refine ⟨?_, h.opened⟩
    rw [List.forall_mem_cons]
    exact ⟨hnode, h.roots⟩
  · next parent outer hopened =>
    have hall := h.opened
    rw [hopened, List.forall_mem_cons] at hall
    obtain ⟨hparent, houter⟩ := hall
    refine ⟨h.roots, ?_⟩
    rw [List.forall_mem_cons]
    refine ⟨{ hparent with children := ?_ }, houter⟩
    rw [List.forall_mem_cons]
    exact ⟨hnode, hparent.children⟩

theorem Orderly.finish (h : b.Orderly) : b.finish.Orderly := by
  unfold Builder.finish
  split
  · exact h
  · next e outer hopened =>
    have hall := h.opened
    rw [hopened, List.forall_mem_cons] at hall
    obtain ⟨he, houter⟩ := hall
    have hleft : Orderly { b with opened := outer } := ⟨h.roots, houter⟩
    exact hleft.append he.node

theorem Orderly.finishMany (h : b.Orderly) (n : Nat) : (b.finishMany n).Orderly := by
  induction n generalizing b with
  | zero => exact h
  | succ n ih => exact ih h.finish

theorem Orderly.finishImplied (h : b.Orderly) (rules : List Tag.ImpliedEnd) :
    (b.finishImplied rules).Orderly := by
  induction rules generalizing b with
  | nil => exact h
  | cons rule rules ih => exact ih (h.finishMany _)

theorem Orderly.step_endTag (h : b.Orderly) (name : Text) : (b.step (.endTag name)).Orderly := by
  rw [Builder.step]
  split
  · exact h.finishMany _
  · exact h

variable {tag : WrittenTag}

theorem Orderly.step_startTag (h : b.Orderly) (hlegible : tag.Legible)
    (hraw : tag.opensRawText = false) : (b.step tag.token).Orderly := by
  have hname := hlegible.isName_element
  have hleft := h.finishImplied (Tag.impliedEnds tag.element)
  rw [WrittenTag.token, Builder.step]
  split
  · apply hleft.append
    refine ⟨hname, hlegible.isNamed, ?_⟩
    -- no void or raw-text element gets content here, and this one has none
    split_ifs
    · rfl
    · exact .inl rfl
    · trivial
  · next hcontent =>
    rw [WrittenTag.isSelfClosing, Bool.or_eq_true, not_or] at hcontent
    have hnotRaw : Tag.isRawText tag.element = false := by
      simpa [WrittenTag.opensRawText, WrittenTag.isSelfClosing, hcontent] using hraw
    refine ⟨hleft.roots, ?_⟩
    rw [begin, List.forall_mem_cons]
    refine ⟨⟨hname, hlegible.isNamed, ?_, hnotRaw, List.forall_mem_nil _⟩, hleft.opened⟩
    exact Bool.eq_false_iff.mpr hcontent.2

/-- The tokens of raw text close what they open. -/
theorem run_rawText (b : Builder) (hraw : tag.opensRawText = true) (content close : Text) :
    b.run (Lexeme.rawText tag content close).tokens =
      (b.finishImplied (Tag.impliedEnds tag.element)).append
        (.element tag.element (tag.pieces.filterMap TagPiece.meaning?)
          (if content = [] then [] else [.text content])) := by
  have hcontent : tag.isSelfClosing = false := by
    rw [WrittenTag.opensRawText, Bool.and_eq_true, Bool.not_eq_true'] at hraw
    exact hraw.1
  have hstart : b.step tag.token =
      (b.finishImplied (Tag.impliedEnds tag.element)).begin tag.element
        (tag.pieces.filterMap TagPiece.meaning?) := by
    rw [WrittenTag.token, step, hcontent]
    rfl
  rw [Lexeme.tokens, run_cons, hstart, run_append, ← finish_appendAll_begin,
    ← step_endTag_appendAll_begin, Token.ofRun]
  split_ifs
  · rfl
  · rfl

theorem Orderly.run_rawText (h : b.Orderly) (hlegible : tag.Legible)
    (hraw : tag.opensRawText = true) (content close : Text) :
    (b.run (Lexeme.rawText tag content close).tokens).Orderly := by
  rw [Builder.run_rawText b hraw]
  apply (h.finishImplied _).append
  rw [WrittenTag.opensRawText, WrittenTag.isSelfClosing, Bool.and_eq_true, Bool.not_eq_true',
    Bool.or_eq_false_iff] at hraw
  obtain ⟨⟨-, hvoid⟩, hraw⟩ := hraw
  refine ⟨hlegible.isName_element, hlegible.isNamed, ?_⟩
  rw [hvoid, hraw, if_neg Bool.false_ne_true, if_pos rfl]
  split_ifs with hcontent
  · exact .inl rfl
  · exact .inr ⟨content, rfl, hcontent⟩

theorem Orderly.run_tokens (h : b.Orderly) {lexeme : Lexeme} (hlexeme : lexeme.Orderly) :
    (b.run lexeme.tokens).Orderly := by
  cases lexeme with
  | text run => exact h.append hlexeme
  | comment body ending => exact h.append trivial
  | declaration mark body closed =>
    rw [Lexeme.tokens]
    split
    · exact h
    · exact h.append trivial
  | endTag name skipped closed =>
    rw [Lexeme.tokens]
    split
    · exact h
    · exact h.step_endTag _
  | startTag tag => exact h.step_startTag hlexeme.1 hlexeme.2
  | rawText tag content close => exact h.run_rawText hlexeme.1 hlexeme.2 content close

theorem Orderly.run_tokensAll (h : b.Orderly) {lexemes : List Lexeme}
    (hlexemes : ∀ lexeme ∈ lexemes, lexeme.Orderly) :
    (b.run (lexemes.flatMap Lexeme.tokens)).Orderly := by
  induction lexemes generalizing b with
  | nil => exact h
  | cons lexeme rest ih =>
    rw [List.forall_mem_cons] at hlexemes
    obtain ⟨hlexeme, hrest⟩ := hlexemes
    rw [List.flatMap_cons, run_append]
    exact ih (h.run_tokens hlexeme) hrest

theorem orderly_empty : empty.Orderly :=
  ⟨List.forall_mem_nil _, List.forall_mem_nil _⟩

end Builder

namespace Node

/-- Every tree is orderly, whatever text it is parsed from. -/
theorem allOrderly_parse (s : Text) : AllOrderly (parse s) := by
  have hrun := Builder.orderly_empty.run_tokensAll fun lexeme (h : lexeme ∈ Lexeme.readAll s) =>
    Lexeme.orderly_of_mem_readAll h
  rw [allOrderly_iff]
  intro node hnode
  rw [parse, ofTokens, Builder.nodes, List.mem_reverse] at hnode
  exact (hrun.finishMany _).roots node hnode

end Node

end Hypertext
