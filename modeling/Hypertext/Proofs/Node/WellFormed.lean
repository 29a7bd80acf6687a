import Hypertext.Node.Basic
import Hypertext.Proofs.Token.StartTag

/-!
# Well-formed nodes

Nodes whose canonical written form is read as what it was written from: no text that is empty
or holds markup, no two texts side by side, comments and raw text without their own end in
them, and no element that would end an open one. The text of such nodes is read as their
tokens, one node after the other.
-/

namespace Hypertext

set_option autoImplicit false

namespace Tag.ImpliedEnd

/-- Going outward, nothing that the rule closes comes before what stops it. -/
def IsBarred (rule : ImpliedEnd) : List Text → Prop
  | [] => True
  | name :: outer => name ∈ rule.stopsAt ∨ name ∉ rule.closes ∧ rule.IsBarred outer

instance decidableIsBarred (rule : ImpliedEnd) :
    ∀ ancestors, Decidable (rule.IsBarred ancestors)
  | [] => isTrue trivial
  | _ :: outer =>
    have := decidableIsBarred rule outer
    inferInstanceAs (Decidable (_ ∨ _ ∧ _))

end Tag.ImpliedEnd

namespace Node

def isText : Node → Bool
  | text _ => true
  | _ => false

/-- A start tag that stands below the ancestors without ending any of them. -/
structure IsStart (ancestors : List Text) (name : Text) (attributes : List Attribute) : Prop where
  isName : Tag.IsName name
  isLegible : ∀ a ∈ attributes, a.IsLegible
  not_isUpper : ∀ a ∈ attributes, ∀ c ∈ a.name, c.isUpper = false
  isBarred : ∀ rule ∈ Tag.impliedEnds name, rule.IsBarred ancestors

theorem isStart_iff {ancestors : List Text} {name : Text} {attributes : List Attribute} :
    IsStart ancestors name attributes ↔ Tag.IsName name ∧
      (∀ a ∈ attributes, a.IsLegible ∧ a.name.all (fun c => !c.isUpper) = true) ∧
      ∀ rule ∈ Tag.impliedEnds name, rule.IsBarred ancestors := by
  simp only [List.all_eq_true, Bool.not_eq_true']
  constructor
  · rintro ⟨hname, hlegible, hupper, hbarred⟩
    exact ⟨hname, fun a ha => ⟨hlegible a ha, hupper a ha⟩, hbarred⟩
  · rintro ⟨hname, hattributes, hbarred⟩
    exact ⟨hname, fun a ha => (hattributes a ha).1, fun a ha => (hattributes a ha).2, hbarred⟩

instance (ancestors : List Text) (name : Text) (attributes : List Attribute) :
    Decidable (IsStart ancestors name attributes) :=
  decidable_of_iff _ isStart_iff.symm

def IsRawContent (name : Text) (children : List Node) : Prop :=
  children = [] ∨ ∃ run, children = [text run] ∧ run ≠ [] ∧ closeTagRange? name run = none

instance (name : Text) : ∀ children : List Node, Decidable (IsRawContent name children)
  | [] => isTrue (.inl rfl)
  | [text run] =>
    decidable_of_iff (run ≠ [] ∧ closeTagRange? name run = none) (by simp [IsRawContent])
  | element _ _ _ :: _ | comment _ :: _ | text _ :: _ :: _ => isFalse (by simp [IsRawContent])

mutual

/-- Whether a node can be written below the ancestors, which are named from the innermost
outward, and read back. -/
def WellFormed (ancestors : List Text) : Node → Prop
  | element name attributes children =>
    IsStart ancestors name attributes ∧
      if Tag.isVoid name then children = []
      else if Tag.isRawText name then IsRawContent name children
      else AllWellFormed (name :: ancestors) children
  | text run => run ≠ [] ∧ '<' ∉ run
  | comment body => Lexeme.IsCommentBody body

def AllWellFormed (ancestors : List Text) : List Node → Prop
  | [] => True
  | node :: rest =>
    WellFormed ancestors node ∧
      (node.isText = true → ∀ next ∈ rest.head?, next.isText = false) ∧
      AllWellFormed ancestors rest

end

mutual

instance decidableWellFormed (ancestors : List Text) : ∀ node, Decidable (WellFormed ancestors node)
  | element name _ children =>
    have := decidableAllWellFormed (name :: ancestors) children
    inferInstanceAs (Decidable (_ ∧ ite _ _ _))
  | text _ => inferInstanceAs (Decidable (_ ∧ _))
  | comment body => inferInstanceAs (Decidable (Lexeme.IsCommentBody body))

instance decidableAllWellFormed (ancestors : List Text) :
    ∀ nodes, Decidable (AllWellFormed ancestors nodes)
  | [] => isTrue trivial
  | node :: rest =>
    have := decidableWellFormed ancestors node
    have := decidableAllWellFormed ancestors rest
    inferInstanceAs (Decidable (_ ∧ (_ → ∀ next ∈ rest.head?, _) ∧ _))

end

mutual

def tokens : Node → List Token
  | element name attributes children =>
    if Tag.isVoid name then [.startTag name attributes true]
    else .startTag name attributes false :: (tokensAll children ++ [.endTag name])
  | text run => [.text run]
  | comment body => [.comment body]

def tokensAll : List Node → List Token
  | [] => []
  | node :: rest => node.tokens ++ tokensAll rest

end

variable {ancestors : List Text} {name : Text} {attributes : List Attribute}

theorem IsStart.map_lowercase (h : IsStart ancestors name attributes) :
    attributes.map Attribute.lowercase = attributes := by
  have hsame : attributes.map Attribute.lowercase = attributes.map id := by
    apply List.map_congr_left
    intro a ha
    rw [Attribute.lowercase, Text.lowercase_eq_self (h.not_isUpper a ha)]
    rfl
  rw [hsame, List.map_id]

theorem IsStart.readAll_append (h : IsStart ancestors name attributes)
    (hraw : (!Tag.isVoid name && Tag.isRawText name) = false) (rest : Text) :
    Token.readAll (startTag name attributes ++ rest) =
      .startTag name attributes (Tag.isVoid name) :: Token.readAll rest := by
  rw [Token.readAll_startTag h.isName h.isLegible hraw, h.map_lowercase]

theorem startsMarkup_startTag (hname : Tag.IsName name) (attributes : List Attribute) (t : Text) :
    Lexeme.startsMarkup (startTag name attributes ++ t) = true := by
  rw [startTag, List.cons_append, List.append_assoc]
  exact hname.startsMarkup _

theorem startsMarkup_written {node : Node} (h : WellFormed ancestors node)
    (hnode : node.isText = false) (t : Text) :
    Lexeme.startsMarkup (node.written ++ t) = true := by
  cases node with
  | text run => simp [isText] at hnode
  | comment body => rfl
  | element name attributes children =>
    have hname := h.1.isName
    rw [written]
    split
    · exact startsMarkup_startTag hname attributes t
    · rw [List.append_assoc]
      exact startsMarkup_startTag hname attributes _

theorem readAll_endTag (hname : Tag.IsName name) (rest : Text) :
    Token.readAll (endTag name ++ rest) = .endTag name :: Token.readAll rest := by
  have hsettled : Lexeme.Settled (.endTag name [] true) :=
    Lexeme.settled_endTag hname.not_endsTagName (by simp) (by simp)
  have hread := Token.readAll_of_read? (hsettled rest)
  have hne : name ≠ [] := by
    rintro rfl
    obtain ⟨c, hc, -⟩ := hname.starts
    cases hc
  simpa [endTag, Lexeme.source, Text.closing, Lexeme.tokens, hne, hname.lowercase] using hread

theorem readAll_comment {body : Text} (h : Lexeme.IsCommentBody body) (rest : Text) :
    Token.readAll ((comment body).written ++ rest) = .comment body :: Token.readAll rest :=
  Token.readAll_of_read? (Lexeme.settled_comment h rest)

theorem readAll_text {run rest : Text} (hne : run ≠ []) (hrun : '<' ∉ run)
    (hrest : rest = [] ∨ Lexeme.startsMarkup rest = true) :
    Token.readAll (run ++ rest) = .text run :: Token.readAll rest := by
  rw [Token.readAll, Lexeme.readAll_run_append (Lexeme.isRun_of_notMem hrun) hne hrest]
  rfl

theorem IsRawContent.tokens {children : List Node} (h : IsRawContent name children) :
    tokensAll children = Token.ofRun (writtenAll children) ∧
      closeTagRange? name (writtenAll children) = none := by
  rcases h with rfl | ⟨run, rfl, hne, hrun⟩
  · exact ⟨rfl, rfl⟩
  · simp [tokensAll, Node.tokens, writtenAll, written, Token.ofRun, hne, hrun]

/-- Raw text goes up to its end tag, whatever looks like markup in it. -/
theorem readAll_rawText (h : IsStart ancestors name attributes) (hvoid : Tag.isVoid name = false)
    (hraw : Tag.isRawText name = true) {content : Text}
    (hcontent : closeTagRange? name content = none) (rest : Text) :
    Token.readAll (startTag name attributes ++ (content ++ (endTag name ++ rest))) =
      .startTag name attributes false ::
        (Token.ofRun content ++ .endTag name :: Token.readAll rest) := by
  have hopens := h.isName.opensRawText (TagPiece.ofAttributes attributes)
  have helement : (WrittenTag.mk name (TagPiece.ofAttributes attributes) .plain).element = name :=
    h.isName.lowercase
  rw [hvoid, hraw] at hopens
  have hlegible := WrittenTag.legible_canonical h.isName h.isLegible
  have hsettled : Lexeme.Settled
      (.rawText ⟨name, TagPiece.ofAttributes attributes, .plain⟩ content (endTag name)) := by
    apply Lexeme.settled_rawText hlegible (by simp) hopens
    · rw [helement]
      exact Option.map_eq_none_iff.mp hcontent
    · rw [helement]
      exact isCloseTag_self name
  have hread := Token.readAll_of_read? (hsettled rest)
  rw [Lexeme.source, Lexeme.tokens, helement, h.isName.token, TagPiece.meaning_ofAttributes,
    h.map_lowercase, hvoid, WrittenTag.source_canonical] at hread
  simpa using hread

mutual

theorem readAll_written : ∀ {ancestors : List Text} {node : Node}, WellFormed ancestors node →
    ∀ rest : Text, (node.isText = true → rest = [] ∨ Lexeme.startsMarkup rest = true) →
      Token.readAll (node.written ++ rest) = node.tokens ++ Token.readAll rest
  | _, text _, h, rest, hrest => readAll_text h.1 h.2 (hrest rfl)
  | _, comment _, h, rest, _ => readAll_comment h rest
  | ancestors, element name attributes children, h, rest, _ => by
    obtain ⟨hstart, hchildren⟩ := h
    by_cases hvoid : Tag.isVoid name = true
    · rw [written, tokens, if_pos hvoid, if_pos hvoid, hstart.readAll_append (by simp [hvoid]),
        hvoid]
      rfl
    · rw [written, tokens, if_neg hvoid, if_neg hvoid]
      rw [if_neg hvoid] at hchildren
      simp only [List.append_assoc, List.cons_append, List.nil_append]
      by_cases hraw : Tag.isRawText name = true
      · rw [if_pos hraw] at hchildren
        obtain ⟨htokens, hclose⟩ := hchildren.tokens
        rw [readAll_rawText hstart (Bool.eq_false_iff.mpr hvoid) hraw hclose, htokens]
      · rw [if_neg hraw] at hchildren
        rw [hstart.readAll_append (by simp [hraw]), readAll_writtenAll hchildren _ (.inr rfl),
          readAll_endTag hstart.isName, Bool.eq_false_iff.mpr hvoid]

/-- Well-formed nodes are read one after the other, up to the end of the text or to markup. -/
theorem readAll_writtenAll : ∀ {ancestors : List Text} {nodes : List Node},
    AllWellFormed ancestors nodes →
    ∀ rest : Text, rest = [] ∨ Lexeme.startsMarkup rest = true →
      Token.readAll (writtenAll nodes ++ rest) = tokensAll nodes ++ Token.readAll rest
  | _, [], _, rest, _ => rfl
  | ancestors, node :: nodes, h, rest, hrest => by
    obtain ⟨hnode, hnext, hnodes⟩ := h
    have hends : node.isText = true → writtenAll nodes ++ rest = [] ∨
        Lexeme.startsMarkup (writtenAll nodes ++ rest) = true := by
      intro htext
      cases nodes with
      | nil => exact hrest
      | cons next nodes =>
        rw [writtenAll, List.append_assoc]
        exact .inr (startsMarkup_written hnodes.1 (hnext htext next rfl) _)
    rw [writtenAll, tokensAll, List.append_assoc, readAll_written hnode _ hends,
      readAll_writtenAll hnodes rest hrest, List.append_assoc]

end

theorem readAll_writtenAll_of_end {ancestors : List Text} {nodes : List Node}
    (h : AllWellFormed ancestors nodes) : Token.readAll (writtenAll nodes) = tokensAll nodes := by
  have hread := readAll_writtenAll h [] (.inl rfl)
  rwa [List.append_nil, Token.readAll_nil, List.append_nil] at hread

end Node

end Hypertext
