import Hypertext.Proofs.Compose
import Hypertext.Proofs.Token.StartTag

/-!
# Values in quoted attributes

A template whose slots are the values of attributes, each between quotes of one of the two
kinds. A value without markup has neither quote in it, so it stays between its own: the tag
is read with the attributes that the template has, and what follows is read as if alone.
-/

namespace Hypertext

set_option autoImplicit false

/-- An attribute of a template with a slot between its quotes, and what is put there. -/
structure AttributeSlot where
  name : Text
  quote : Char
  value : Placeholder

namespace AttributeSlot

structure IsLegible (a : AttributeSlot) : Prop where
  name_ne_nil : a.name ≠ []
  not_isUpper : ∀ c ∈ a.name, c.isUpper = false
  not_endsAttributeName : ∀ c ∈ a.name, endsAttributeName c = false
  quote_eq : a.quote = '"' ∨ a.quote = '\''
  isMarkupFree : a.value.IsMarkupFree

/-- The fragments of a template with a start tag that is open so far, its further attributes,
and what follows the tag. -/
def fragments (opening after : Text) : List AttributeSlot → List Text
  | [] => [opening ++ '>' :: after]
  | a :: slots =>
    (opening ++ ' ' :: (a.name ++ ['=', a.quote])) :: fragments [a.quote] after slots

def resolved (a : AttributeSlot) : Attribute :=
  ⟨a.name, some a.value.resolve⟩

def spelling (a : AttributeSlot) : WrittenAttribute :=
  ⟨a.name, some ⟨[], [], .quoted a.quote a.value.resolve true⟩⟩

def pieces (slots : List AttributeSlot) : List TagPiece :=
  slots.flatMap fun a => [.blank ' ', .attr a.spelling]

variable {a : AttributeSlot} {slots : List AttributeSlot}

theorem pieces_cons (a : AttributeSlot) (slots : List AttributeSlot) :
    pieces (a :: slots) = .blank ' ' :: .attr a.spelling :: pieces slots := by
  simp [pieces]

theorem source_spelling (a : AttributeSlot) :
    a.spelling.source = a.name ++ '=' :: a.quote :: (a.value.resolve ++ [a.quote]) := by
  simp [spelling, WrittenAttribute.source, Assignment.source, WrittenValue.source, Text.closing]

theorem exists_fragments_eq_cons (opening after : Text) (slots : List AttributeSlot) :
    ∃ fragment more, fragments opening after slots = fragment :: more := by
  cases slots with
  | nil => exact ⟨_, _, rfl⟩
  | cons a slots => exact ⟨_, _, rfl⟩

theorem interleave_fragments (opening after : Text) (slots : List AttributeSlot) :
    interleave (fragments opening after slots) (slots.map value) =
      opening ++ (TagPiece.writtenAll (pieces slots) .plain ++ after) := by
  induction slots generalizing opening with
  | nil => simp [fragments, interleave, pieces, TagPiece.writtenAll, TagEnding.source]
  | cons a slots ih =>
    obtain ⟨next, more, hnext⟩ := exists_fragments_eq_cons [a.quote] after slots
    rw [fragments, hnext, List.map_cons, interleave_cons_cons, ← hnext, ih, pieces_cons,
      TagPiece.writtenAll_cons, TagPiece.writtenAll_cons, TagPiece.source, TagPiece.source,
      source_spelling]
    simp

theorem meaning_pieces (h : ∀ a ∈ slots, a.IsLegible) :
    (pieces slots).filterMap TagPiece.meaning? = slots.map resolved := by
  rw [pieces, TagPiece.flatMap_eq_ofSpellings, TagPiece.meaning_ofSpellings, List.map_map]
  apply List.map_congr_left
  intro a ha
  simp only [Function.comp_apply, WrittenAttribute.meaning, spelling, resolved,
    Text.lowercase_eq_self (h a ha).not_isUpper]
  rfl

theorem IsLegible.notMem_resolve (h : a.IsLegible) : a.quote ∉ a.value.resolve := by
  rw [Placeholder.resolve_eq_escape_plain _ h.isMarkupFree]
  apply Text.notMem_escape
  rcases h.quote_eq with hquote | hquote
  · simp [hquote]
  · simp [hquote]

theorem IsLegible.isWhole (h : a.IsLegible) : a.spelling.IsWhole := by
  refine ⟨h.name_ne_nil, h.not_endsAttributeName, ?_⟩
  rintro assignment ⟨⟩
  refine ⟨List.forall_mem_nil _, List.forall_mem_nil _, ?_, h.notMem_resolve, rfl⟩
  simpa [isQuote] using h.quote_eq

theorem strip_fragments {pre : Text} (hpre : pre.head? ≠ some '\n') (name after : Text)
    (slots : List AttributeSlot) :
    Indent.strip (fragments (pre ++ '<' :: name) after slots) =
      fragments (pre ++ '<' :: name) after slots := by
  have hbase : Indent.base? (fragments (pre ++ '<' :: name) after slots) = none := by
    cases pre with
    | nil => cases slots <;> rfl
    | cons c pre =>
      have hc : c ≠ '\n' := by simpa using hpre
      cases slots with
      | nil => simp [fragments, Indent.base?, hc]
      | cons a slots => simp [fragments, Indent.base?, hc]
  rw [Indent.strip, hbase]

/-- A value between quotes stays there, whichever quotes they are: the composed markup is read
as what stands before the tag, the tag with the values as they resolve, and what follows. The
values decode to their plain texts. -/
theorem readAll_compose_fragments (pre name post : Text) (slots : List AttributeSlot)
    (hnewline : pre.head? ≠ some '\n') (hpre : EndsInText pre) (hname : Tag.IsName name)
    (hraw : Tag.isRawText name = false) (hslots : ∀ a ∈ slots, a.IsLegible) :
    Token.readAll (compose (fragments (pre ++ '<' :: name) post slots) (slots.map value)).html =
        Token.readAll pre ++ .startTag name
          (slots.map fun a => ⟨a.name, some a.value.resolve⟩) (Tag.isVoid name) ::
            Token.readAll post ∧
      ∀ a ∈ slots, a.value.resolve.decode = a.value.plain := by
  constructor
  · have hlegible : WrittenTag.Legible ⟨name, pieces slots, .plain⟩ :=
      hname.legible_spaced fun a ha => (hslots a ha).isWhole
    have hread := Token.readAll_source_append hname hlegible (by rw [hraw, Bool.and_false]) post
    rw [WrittenTag.source_eq, List.cons_append, List.append_assoc, meaning_pieces hslots] at hread
    rw [compose, strip_fragments hnewline, interleave_fragments, List.append_assoc,
      List.cons_append, hpre.readAll_append (hname.startsMarkup _), hread]
    rfl
  · intro a ha
    rw [Placeholder.resolve_eq_escape_plain _ (hslots a ha).isMarkupFree, Text.decode_escape]

theorem readAll_compose_fragments_link :
    Token.readAll (compose (fragments "x <a".toList "y</a>".toList
        [⟨"title".toList, '"', .text "\"><br>".toList⟩,
          ⟨"alt".toList, '\'', .sequence [.absent, .text "' b='".toList]⟩])
        [.text "\"><br>".toList, .sequence [.absent, .text "' b='".toList]]).html =
      [.text "x ".toList, .startTag "a".toList
        [⟨"title".toList, some "&quot;&gt;&lt;br&gt;".toList⟩,
          ⟨"alt".toList, some "&#39; b=&#39;".toList⟩] false,
        .text "y".toList, .endTag "a".toList] := by
  have hslots : ∀ a ∈ [AttributeSlot.mk "title".toList '"' (.text "\"><br>".toList),
      ⟨"alt".toList, '\'', .sequence [.absent, .text "' b='".toList]⟩], a.IsLegible := by
    intro a ha
    simp only [List.mem_cons, List.not_mem_nil, or_false] at ha
    rcases ha with rfl | rfl
    · refine ⟨by decide, by simp, by simp [endsAttributeName, endsTagName, isBlank], .inl rfl, ?_⟩
      simp [Placeholder.IsMarkupFree, Placeholder.leaves]
    · refine ⟨by decide, by simp, by simp [endsAttributeName, endsTagName, isBlank], .inr rfl, ?_⟩
      simp [Placeholder.IsMarkupFree, Placeholder.leaves, Placeholder.leavesAll]
  have hread := (readAll_compose_fragments "x ".toList "a".toList "y</a>".toList _ (by decide)
    (by decide +kernel) (by decide) (by decide) hslots).1
  refine hread.trans ?_
  decide +kernel

end AttributeSlot

end Hypertext
