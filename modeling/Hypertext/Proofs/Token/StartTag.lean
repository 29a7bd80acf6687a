import Hypertext.Node.Basic
import Hypertext.Proofs.Lexeme.Read
import Hypertext.Proofs.Token.Spelling

/-!
# Canonical start tags

A start tag in its canonical form has a space before each attribute and double quotes around
each value. It is read as one token, and reading goes on behind it.
-/

namespace Hypertext

set_option autoImplicit false

/-- A name of an element as start tags can have it. -/
structure Tag.IsName (name : Text) : Prop where
  starts : ∃ c ∈ name.head?, c.isLower = true
  not_isUpper : ∀ c ∈ name, c.isUpper = false
  not_endsTagName : ∀ c ∈ name, endsTagName c = false

theorem Tag.isName_iff {name : Text} :
    IsName name ↔ name.head?.any Char.isLower = true ∧
      name.all (fun c => !c.isUpper && !endsTagName c) = true := by
  simp only [Option.any_eq_true, List.all_eq_true, Bool.and_eq_true, Bool.not_eq_true']
  constructor
  · rintro ⟨hstarts, hupper, hends⟩
    exact ⟨hstarts, fun c hc => ⟨hupper c hc, hends c hc⟩⟩
  · rintro ⟨hstarts, hall⟩
    exact ⟨hstarts, fun c hc => (hall c hc).1, fun c hc => (hall c hc).2⟩

instance (name : Text) : Decidable (Tag.IsName name) :=
  decidable_of_iff _ Tag.isName_iff.symm

/-- An attribute whose canonical form does not fall apart. Its name may be in any case. -/
structure Attribute.IsLegible (a : Attribute) : Prop where
  name_ne_nil : a.name ≠ []
  not_endsAttributeName : ∀ c ∈ a.name, endsAttributeName c = false
  notMem_value : ∀ value ∈ a.value, '"' ∉ value

theorem Attribute.isLegible_iff {a : Attribute} :
    a.IsLegible ↔ a.name ≠ [] ∧ a.name.all (fun c => !endsAttributeName c) = true ∧
      a.value.all (fun value => '"' ∉ value) = true := by
  simp only [Option.all_eq_true, List.all_eq_true, Bool.not_eq_true', decide_eq_true_eq]
  exact ⟨fun h => ⟨h.1, h.2, h.3⟩, fun h => ⟨h.1, h.2.1, h.2.2⟩⟩

instance (a : Attribute) : Decidable a.IsLegible :=
  decidable_of_iff _ Attribute.isLegible_iff.symm

def Attribute.lowercase (a : Attribute) : Attribute :=
  { a with name := a.name.lowercase }

def Attribute.spelling (a : Attribute) : WrittenAttribute :=
  ⟨a.name, a.value.map fun value => ⟨[], [], .quoted '"' value true⟩⟩

theorem Attribute.IsLegible.isWhole {a : Attribute} (h : a.IsLegible) : a.spelling.IsWhole := by
  refine ⟨h.name_ne_nil, h.not_endsAttributeName, ?_⟩
  intro assignment hassignment
  obtain ⟨value, hvalue, rfl⟩ := Option.map_eq_some_iff.mp hassignment
  exact ⟨List.forall_mem_nil _, List.forall_mem_nil _, rfl, h.notMem_value value hvalue, rfl⟩

namespace TagPiece

def ofAttributes (attributes : List Attribute) : List TagPiece :=
  attributes.flatMap fun a => [.blank ' ', .attr a.spelling]

theorem flatMap_eq_ofSpellings {α : Type} (spelling : α → WrittenAttribute) (attributes : List α) :
    (attributes.flatMap fun a => [blank ' ', attr (spelling a)]) =
      ofSpellings (attributes.map fun a => ⟨[' '], spelling a⟩) [] := by
  rw [ofSpellings, List.flatMap_map, List.map_nil, List.append_nil]
  rfl

theorem ofAttributes_eq_ofSpellings (attributes : List Attribute) :
    ofAttributes attributes = ofSpellings (attributes.map fun a => ⟨[' '], a.spelling⟩) [] :=
  flatMap_eq_ofSpellings Attribute.spelling attributes

theorem source_ofAttribute (a : Attribute) :
    [TagPiece.blank ' ', .attr a.spelling].flatMap source = a.written := by
  cases hvalue : a.value with
  | none => simp [source, Attribute.spelling, Attribute.written, WrittenAttribute.source, hvalue]
  | some value =>
    simp [source, Attribute.spelling, Attribute.written, WrittenAttribute.source, hvalue,
      Assignment.source, WrittenValue.source, Text.closing]

theorem writtenAll_ofAttributes (attributes : List Attribute) :
    writtenAll (ofAttributes attributes) .plain =
      attributes.flatMap Attribute.written ++ ['>'] := by
  rw [writtenAll, ofAttributes, List.flatMap_assoc]
  simp only [source_ofAttribute, TagEnding.source]

theorem meaning_spelling (a : Attribute) : a.spelling.meaning = a.lowercase := by
  cases hvalue : a.value with
  | none => simp [WrittenAttribute.meaning, Attribute.spelling, Attribute.lowercase, hvalue]
  | some value =>
    simp [WrittenAttribute.meaning, Attribute.spelling, Attribute.lowercase, hvalue,
      WrittenValue.body]

theorem meaning_ofAttributes (attributes : List Attribute) :
    (ofAttributes attributes).filterMap meaning? = attributes.map Attribute.lowercase := by
  rw [ofAttributes_eq_ofSpellings, meaning_ofSpellings, List.map_map]
  apply List.map_congr_left
  intro a _
  exact meaning_spelling a

end TagPiece

variable {name : Text} {pieces : List TagPiece} {attributes : List Attribute}

namespace Tag.IsName

theorem lowercase (h : IsName name) : Text.lowercase name = name :=
  Text.lowercase_eq_self h.not_isUpper

theorem startsMarkup (h : IsName name) (t : Text) :
    Lexeme.startsMarkup ('<' :: (name ++ t)) = true := by
  obtain ⟨c, hc, hlower⟩ := h.starts
  obtain ⟨rest, rfl⟩ := List.head?_eq_some_iff.mp hc
  simp [Lexeme.startsMarkup, Char.isAlpha, hlower]

theorem legible_ofSpellings (h : IsName name) {attributes : List AttributeSpelling} {gap : Text}
    (hattributes : ∀ a ∈ attributes, a.IsWhole) (hgap : gap.IsBlank) :
    WrittenTag.Legible ⟨name, TagPiece.ofSpellings attributes gap, .plain⟩ := by
  obtain ⟨c, hc, hlower⟩ := h.starts
  have hwhole : TagSpelling.IsWhole ⟨name, attributes, gap, false⟩ :=
    ⟨⟨c, hc, by simp [Char.isAlpha, hlower]⟩, h.not_endsTagName, hattributes, hgap, nofun⟩
  exact hwhole.legible

/-- One space before each attribute is enough to keep them apart. -/
theorem legible_spaced (h : IsName name) {α : Type} {spelling : α → WrittenAttribute}
    {attributes : List α} (hattributes : ∀ a ∈ attributes, (spelling a).IsWhole) :
    WrittenTag.Legible
      ⟨name, attributes.flatMap fun a => [.blank ' ', .attr (spelling a)], .plain⟩ := by
  rw [TagPiece.flatMap_eq_ofSpellings]
  apply h.legible_ofSpellings
  · intro spelled hspelled
    obtain ⟨a, ha, rfl⟩ := List.mem_map.mp hspelled
    exact ⟨List.cons_ne_nil _ _, List.forall_mem_singleton.mpr rfl, hattributes a ha⟩
  · exact List.forall_mem_nil _

theorem token (h : IsName name) (pieces : List TagPiece) :
    (WrittenTag.mk name pieces .plain).token =
      .startTag name (pieces.filterMap TagPiece.meaning?) (isVoid name) := by
  simp [WrittenTag.token, WrittenTag.element, WrittenTag.isSelfClosing, h.lowercase]

theorem opensRawText (h : IsName name) (pieces : List TagPiece) :
    (WrittenTag.mk name pieces .plain).opensRawText = (!isVoid name && isRawText name) := by
  simp [WrittenTag.opensRawText, WrittenTag.element, WrittenTag.isSelfClosing, h.lowercase]

end Tag.IsName

theorem WrittenTag.source_canonical (name : Text) (attributes : List Attribute) :
    (WrittenTag.mk name (TagPiece.ofAttributes attributes) .plain).source =
      Node.startTag name attributes := by
  rw [source_eq, TagPiece.writtenAll_ofAttributes, Node.startTag]

theorem WrittenTag.legible_canonical (hname : Tag.IsName name)
    (hattributes : ∀ a ∈ attributes, a.IsLegible) :
    WrittenTag.Legible ⟨name, TagPiece.ofAttributes attributes, .plain⟩ :=
  hname.legible_spaced fun a ha => (hattributes a ha).isWhole

namespace Token

/-- A start tag is read to where its pieces end, be it behind `>` or not. -/
theorem readAll_openTag (hname : Tag.IsName name) (hraw : Tag.isRawText name = false) {t : Text}
    (ht : ∀ c ∈ t.head?, endsTagName c = true) :
    readAll ('<' :: (name ++ t)) =
      .startTag name ((TagPiece.readAll t).1.filterMap TagPiece.meaning?)
          ((TagPiece.readAll t).2.1 = .selfClosing || Tag.isVoid name) ::
        readAll (TagPiece.readAll t).2.2 := by
  have hbody : ∀ c ∈ name, (!endsTagName c) = true := by simpa using hname.not_endsTagName
  have hends : ∀ c ∈ t.head?, (!endsTagName c) = false := by simpa using ht
  have htag : WrittenTag.read (name ++ t) =
      (⟨name, (TagPiece.readAll t).1, (TagPiece.readAll t).2.1⟩, (TagPiece.readAll t).2.2) := by
    rw [WrittenTag.read, Text.takeWhile_append_of_head hbody hends,
      Text.dropWhile_append_of_head hbody hends]
  have helement : Lexeme.readMarkup (name ++ t) = Lexeme.readElement (name ++ t) := by
    obtain ⟨c, hc, hlower⟩ := hname.starts
    obtain ⟨later, rfl⟩ := List.head?_eq_some_iff.mp hc
    exact Lexeme.readMarkup_of_isAlpha (by simp [Char.isAlpha, hlower]) _
  rw [readAll_markup (hname.startsMarkup t), helement, Lexeme.readElement, htag, if_neg]
  · simp [Lexeme.tokens, WrittenTag.token, WrittenTag.element, WrittenTag.isSelfClosing,
      hname.lowercase]
  · simp [WrittenTag.opensRawText, WrittenTag.element, hname.lowercase, hraw]

/-- A legible start tag is one token in front of any text, unless raw text follows. -/
theorem readAll_source_append (hname : Tag.IsName name)
    (hlegible : WrittenTag.Legible ⟨name, pieces, .plain⟩)
    (hraw : (!Tag.isVoid name && Tag.isRawText name) = false) (rest : Text) :
    readAll ((WrittenTag.mk name pieces .plain).source ++ rest) =
      .startTag name (pieces.filterMap TagPiece.meaning?) (Tag.isVoid name) :: readAll rest := by
  rw [← hname.token pieces]
  exact readAll_tag hlegible nofun (by rw [hname.opensRawText, hraw]) rest

theorem readAll_startTag (hname : Tag.IsName name) (hattributes : ∀ a ∈ attributes, a.IsLegible)
    (hraw : (!Tag.isVoid name && Tag.isRawText name) = false) (rest : Text) :
    readAll (Node.startTag name attributes ++ rest) =
      .startTag name (attributes.map Attribute.lowercase) (Tag.isVoid name) :: readAll rest := by
  have hlegible := WrittenTag.legible_canonical hname hattributes
  rw [← WrittenTag.source_canonical, readAll_source_append hname hlegible hraw,
    TagPiece.meaning_ofAttributes]

end Token

end Hypertext
