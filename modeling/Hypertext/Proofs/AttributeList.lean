import Hypertext.AttributeList
import Hypertext.Proofs.Text.Reference
import Hypertext.Proofs.Token.StartTag

/-!
# Attribute lists are read back

An attribute list stands in a start tag as the attributes of the visible members, each with
its text escaped once. Reading the tag gives these attributes in their order, and decoding
their values the texts.
-/

namespace Hypertext.AttributeList

set_option autoImplicit false

/-- The text that a visible member shows; `true` shows none. -/
def shown? (key : Text) : Json.Value → Option Text
  | .bool true => none
  | .array items =>
    some (Text.joinWith [' '] ((items.filter isVisible).map Json.Value.plainText))
  | .object members =>
    some <|
      if key = styleKey then
        Text.joinWith "; " ((members.filter fun member => isVisible member.2).map
          fun (property, value) => property ++ ": ".toList ++ value.plainText)
      else (Json.Value.object members).compact
  | value => some value.plainText

/-- The attributes that a mapping stands for, with their names in the case of the keys. -/
def attributes (members : List (Text × Json.Value)) : List Attribute :=
  (members.filter fun member => isVisible member.2).map
    fun (key, value) => ⟨key.escape, (shown? key value).map Text.escape⟩

def IsKey (key : Text) : Prop :=
  key ≠ [] ∧ ∀ c ∈ key, isBlank c = false ∧ c ≠ '/' ∧ c ≠ '='

instance (key : Text) : Decidable (IsKey key) :=
  inferInstanceAs (Decidable (_ ∧ _))

theorem classList_eq (items : List Json.Value) :
    classList items =
      (Text.joinWith [' '] ((items.filter isVisible).map Json.Value.plainText)).escape := by
  rw [Text.escape_joinWith rfl, List.map_map]
  rfl

theorem inlineStyle_eq (properties : List (Text × Json.Value)) :
    inlineStyle properties =
      (Text.joinWith "; " ((properties.filter fun property => isVisible property.2).map
        fun (property, value) => property ++ ": ".toList ++ value.plainText)).escape := by
  rw [Text.escape_joinWith (by decide), List.map_map, inlineStyle]
  congr 1
  apply List.map_congr_left
  rintro ⟨property, value⟩ -
  have hcolon : Text.escape ": ".toList = ": ".toList := by decide
  simp only [Function.comp_apply, Text.escape_append, hcolon]

/-- Escaping piece by piece is escaping the whole. -/
theorem shown?_eq_valueMarkup {key : Text} {value : Json.Value} {text : Text}
    (h : shown? key value = some text) : valueMarkup key value = text.escape := by
  unfold shown? at h
  split at h
  · cases h
  · obtain rfl := Option.some.inj h
    exact classList_eq _
  · obtain rfl := Option.some.inj h
    rw [valueMarkup]
    split
    · exact inlineStyle_eq _
    · rfl
  · next harray hobject =>
    obtain rfl := Option.some.inj h
    cases value with
    | array items => exact absurd rfl (harray items)
    | object members => exact absurd rfl (hobject members)
    | null | bool | integer | float | string => rfl

theorem entryText_eq (key : Text) (value : Json.Value) :
    ' ' :: entryText key value =
      Attribute.written ⟨key.escape, (shown? key value).map Text.escape⟩ := by
  cases hshown : shown? key value with
  | none =>
    have htrue : value = .bool true := by
      unfold shown? at hshown
      split at hshown <;> simp_all
    rw [htrue]
    rfl
  | some text =>
    rw [Option.map_some, ← shown?_eq_valueMarkup hshown, Attribute.written]
    unfold entryText
    split
    · simp [shown?] at hshown
    · rfl

theorem isLegible_attributes {members : List (Text × Json.Value)}
    (h : ∀ member ∈ members, IsKey member.1) : ∀ a ∈ attributes members, a.IsLegible := by
  intro a ha
  obtain ⟨⟨key, value⟩, hmember, rfl⟩ := List.mem_map.mp ha
  obtain ⟨hne, hkey⟩ := h _ (List.mem_of_mem_filter hmember)
  constructor
  · exact Text.escape_ne_nil hne
  · intro c hc
    rcases Text.mem_escape hc with hreference | ⟨hmem, -, hgt, -, -⟩
    · have hall : ∀ d ∈ Text.referenceChars, endsAttributeName d = false := by
        simp [Text.referenceChars, endsAttributeName, endsTagName, isBlank]
      exact hall c hreference
    · obtain ⟨hblank, hslash, hsign⟩ := hkey c hmem
      simp [endsAttributeName, endsTagName, hblank, hslash, hsign, hgt]
  · intro written hwritten
    obtain ⟨text, -, rfl⟩ := Option.map_eq_some_iff.mp hwritten
    exact Text.notMem_escape (by simp) text

theorem cons_joinWith {entries : List Text} (h : entries ≠ []) :
    ' ' :: Text.joinWith [' '] entries = entries.flatMap (' ' :: ·) := by
  induction entries with
  | nil => exact absurd rfl h
  | cons entry entries ih =>
    rw [List.flatMap_cons]
    by_cases hrest : entries = []
    · subst hrest
      rw [Text.joinWith_singleton, List.flatMap_nil, List.append_nil]
    · rw [Text.joinWith_cons [' '] entry hrest, ← ih hrest]
      rfl

theorem entryText_ne_nil {key : Text} (h : key ≠ []) (value : Json.Value) :
    entryText key value ≠ [] := by
  unfold entryText
  split
  · exact Text.escape_ne_nil h
  · simp

theorem html_ofMembers {members : List (Text × Json.Value)}
    (hkeys : ∀ member ∈ members, IsKey member.1) :
    (ofMembers members).html = Text.joinWith [' ']
      ((members.filter fun member => isVisible member.2).map
        fun (key, value) => entryText key value) := by
  rw [ofMembers]
  dsimp only
  rw [List.dropWhile_eq_self_iff.mpr]
  intro hpos hempty
  obtain ⟨⟨key, value⟩, hmember, hentry⟩ := List.mem_map.mp (List.getElem_mem hpos)
  rw [← hentry, List.isEmpty_iff] at hempty
  exact entryText_ne_nil (hkeys _ (List.mem_of_mem_filter hmember)).1 value hempty

theorem cons_html_ofMembers {members : List (Text × Json.Value)}
    (hkeys : ∀ member ∈ members, IsKey member.1) (hne : attributes members ≠ []) :
    ' ' :: (ofMembers members).html = (attributes members).flatMap Attribute.written := by
  rw [html_ofMembers hkeys, cons_joinWith (by simpa [attributes] using hne), List.flatMap_map,
    attributes, List.flatMap_map]
  simp only [entryText_eq]

theorem html_ofMembers_of_attributes_eq_nil {members : List (Text × Json.Value)}
    (h : attributes members = []) : (ofMembers members).html = [] := by
  rw [attributes, List.map_eq_nil_iff] at h
  rw [ofMembers, h]
  rfl

theorem readAll_startTag_blank {name : Text} (hname : Tag.IsName name)
    (hraw : Tag.isRawText name = false) (rest : Text) :
    Token.readAll ('<' :: (name ++ ' ' :: '>' :: rest)) =
      .startTag name [] (Tag.isVoid name) :: Token.readAll rest := by
  have hlegible : WrittenTag.Legible ⟨name, [.blank ' '], .plain⟩ :=
    hname.legible_ofSpellings (List.forall_mem_nil _) (List.forall_mem_singleton.mpr rfl)
  have hread := Token.readAll_source_append hname hlegible (by rw [hraw, Bool.and_false]) rest
  simp only [WrittenTag.source, List.cons_append, List.append_assoc] at hread
  exact hread

/-- An attribute list and the reading of tags agree: the tag has the attributes of the visible
members in their order, and their decoded values are the texts that the members show. -/
theorem readAll_ofMembers (name : Text) (members : List (Text × Json.Value)) (rest : Text)
    (hname : Tag.IsName name) (hraw : Tag.isRawText name = false)
    (hkeys : ∀ member ∈ members, IsKey member.1) :
    Token.readAll ('<' :: (name ++ ' ' :: ((ofMembers members).html ++ '>' :: rest))) =
        .startTag name ((attributes members).map Attribute.lowercase) (Tag.isVoid name) ::
          Token.readAll rest ∧
      ((attributes members).map Attribute.lowercase).map (fun a => a.value.map Text.decode) =
        (members.filter fun member => isVisible member.2).map
          fun (key, value) => shown? key value := by
  constructor
  · by_cases hnone : attributes members = []
    · rw [html_ofMembers_of_attributes_eq_nil hnone, hnone]
      exact readAll_startTag_blank hname hraw rest
    · have hread := Token.readAll_startTag hname (isLegible_attributes hkeys)
        (by rw [hraw, Bool.and_false]) rest
      rw [Node.startTag, ← cons_html_ofMembers hkeys hnone] at hread
      simpa using hread
  · rw [List.map_map, attributes, List.map_map]
    apply List.map_congr_left
    rintro ⟨key, value⟩ -
    cases hshown : shown? key value with
    | none => simp [Attribute.lowercase, hshown]
    | some text => simp [Attribute.lowercase, hshown, Text.decode_escape]

theorem readAll_ofMembers_input :
    Token.readAll ('<' :: ("input".toList ++ ' ' ::
        ((ofMembers [("class".toList, .array [.string "a".toList, .null, .bool true]),
          ("hidden".toList, .bool true), ("x".toList, .null),
          ("Data->".toList, .string "\"b\"".toList)]).html ++ '>' :: "rest".toList))) =
      [.startTag "input".toList
        [⟨"class".toList, some "a true".toList⟩, ⟨"hidden".toList, none⟩,
          ⟨"data-&gt;".toList, some "&quot;b&quot;".toList⟩] true,
        .text "rest".toList] := by
  have hread := (readAll_ofMembers "input".toList
    [("class".toList, .array [.string "a".toList, .null, .bool true]),
      ("hidden".toList, .bool true), ("x".toList, .null),
      ("Data->".toList, .string "\"b\"".toList)]
    "rest".toList (by decide) (by decide) (by simp [IsKey, isBlank])).1
  rw [hread]
  decide +kernel

end Hypertext.AttributeList
