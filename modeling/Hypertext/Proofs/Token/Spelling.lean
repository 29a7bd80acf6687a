import Hypertext.Proofs.Token.TextPosition

/-!
# Spellings of start tags

One start tag can be written in many ways: names in any letter case, any blanks before the
attributes, around `=` and at the end, values between quotes of either kind or bare, and the
end with a slash or without. Each of them is read as the token it stands for, and reading goes
on behind it.
-/

namespace Hypertext

set_option autoImplicit false

/-! ## Attributes -/

/-- A value that shows where it ends: quoted with both its quotes, or bare and not empty. -/
def WrittenValue.IsWhole : WrittenValue → Prop
  | .quoted quote body closed => isQuote quote = true ∧ quote ∉ body ∧ closed = true
  | .bare body =>
    body ≠ [] ∧ (∀ c ∈ body, endsBareValue c = false) ∧ ∀ c ∈ body.head?, isQuote c = false

structure Assignment.IsWhole (a : Assignment) : Prop where
  before : a.before.IsBlank
  after : a.after.IsBlank
  value : a.value.IsWhole

structure WrittenAttribute.IsWhole (a : WrittenAttribute) : Prop where
  name_ne_nil : a.name ≠ []
  not_endsAttributeName : ∀ c ∈ a.name, endsAttributeName c = false
  assignment : ∀ assignment ∈ a.assignment, assignment.IsWhole

/-- The attribute ends with a value without quotes, so a slash behind it would belong to it. -/
def WrittenAttribute.EndsBare (a : WrittenAttribute) : Prop :=
  ∃ assignment ∈ a.assignment, ∃ body, assignment.value = .bare body

theorem WrittenAttribute.IsWhole.legibleBefore {a : WrittenAttribute} (h : a.IsWhole)
    {following : Text} (hends : ∀ c ∈ following.head?, endsTagName c = true)
    (hsign : (following.dropWhile isBlank).head? ≠ some '=')
    (hslash : a.EndsBare → following.head? ≠ some '/') : a.LegibleBefore following := by
  obtain ⟨hne, hname, hassignment⟩ := h
  obtain ⟨c, rest, hcons⟩ := List.exists_cons_of_ne_nil hne
  rw [hcons, List.forall_mem_cons] at hname
  obtain ⟨hc, hrest⟩ := hname
  refine ⟨⟨c, rest, hcons, (of_not_endsAttributeName hc).1, hrest⟩, ?_⟩
  cases hvalue : a.assignment with
  | none => exact ⟨fun d hd => by simp [endsAttributeName, hends d hd], hsign⟩
  | some assignment =>
    obtain ⟨hbefore, hafter, hwhole⟩ := hassignment assignment hvalue
    refine ⟨hbefore, hafter, ?_⟩
    cases hbody : assignment.value with
    | quoted quote body closed =>
      rw [hbody] at hwhole
      obtain ⟨hquote, hnot, rfl⟩ := hwhole
      exact ⟨hquote, hnot, by simp⟩
    | bare body =>
      rw [hbody] at hwhole
      obtain ⟨hne, hinside, hstart⟩ := hwhole
      refine ⟨hinside, hstart, ?_, fun hnil => absurd hnil hne⟩
      intro d hd
      have hnot : d ≠ '/' := by
        rintro rfl
        exact hslash ⟨assignment, hvalue, body, hbody⟩ hd
      simpa [endsTagName, endsBareValue, hnot] using hends d hd

/-- An attribute of a start tag with the blanks before it. -/
structure AttributeSpelling where
  gap : Text
  written : WrittenAttribute
  deriving DecidableEq, Repr

def AttributeSpelling.source (a : AttributeSpelling) : Text :=
  a.gap ++ a.written.source

structure AttributeSpelling.IsWhole (a : AttributeSpelling) : Prop where
  gap_ne_nil : a.gap ≠ []
  gap : a.gap.IsBlank
  written : a.written.IsWhole

namespace TagPiece

/-- What stands in a start tag between its name and its end: attributes and last blanks. -/
def ofSpellings (attributes : List AttributeSpelling) (gap : Text) : List TagPiece :=
  attributes.flatMap (fun a => a.gap.map blank ++ [attr a.written]) ++ gap.map blank

variable {attributes : List AttributeSpelling} {gap blanks : Text} {ending : TagEnding}

theorem ofSpellings_cons (a : AttributeSpelling) (attributes : List AttributeSpelling)
    (gap : Text) :
    ofSpellings (a :: attributes) gap =
      a.gap.map blank ++ attr a.written :: ofSpellings attributes gap := by
  simp [ofSpellings]

theorem writtenAll_blank_append (blanks : Text) (pieces : List TagPiece) (ending : TagEnding) :
    writtenAll (blanks.map blank ++ pieces) ending = blanks ++ writtenAll pieces ending := by
  induction blanks with
  | nil => rfl
  | cons c blanks ih => rw [List.map_cons, List.cons_append, writtenAll_cons, ih]; rfl

theorem legible_blank_append (h : blanks.IsBlank) {pieces : List TagPiece}
    (hpieces : Legible ending pieces) : Legible ending (blanks.map blank ++ pieces) := by
  induction blanks with
  | nil => exact hpieces
  | cons c blanks ih =>
    obtain ⟨hc, hblanks⟩ := List.forall_mem_cons.mp h
    exact ⟨hc, ih hblanks⟩

theorem writtenAll_ofSpellings_nil (gap : Text) (ending : TagEnding) :
    writtenAll (ofSpellings [] gap) ending = gap ++ ending.source := by
  have hwritten := writtenAll_blank_append gap [] ending
  simpa [ofSpellings, writtenAll] using hwritten

theorem writtenAll_ofSpellings_cons (a : AttributeSpelling) (attributes : List AttributeSpelling)
    (gap : Text) (ending : TagEnding) :
    writtenAll (ofSpellings (a :: attributes) gap) ending =
      a.gap ++ (a.written.source ++ writtenAll (ofSpellings attributes gap) ending) := by
  rw [ofSpellings_cons, writtenAll_blank_append, writtenAll_cons]
  rfl

theorem writtenAll_ofSpellings (attributes : List AttributeSpelling) (gap : Text)
    (ending : TagEnding) :
    writtenAll (ofSpellings attributes gap) ending =
      attributes.flatMap AttributeSpelling.source ++ (gap ++ ending.source) := by
  induction attributes with
  | nil => exact writtenAll_ofSpellings_nil gap ending
  | cons a attributes ih =>
    rw [writtenAll_ofSpellings_cons, ih, List.flatMap_cons, AttributeSpelling.source]
    simp only [List.append_assoc]

/-- Blanks or the end of the tag follow, and a slash only if it is at once that of the end. -/
theorem head?_writtenAll_ofSpellings (hattributes : ∀ a ∈ attributes, a.IsWhole)
    (hgap : gap.IsBlank) (hending : ending ≠ .missing) {c : Char}
    (hc : c ∈ (writtenAll (ofSpellings attributes gap) ending).head?) :
    isBlank c = true ∨ c = '>' ∨
      c = '/' ∧ attributes = [] ∧ gap = [] ∧ ending = .selfClosing := by
  cases attributes with
  | nil =>
    rw [writtenAll_ofSpellings_nil] at hc
    cases gap with
    | nil =>
      cases ending with
      | plain => exact .inr (.inl (by simpa [TagEnding.source] using hc.symm))
      | selfClosing => exact .inr (.inr ⟨by simpa [TagEnding.source] using hc.symm, rfl, rfl, rfl⟩)
      | missing => exact absurd rfl hending
    | cons d gap =>
      obtain rfl : d = c := by simpa using hc
      exact .inl (hgap d List.mem_cons_self)
  | cons a attributes =>
    obtain ⟨hne, hblank, -⟩ := hattributes a List.mem_cons_self
    obtain ⟨d, rest, hcons⟩ := List.exists_cons_of_ne_nil hne
    rw [writtenAll_ofSpellings_cons, hcons] at hc
    obtain rfl : d = c := by simpa using hc
    exact .inl (hblank d (by rw [hcons]; exact List.mem_cons_self))

theorem endsTagName_of_mem_head?_writtenAll_ofSpellings
    (hattributes : ∀ a ∈ attributes, a.IsWhole) (hgap : gap.IsBlank)
    (hending : ending ≠ .missing) :
    ∀ c ∈ (writtenAll (ofSpellings attributes gap) ending).head?, endsTagName c = true := by
  intro c hc
  rcases head?_writtenAll_ofSpellings hattributes hgap hending hc with hblank | rfl | ⟨rfl, -⟩
  · simp [endsTagName, hblank]
  · rfl
  · rfl

/-- Behind the blanks comes the name of an attribute or the end of the tag, but no `=`. -/
theorem head?_dropWhile_writtenAll_ofSpellings (hattributes : ∀ a ∈ attributes, a.IsWhole)
    (hgap : gap.IsBlank) (hending : ending ≠ .missing) :
    ((writtenAll (ofSpellings attributes gap) ending).dropWhile isBlank).head? ≠ some '=' := by
  cases attributes with
  | nil =>
    rw [writtenAll_ofSpellings_nil, List.dropWhile_append_of_pos hgap]
    cases ending with
    | plain => decide
    | selfClosing => decide
    | missing => exact absurd rfl hending
  | cons a attributes =>
    obtain ⟨-, hblank, ⟨hne, hname, -⟩⟩ := hattributes a List.mem_cons_self
    obtain ⟨c, rest, hcons⟩ := List.exists_cons_of_ne_nil hne
    obtain ⟨hend, hsign⟩ := of_not_endsAttributeName (hname c (by simp [hcons]))
    have hnot := (not_isBlank_of_not_endsTagName hend).1
    rw [writtenAll_ofSpellings_cons, List.dropWhile_append_of_pos hblank, WrittenAttribute.source,
      hcons, List.cons_append, List.cons_append, List.dropWhile_cons_of_neg (by simp [hnot])]
    simpa using hsign

theorem legible_ofSpellings (hattributes : ∀ a ∈ attributes, a.IsWhole) (hgap : gap.IsBlank)
    (hending : ending ≠ .missing)
    (hslash : ending = .selfClosing → (∃ a ∈ attributes.getLast?, a.written.EndsBare) → gap ≠ []) :
    Legible ending (ofSpellings attributes gap) := by
  induction attributes with
  | nil =>
    have hlegible := @legible_blank_append gap ending hgap [] trivial
    simpa [ofSpellings] using hlegible
  | cons a attributes ih =>
    obtain ⟨ha, hrest⟩ := List.forall_mem_cons.mp hattributes
    rw [ofSpellings_cons]
    apply legible_blank_append ha.gap
    constructor
    · apply ha.written.legibleBefore
      · exact endsTagName_of_mem_head?_writtenAll_ofSpellings hrest hgap hending
      · exact head?_dropWhile_writtenAll_ofSpellings hrest hgap hending
      · intro hbare hhead
        rcases head?_writtenAll_ofSpellings hrest hgap hending hhead with hblank | hgt | hend
        · cases hblank
        · cases hgt
        · obtain ⟨-, rfl, rfl, hself⟩ := hend
          exact hslash hself ⟨a, rfl, hbare⟩ rfl
    · apply ih hrest
      rintro hself ⟨last, hlast, hbare⟩
      apply hslash hself
      cases attributes with
      | nil => cases hlast
      | cons next attributes => exact ⟨last, by rwa [List.getLast?_cons_cons], hbare⟩

theorem meaning_ofSpellings (attributes : List AttributeSpelling) (gap : Text) :
    (ofSpellings attributes gap).filterMap meaning? =
      attributes.map fun a => a.written.meaning := by
  have hblanks : ∀ blanks : Text, (blanks.map blank).filterMap meaning? = [] := by
    intro blanks
    rw [List.filterMap_map, List.filterMap_eq_nil_iff]
    exact fun _ _ => rfl
  induction attributes with
  | nil => exact hblanks gap
  | cons a attributes ih =>
    have hmeaning : meaning? (attr a.written) = some a.written.meaning := rfl
    rw [ofSpellings_cons, List.filterMap_append, hblanks, List.nil_append,
      List.filterMap_cons_some hmeaning, ih, List.map_cons]

end TagPiece

/-! ## Tags -/

theorem Token.readAll_tag {tag : WrittenTag} (h : tag.Legible) (hending : tag.ending ≠ .missing)
    (hraw : tag.opensRawText = false) (rest : Text) :
    readAll (tag.source ++ rest) = tag.token :: readAll rest :=
  readAll_of_read? (Lexeme.settled_startTag h hending hraw rest)

/-- A start tag as written, with the blanks before its end. -/
structure TagSpelling where
  name : Text
  attributes : List AttributeSpelling
  gap : Text
  selfClosing : Bool
  deriving DecidableEq, Repr

namespace TagSpelling
variable {tag : TagSpelling}

def ending (tag : TagSpelling) : TagEnding :=
  if tag.selfClosing then .selfClosing else .plain

def source (tag : TagSpelling) : Text :=
  '<' :: (tag.name ++ (tag.attributes.flatMap AttributeSpelling.source ++
    (tag.gap ++ tag.ending.source)))

/-- A blank is between a bare value and the slash at the end, if there are both. -/
structure IsWhole (tag : TagSpelling) : Prop where
  name_isAlpha : ∃ c ∈ tag.name.head?, c.isAlpha = true
  not_endsTagName : ∀ c ∈ tag.name, endsTagName c = false
  attributes : ∀ a ∈ tag.attributes, a.IsWhole
  gap : tag.gap.IsBlank
  gap_ne_nil : tag.selfClosing = true →
    (∃ a ∈ tag.attributes.getLast?, a.written.EndsBare) → tag.gap ≠ []

def written (tag : TagSpelling) : WrittenTag :=
  ⟨tag.name, TagPiece.ofSpellings tag.attributes tag.gap, tag.ending⟩

theorem source_written (tag : TagSpelling) : tag.written.source = tag.source := by
  rw [WrittenTag.source_eq, source, written, TagPiece.writtenAll_ofSpellings]

theorem ending_ne_missing (tag : TagSpelling) : tag.ending ≠ .missing := by
  rw [ending]
  split <;> simp

theorem IsWhole.legible (h : tag.IsWhole) : tag.written.Legible := by
  obtain ⟨⟨c, hc, halpha⟩, hname, hattributes, hgap, hslash⟩ := h
  constructor
  · intro d hd
    obtain rfl : c = d := Option.some.inj (hc.symm.trans hd)
    exact halpha
  · intro (hnil : tag.name = [])
    rw [hnil] at hc
    cases hc
  · exact hname
  · exact TagPiece.endsTagName_of_mem_head?_writtenAll_ofSpellings hattributes hgap
      tag.ending_ne_missing
  · apply TagPiece.legible_ofSpellings hattributes hgap tag.ending_ne_missing
    intro hself
    apply hslash
    by_contra hplain
    simp [ending, hplain] at hself

theorem isSelfClosing_written (tag : TagSpelling) :
    tag.written.isSelfClosing = (tag.selfClosing || Tag.isVoid tag.name.lowercase) := by
  have hending : decide (tag.ending = .selfClosing) = tag.selfClosing := by
    cases hself : tag.selfClosing with
    | false => simp [ending, hself]
    | true => simp [ending, hself]
  rw [← hending]
  rfl

/-- Every spelling of a start tag is read as the token it stands for: the names in lower case
and the values as they are. Raw text follows only a tag that is not self-closing. -/
theorem readAll_spelling (tag : TagSpelling) (rest : Text) (h : tag.IsWhole)
    (hraw : Tag.isRawText tag.name.lowercase = false ∨ tag.selfClosing = true) :
    Token.readAll (tag.source ++ rest) =
      .startTag tag.name.lowercase
          (tag.attributes.map fun a => ⟨a.written.name.lowercase,
            a.written.assignment.map fun assignment => assignment.value.body⟩)
          (tag.selfClosing || Tag.isVoid tag.name.lowercase) ::
        Token.readAll rest := by
  have hopens : tag.written.opensRawText = false := by
    rw [WrittenTag.opensRawText, isSelfClosing_written]
    rcases hraw with hraw | hself
    · have helement : Tag.isRawText tag.written.element = false := hraw
      rw [helement, Bool.and_false]
    · rw [hself]
      rfl
  have hread := Token.readAll_tag h.legible tag.ending_ne_missing hopens rest
  rw [source_written, WrittenTag.token, isSelfClosing_written, written,
    TagPiece.meaning_ofSpellings] at hread
  exact hread

theorem readAll_spelling_title :
    Token.readAll "<Title HIDDEN\tx = 'a>\"' y=b/ />c".toList =
      [.startTag "title".toList
        [⟨"hidden".toList, none⟩, ⟨"x".toList, some "a>\"".toList⟩, ⟨"y".toList, some "b/".toList⟩]
        true,
        .text "c".toList] := by
  have hhidden : AttributeSpelling.IsWhole ⟨" ".toList, "HIDDEN".toList, none⟩ :=
    ⟨by decide, by decide, by decide, by simp [endsAttributeName, endsTagName, isBlank], by simp⟩
  have hquoted : AttributeSpelling.IsWhole
      ⟨"\t".toList, "x".toList, some ⟨" ".toList, " ".toList, .quoted '\'' "a>\"".toList true⟩⟩ := by
    refine ⟨by decide, by decide, by decide, by simp [endsAttributeName, endsTagName, isBlank], ?_⟩
    rintro _ ⟨⟩
    exact ⟨by decide, by decide, by decide, by decide, rfl⟩
  have hbare : AttributeSpelling.IsWhole
      ⟨" ".toList, "y".toList, some ⟨[], [], .bare "b/".toList⟩⟩ := by
    refine ⟨by decide, by decide, by decide, by simp [endsAttributeName, endsTagName, isBlank], ?_⟩
    rintro _ ⟨⟩
    refine ⟨by decide, by decide, by decide, by simp [endsBareValue, isBlank], ?_⟩
    rintro _ ⟨⟩
    rfl
  have hwhole : IsWhole ⟨"Title".toList,
      [⟨" ".toList, "HIDDEN".toList, none⟩,
        ⟨"\t".toList, "x".toList, some ⟨" ".toList, " ".toList, .quoted '\'' "a>\"".toList true⟩⟩,
        ⟨" ".toList, "y".toList, some ⟨[], [], .bare "b/".toList⟩⟩], " ".toList, true⟩ := by
    constructor
    · exact ⟨'T', rfl, by decide⟩
    · simp [endsTagName, isBlank]
    · simpa only [List.forall_mem_cons] using ⟨hhidden, hquoted, hbare, List.forall_mem_nil _⟩
    · decide
    · intro _ _
      decide
  have hread := readAll_spelling _ "c".toList hwhole (.inr rfl)
  exact hread.trans (by decide +kernel)

end TagSpelling

end Hypertext
