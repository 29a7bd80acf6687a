import Hypertext.Proofs.Scan.Search
import Hypertext.Proofs.Lexeme.StartTag

/-!
# Start tags by offsets

The loop over the attributes of a start tag always moves on: a slash is one byte, and an
attribute takes its first byte into its name whatever that is. The blanks behind a name without
a value are passed over with it, where the lexeme leaves them to the pieces that follow.
-/

namespace Hypertext.Scan

set_option autoImplicit false

variable {s rest t : Text} {c : Char}

theorem stretch_takeWhile (q : Char → Bool) (h : rest <:+ s) :
    stretch s (offset s rest) (offset s (rest.dropWhile q)) = .ok (rest.takeWhile q) := by
  have hsplit := List.takeWhile_append_dropWhile (p := q) (l := rest)
  have hwhole : rest.takeWhile q ++ rest.dropWhile q <:+ s := by rwa [hsplit]
  have hstretch := stretch_offset hwhole
  rwa [hsplit] at hstretch

theorem suffix_of_dropWhile (q : Char → Bool) (h : rest <:+ s) : rest.dropWhile q <:+ s :=
  (List.dropWhile_suffix q).trans h

/-! ## Values -/

theorem takeWhile_eq_upTo (stop : Char) (t : Text) :
    t.takeWhile (fun c => c != stop) = (Text.upTo stop t).1 := by
  induction t with
  | nil => rfl
  | cons c t ih =>
    by_cases hc : c = stop
    · simp [Text.upTo, hc]
    · simp [Text.upTo, hc, ih]

theorem dropWhile_eq_restFrom (stop : Char) (t : Text) :
    t.dropWhile (fun c => c != stop) = restFrom stop t := by
  have hsplit := upTo_append_restFrom stop t
  have htake := List.takeWhile_append_dropWhile (p := fun c => c != stop) (l := t)
  rw [takeWhile_eq_upTo] at htake
  exact List.append_cancel_left (htake.trans hsplit.symm)

theorem tells_ne (hc : IsAscii c) : Tells (fun b => b != c.toUInt8) fun d => d != c := by
  intro d b hb
  exact congrArg Bool.not (beq_toUInt8 hc hb)

theorem tells_endsBareValue :
    Tells (fun b => !(isBlankByte b || b == '>'.toUInt8)) fun d => !(isBlank d || d == '>') := by
  intro d b hb
  dsimp only
  rw [tells_isBlankByte d b hb, beq_toUInt8 (by decide) hb]

theorem byteAt_of_isAscii (hc : IsAscii c) (h : c :: t <:+ s) :
    byteAt s (offset s (c :: t)) = .ok c.toUInt8 := by
  obtain ⟨b, hb, hread⟩ := byteAt_offset h
  rw [utf8EncodeChar_of_isAscii hc, List.mem_singleton] at hb
  rw [hread, hb]

/-- A value with its quotes is over behind the closing one, or else with the text. -/
theorem valueAt_offset (h : rest <:+ s) :
    valueAt s (offset s rest) =
      .ok ((WrittenValue.read (rest.dropWhile isBlank)).1.body,
        offset s (WrittenValue.read (rest.dropWhile isBlank)).2) := by
  have hvalue := suffix_of_dropWhile isBlank h
  rw [valueAt, skipWhile_offset tells_isBlankByte h, ok_bind]
  generalize rest.dropWhile isBlank = value at hvalue
  rw [isAt_offset (by decide) hvalue, ok_bind, isAt_offset (by decide) hvalue, ok_bind]
  cases value with
  | nil =>
    rw [if_neg (by decide), skipWhile_offset tells_endsBareValue hvalue, ok_bind,
      stretch_takeWhile _ hvalue]
    rfl
  | cons c t =>
    by_cases hquote : c = '"' ∨ c = '\''
    · have hc : IsAscii c := by
        rcases hquote with rfl | rfl
        · decide
        · decide
      have ht := suffix_of_cons hvalue
      have hend := min_offset_restFrom hc ht
      rw [if_pos (by simpa using hquote), byteAt_of_isAscii hc hvalue, ok_bind,
        offset_add_one hc hvalue, skipWhile_offset (tells_ne hc) ht, ok_bind,
        stretch_takeWhile _ ht, ok_bind, takeWhile_eq_upTo, dropWhile_eq_restFrom,
        WrittenValue.read, if_pos hquote]
      have hle := offset_le s (restFrom c t)
      have hbehind : (if offset s (restFrom c t) < s.size then offset s (restFrom c t) + 1
          else offset s (restFrom c t)) = offset s (Text.upTo c t).2.2 := by
        rw [← hend]
        split
        · omega
        · omega
      rw [hbehind]
      rfl
    · rw [if_neg (by simpa using hquote), skipWhile_offset tells_endsBareValue hvalue, ok_bind,
        stretch_takeWhile _ hvalue, WrittenValue.read, if_neg hquote]
      rfl

/-! ## Attributes -/

theorem isAscii_or_not_endsAttributeName (h : endsTagName c = false) :
    IsAscii c ∨ (!endsAttributeName c) = true := by
  by_cases hsign : c = '='
  · subst hsign
    exact .inl (by decide)
  · exact .inr (by simp [endsAttributeName, h, hsign])

/-- Reading an attribute goes as far as the lexeme does, and behind the blanks that follow. -/
theorem attributeAt_offset (hc : endsTagName c = false) (h : c :: t <:+ s) :
    ∃ blanks after : Text, (WrittenAttribute.read c t).2 = blanks ++ after ∧ blanks.IsBlank ∧
      attributeAt s (offset s (c :: t)) =
        .ok ((WrittenAttribute.read c t).1.meaning, offset s after) := by
  have hsplit := List.takeWhile_append_dropWhile (p := fun c => !endsAttributeName c) (l := t)
  have hname : (c :: t.takeWhile fun c => !endsAttributeName c) ++
      (t.dropWhile fun c => !endsAttributeName c) <:+ s := by
    rwa [List.cons_append, hsplit]
  have hrest := suffix_of_append hname
  have hstretch := stretch_offset hname
  rw [List.cons_append, hsplit] at hstretch
  have hsign := suffix_of_dropWhile isBlank hrest
  rw [attributeAt, skipWhile_offset_add_one tells_endsAttributeNameByte.not
    (isAscii_or_not_endsAttributeName hc) h, ok_bind, hstretch, ok_bind,
    skipWhile_offset tells_isBlankByte hrest, ok_bind, isAt_offset (by decide) hsign, ok_bind,
    WrittenAttribute.read]
  dsimp only
  split
  · next afterSign heq =>
    rw [heq] at hsign ⊢
    refine ⟨[], _, rfl, by simp [Text.IsBlank], ?_⟩
    rw [List.head?_cons, beq_self_eq_true, if_pos rfl, offset_add_one (by decide) hsign,
      valueAt_offset (suffix_of_cons hsign)]
    rfl
  · next hne =>
    refine ⟨_, _, List.takeWhile_append_dropWhile.symm, fun d hd => List.mem_takeWhile_imp hd, ?_⟩
    rw [if_neg]
    · rfl
    · intro heq
      obtain ⟨afterSign, hafter⟩ := List.head?_eq_some_iff.mp (beq_iff_eq.mp heq)
      exact hne afterSign hafter

/-! ## The loop over the attributes -/

/-- What a loop over attributes has found at the end of the tag. -/
def tagResult (s : Text) (attributes : List Attribute)
    (read : List TagPiece × TagEnding × Text) : TagProgress × Bool :=
  (⟨offset s read.2.2, attributes ++ read.1.filterMap TagPiece.meaning?⟩,
    decide (read.2.1 = .selfClosing))

section TagResult
variable {attributes : List Attribute}

theorem tagResult_blanks {blanks : Text} (h : blanks.IsBlank) (t : Text) :
    tagResult s attributes (TagPiece.readAll (blanks ++ t)) =
      tagResult s attributes (TagPiece.readAll t) := by
  induction blanks with
  | nil => rfl
  | cons c blanks ih =>
    obtain ⟨hc, hblanks⟩ := List.forall_mem_cons.mp h
    rw [List.cons_append, TagPiece.readAll_blank hc, ← ih hblanks]
    rfl

theorem tagResult_slash (h : t.head? ≠ some '>') :
    tagResult s attributes (TagPiece.readAll ('/' :: t)) =
      tagResult s attributes (TagPiece.readAll t) := by
  rw [TagPiece.readAll_slash h]
  rfl

theorem tagResult_attr (h : endsTagName c = false) (t : Text) :
    tagResult s attributes (TagPiece.readAll (c :: t)) =
      tagResult s (attributes ++ [(WrittenAttribute.read c t).1.meaning])
        (TagPiece.readAll (WrittenAttribute.read c t).2) := by
  rw [TagPiece.readAll_attr h, tagResult, tagResult, List.append_assoc]
  rfl

end TagResult

theorem tagResult_dropWhile_isBlank (attributes : List Attribute) (t : Text) :
    tagResult s attributes (TagPiece.readAll (t.dropWhile isBlank)) =
      tagResult s attributes (TagPiece.readAll t) := by
  have hblanks : Text.IsBlank (t.takeWhile isBlank) := fun c hc => List.mem_takeWhile_imp hc
  conv => rhs; rw [← List.takeWhile_append_dropWhile (p := isBlank) (l := t)]
  exact (tagResult_blanks hblanks _).symm

theorem attributePass_nil (h : rest <:+ s) (hnil : rest.dropWhile isBlank = [])
    (attributes : List Attribute) :
    attributePass s ⟨offset s rest, attributes⟩ = .ok (.inr (⟨s.size, attributes⟩, false)) := by
  rw [attributePass, skipWhile_offset tells_isBlankByte h, ok_bind, hnil, offset_nil,
    if_neg (Nat.lt_irrefl _)]
  rfl

section Pass
variable (h : rest <:+ s) (hcons : rest.dropWhile isBlank = c :: t) (attributes : List Attribute)
include h hcons

theorem suffix_of_dropWhile_eq : c :: t <:+ s := by
  rw [← hcons]
  exact suffix_of_dropWhile isBlank h

theorem attributePass_cons :
    ∃ b ∈ String.utf8EncodeChar c, attributePass s ⟨offset s rest, attributes⟩ =
      if b == '>'.toUInt8 then
        .ok (.inr (⟨offset s (c :: t) + 1, attributes⟩, false))
      else if b == '/'.toUInt8 then do
        let ends ← isAt s (offset s (c :: t) + 1) '>'
        return if ends then .inr (⟨offset s (c :: t) + 2, attributes⟩, true)
          else .inl ⟨offset s (c :: t) + 1, attributes⟩
      else do
        let (a, after) ← attributeAt s (offset s (c :: t))
        return .inl ⟨after, attributes ++ [a]⟩ := by
  have hhere := suffix_of_dropWhile_eq h hcons
  obtain ⟨b, hb, hread⟩ := byteAt_offset hhere
  refine ⟨b, hb, ?_⟩
  rw [attributePass, skipWhile_offset tells_isBlankByte h, ok_bind, hcons, if_pos (offset_lt hhere),
    hread]
  rfl

end Pass

theorem suffix_read (c : Char) (t : Text) : (WrittenAttribute.read c t).2 <:+ c :: t :=
  ⟨_, WrittenAttribute.source_read c t⟩

/-- A loop over attributes has come to an offset with what is left, and is to give a result. -/
structure ReadsAttributes (s rest : Text) (tag : TagProgress) (result : TagProgress × Bool) :
    Prop where
  suffix : rest <:+ s
  offset_eq : tag.offset = offset s rest
  result_eq : tagResult s tag.attributes (TagPiece.readAll rest) = result

/-- One pass is at the end of the tag, or else is behind at least one more character and has what
is left of the tag still to be found. -/
theorem ReadsAttributes.pass {tag : TagProgress} {result : TagProgress × Bool}
    (h : ReadsAttributes s rest tag result) :
    attributePass s tag = .ok (.inr result) ∨
      ∃ after next, attributePass s tag = .ok (.inl next) ∧
        ReadsAttributes s after next result ∧ after.length < rest.length := by
  obtain ⟨hsuffix, hoffset, rfl⟩ := h
  obtain ⟨k, attributes⟩ := tag
  obtain rfl : k = offset s rest := hoffset
  rw [← tagResult_dropWhile_isBlank attributes rest]
  rcases hvalue : rest.dropWhile isBlank with _ | ⟨c, t⟩
  · left
    rw [attributePass_nil hsuffix hvalue, TagPiece.readAll]
    simp [tagResult, offset_nil]
  have hhere := suffix_of_dropWhile_eq hsuffix hvalue
  have hnext := suffix_of_cons hhere
  have hlength := (List.dropWhile_suffix isBlank (l := rest)).length_le
  rw [hvalue, List.length_cons] at hlength
  obtain ⟨b, hb, hpass⟩ := attributePass_cons hsuffix hvalue attributes
  rw [beq_toUInt8 (by decide) hb, beq_toUInt8 (by decide) hb] at hpass
  by_cases hend : c = '>'
  · left
    subst hend
    rw [if_pos (by decide), offset_add_one (by decide) hhere] at hpass
    rw [hpass, TagPiece.readAll]
    simp [tagResult]
  by_cases hslash : c = '/'
  · subst hslash
    rw [if_neg (by decide), if_pos (by decide), offset_add_one (by decide) hhere,
      isAt_offset (by decide) hnext, ok_bind] at hpass
    by_cases hgt : t.head? = some '>'
    · left
      obtain ⟨u, rfl⟩ := List.head?_eq_some_iff.mp hgt
      rw [hpass, offset_add_two (by decide) (by decide) hhere, TagPiece.readAll]
      simp [tagResult]
    · right
      rw [if_neg (by simpa using hgt)] at hpass
      exact ⟨t, _, hpass, ⟨hnext, rfl, (tagResult_slash hgt).symm⟩, hlength⟩
  · right
    have hblank : isBlank c = false := by
      apply Text.of_mem_head?_dropWhile (s := rest)
      rw [hvalue]
      rfl
    have hname : endsTagName c = false := by simp [endsTagName, hblank, hslash, hend]
    obtain ⟨blanks, after, hread, hblanks, hattribute⟩ := attributeAt_offset hname hhere
    rw [if_neg (by simpa using hend), if_neg (by simpa using hslash), hattribute,
      ok_bind] at hpass
    have hafter : after <:+ (WrittenAttribute.read c t).2 := by
      rw [hread]
      exact List.suffix_append _ _
    have hshort := hafter.length_le.trans (WrittenAttribute.length_read_le c t)
    refine ⟨after, _, hpass, ⟨(hafter.trans (suffix_read c t)).trans hhere, rfl, ?_⟩, by omega⟩
    rw [tagResult_attr hname, hread, tagResult_blanks hblanks]

theorem attributesFrom_offset (h : rest <:+ s) :
    attributesFrom s (offset s rest) = .ok (tagResult s [] (TagPiece.readAll rest)) := by
  apply loop_of_passes (ReadsAttributes s)
  · exact fun h => ⟨h.suffix, h.offset_eq⟩
  · exact fun h => h.pass
  · exact ⟨h, rfl, rfl⟩

/-! ## Elements -/

theorem textBetween_offset {run after : Text} (h : run ++ after <:+ s) :
    textBetween s (offset s (run ++ after)) (offset s after) = .ok (Token.ofRun run) := by
  rw [textBetween, Token.ofRun]
  by_cases hrun : run = []
  · subst hrun
    exact if_neg (Nat.lt_irrefl (offset s after))
  · rw [if_pos (offset_lt_offset h hrun), stretch_offset h, if_neg hrun]
    rfl

theorem offset_add_offset (h : rest <:+ s) (hafter : t <:+ rest) :
    offset s rest + offset rest t = offset s t := by
  have hsize := size_le_of_suffix h
  have hless := size_le_of_suffix hafter
  unfold offset
  omega

theorem isAscii_of_isRawText {name : Text} (h : Tag.isRawText name = true) :
    ∀ c ∈ name, IsAscii c := by
  have hnames : ∀ name ∈ Tag.rawTextNames, ∀ c ∈ name, IsAscii c := by
    simp [Tag.rawTextNames, IsAscii]
  exact hnames name (of_decide_eq_true h)

theorem rawTextAt_offset {name : Text} (hname : ∀ c ∈ name, IsAscii c) (h : rest <:+ s) :
    rawTextAt s name (offset s rest) =
      .ok (match cutCloseTag? name rest with
        | some (content, _, after) => (Token.ofRun content ++ [.endTag name], offset s after)
        | none => (Token.ofRun rest ++ [.endTag name], s.size)) := by
  rw [rawTextAt, tail_offset h, ok_bind, findCloseTag_eq hname, ok_bind]
  rcases hcut : cutCloseTag? name rest with _ | ⟨content, close, after⟩
  · have hwhole : rest ++ [] <:+ s := by rwa [List.append_nil]
    have hcontent := textBetween_offset hwhole
    rw [List.append_nil, offset_nil] at hcontent
    rw [Option.map_none, hcontent]
    rfl
  · obtain rfl := eq_of_cutCloseTag?_eq_some hcut
    have hclose : close ++ after <:+ content ++ (close ++ after) := List.suffix_append _ _
    have hafter : after <:+ content ++ (close ++ after) := suffix_of_append hclose
    rw [Option.map_some, closeTagOffsets]
    dsimp only
    rw [offset_add_offset h hclose, offset_add_offset h hafter, textBetween_offset h]
    rfl

theorem startTagAt_offset (h : '<' :: t <:+ s) :
    startTagAt s (offset s ('<' :: t)) =
      .ok ((Lexeme.readElement t).1.tokens, offset s (Lexeme.readElement t).2) := by
  have ht := suffix_of_cons h
  have hrest := suffix_of_dropWhile (fun c => !endsTagName c) ht
  have hafter : (WrittenTag.read t).2 <:+ s := by
    rw [← WrittenTag.source_read t] at h
    exact suffix_of_append h
  rw [startTagAt, offset_add_one (by decide) h, skipWhile_offset tells_endsTagNameByte.not ht,
    ok_bind, stretch_takeWhile _ ht, ok_bind, attributesFrom_offset hrest, ok_bind,
    Lexeme.readElement]
  change (if (WrittenTag.read t).1.opensRawText then do
      let found ← rawTextAt s (WrittenTag.read t).1.element (offset s (WrittenTag.read t).2)
      return ((WrittenTag.read t).1.token :: found.1, found.2)
    else return ([(WrittenTag.read t).1.token], offset s (WrittenTag.read t).2)) = _
  by_cases hraw : (WrittenTag.read t).1.opensRawText = true
  · have hname : Tag.isRawText (WrittenTag.read t).1.element = true := by
      rw [WrittenTag.opensRawText, Bool.and_eq_true] at hraw
      exact hraw.2
    rw [if_pos hraw, if_pos hraw, rawTextAt_offset (isAscii_of_isRawText hname) hafter, ok_bind]
    rcases cutCloseTag? (WrittenTag.read t).1.element (WrittenTag.read t).2 with _ | ⟨_, _, _⟩
    · rfl
    · rfl
  · rw [if_neg hraw, if_neg hraw]
    rfl

end Hypertext.Scan
