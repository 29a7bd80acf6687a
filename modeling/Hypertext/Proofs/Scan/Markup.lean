import Hypertext.Proofs.Lexeme.Read
import Hypertext.Proofs.Scan.StartTag

/-!
# Markup by offsets

What starts at a `<` is read by offsets as the lexeme there means, and reading goes on where the
lexeme is over. One byte behind the `<` tells which kind of markup it is, if any.
-/

namespace Hypertext.Scan

set_option autoImplicit false

variable {s t : Text} {c : Char}

/-! ## End tags -/

theorem endTagAt_offset (h : '<' :: '/' :: t <:+ s) :
    endTagAt s (offset s ('<' :: '/' :: t)) =
      .ok ((Lexeme.readEndTag t).1.tokens, offset s (Lexeme.readEndTag t).2) := by
  have ht := suffix_of_cons (suffix_of_cons h)
  have hrest := suffix_of_dropWhile (fun c => !endsTagName c) ht
  rw [endTagAt, offset_add_two (by decide) (by decide) h,
    skipWhile_offset tells_endsTagNameByte.not ht, ok_bind, stretch_takeWhile _ ht, ok_bind,
    findFrom_offset _ hrest, ok_bind, min_offset_restFrom (by decide) hrest]
  rfl

/-! ## Declarations -/

theorem upTo_cons_of_ne {stop : Char} (hc : c ≠ stop) (t : Text) :
    Text.upTo stop (c :: t) = (c :: (Text.upTo stop t).1, (Text.upTo stop t).2) := by
  rw [Text.upTo, if_neg hc]

/-- A word that holds no `stop` begins a text where it begins what stands before the `stop`. -/
theorem lowercase_take_upTo_iff {stop : Char} {word : Text} (hstop : stop.isAlpha = false)
    (hword : stop ∉ word) (t : Text) :
    Text.lowercase ((Text.upTo stop t).1.take word.length) = word.lowercase ↔
      Text.lowercase (t.take word.length) = word.lowercase := by
  have hwhole := Text.upTo_eq stop t
  cases hfound : (Text.upTo stop t).2.1 with
  | false =>
    rw [hfound, Text.upTo_not_found t hfound] at hwhole
    simp only [Text.closing, Bool.false_eq_true, if_false, List.append_nil] at hwhole
    rw [hwhole]
  | true =>
    rw [hfound] at hwhole
    simp only [Text.closing, if_true, List.singleton_append] at hwhole
    have hiff : word.length ≤ (Text.upTo stop t).1.length →
        t.take word.length = (Text.upTo stop t).1.take word.length := by
      intro hle
      conv => lhs; rw [← hwhole]
      exact List.take_append_of_le_length hle
    constructor
    · intro h
      rw [hiff, h]
      have hlength := congrArg List.length h
      simp only [Text.lowercase, List.length_map, List.length_take] at hlength
      omega
    · intro h
      rw [← hiff, h]
      rw [← hwhole] at h
      exact length_le_of_lowercase_take hstop hword h

theorem doctype_iff (mark : Char) (hmark : mark = '!' ∨ mark = '?') (t : Text) :
    Text.lowercase (('<' :: mark :: t).take 9) = Text.lowercase "<!doctype" ↔
      mark = '!' ∧ Text.lowercase ((Text.upTo '>' t).1.take 7) = "doctype".toList := by
  have hword : Text.lowercase ((Text.upTo '>' t).1.take "doctype".toList.length) =
      Text.lowercase "doctype" ↔
        Text.lowercase (t.take "doctype".toList.length) = Text.lowercase "doctype" :=
    lowercase_take_upTo_iff (by decide) (by decide) t
  have hlower : Text.lowercase "doctype" = "doctype".toList := by decide
  have hlength : "doctype".toList.length = 7 := by decide
  rw [hlength, hlower] at hword
  rw [hword]
  rcases hmark with rfl | rfl
  · simp [Text.lowercase]
  · simp [Text.lowercase]

theorem isAscii_doctype : ∀ c ∈ "<!doctype".toList, IsAscii c := by
  simp [IsAscii]

theorem declarationAt_offset {mark : Char} (hmark : mark = '!' ∨ mark = '?')
    (h : '<' :: mark :: t <:+ s) :
    declarationAt s (offset s ('<' :: mark :: t)) =
      .ok ((Lexeme.readDeclaration mark t).1.tokens,
        offset s (Lexeme.readDeclaration mark t).2) := by
  have ht := suffix_of_cons (suffix_of_cons h)
  have hascii : IsAscii mark := by
    rcases hmark with rfl | rfl
    · decide
    · decide
  have hne : mark ≠ '>' := by
    rcases hmark with rfl | rfl
    · decide
    · decide
  have hrest : restFrom '>' ('<' :: mark :: t) = restFrom '>' t := by
    simp only [restFrom, upTo_cons_of_ne (show '<' ≠ '>' by decide), upTo_cons_of_ne hne]
  have hsplit := upTo_append_restFrom '>' t
  have hbody : (Text.upTo '>' t).1 ++ restFrom '>' t <:+ s := by rwa [hsplit]
  have hstretch := stretch_offset hbody
  rw [hsplit] at hstretch
  rw [declarationAt, findFrom_offset _ h, ok_bind, hrest,
    offset_add_two (by decide) hascii h, hstretch, ok_bind,
    beginsAt_offset isAscii_doctype h, ok_bind, min_offset_restFrom (by decide) ht]
  have hlength : "<!doctype".toList.length = 9 := by decide
  rw [hlength]
  simp only [decide_eq_true_eq, doctype_iff mark hmark, Lexeme.readDeclaration, Lexeme.tokens]
  rfl

/-! ## Comments -/

theorem commentAt_offset (h : '<' :: '!' :: '-' :: '-' :: t <:+ s) :
    commentAt s (offset s ('<' :: '!' :: '-' :: '-' :: t)) =
      .ok ((Lexeme.readComment t).1.tokens, offset s (Lexeme.readComment t).2) := by
  have hdashes := suffix_of_cons (suffix_of_cons h)
  have ht := suffix_of_cons (suffix_of_cons hdashes)
  have hstart : offset s ('<' :: '!' :: '-' :: '-' :: t) + 4 = offset s t := by
    rw [← offset_add_two (by decide) (by decide) hdashes,
      ← offset_add_two (by decide) (by decide) h]
  have hread : tail s (offset s ('<' :: '!' :: '-' :: '-' :: t) + 4) = .ok t := by
    rw [hstart, tail_offset ht]
  unfold Lexeme.readComment
  split
  · next rest =>
    rw [commentAt, hread, hstart, ok_bind, if_pos (by simp), offset_add_one (by decide) ht]
    rfl
  · next rest =>
    rw [commentAt, hread, hstart, ok_bind, if_neg (by simp), if_pos (by simp),
      offset_add_two (by decide) (by decide) ht]
    rfl
  · next hend harrow =>
    have hnotEnd : ¬ List.isPrefixOf ['>'] t = true := by
      rw [List.isPrefixOf_iff_prefix]
      rintro ⟨u, rfl⟩
      exact hend u rfl
    have hnotArrow : ¬ List.isPrefixOf ['-', '>'] t = true := by
      rw [List.isPrefixOf_iff_prefix]
      rintro ⟨u, rfl⟩
      exact harrow u rfl
    rw [commentAt, hread, hstart, ok_bind, if_neg hnotEnd, if_neg hnotArrow, find?]
    cases hcut : Text.cut? "-->" t with
    | none => rfl
    | some cut =>
      obtain ⟨body, rest⟩ := cut
      have hwhole : body ++ ("-->".toList ++ rest) = t := Text.eq_of_cut?_eq_some hcut
      subst hwhole
      have hmark := offset_add_size (suffix_of_append ht)
      rw [Option.map_some]
      dsimp only
      rw [offset_add_size ht, stretch_offset ht, ← hmark]
      rfl

/-! ## Any markup -/

theorem isAlphaByte_toUInt8 (hc : IsAscii c) : isAlphaByte c.toUInt8 = c.isAlpha := by
  apply forall_isAscii (P := fun c => isAlphaByte c.toUInt8 = c.isAlpha) _ hc
  decide +kernel

theorem tells_isAlphaByte : Tells isAlphaByte Char.isAlpha := by
  intro c b hb
  by_cases hc : IsAscii c
  · rw [utf8EncodeChar_of_isAscii hc, List.mem_singleton] at hb
    rw [hb, isAlphaByte_toUInt8 hc]
  · rw [isAlphaByte_eq_false (le_of_mem_utf8EncodeChar hc hb), eq_comm, ← Bool.not_eq_true]
    exact mt isAscii_of_isAlpha hc

theorem map_ok {α β : Type} (f : α → β) (a : α) :
    (f <$> Except.ok a : Except Fault β) = .ok (f a) := rfl

/-- The byte behind a `<` is the first one of the character there. -/
theorem markupAt?_offset (h : '<' :: t <:+ s) :
    markupAt? s (offset s ('<' :: t)) =
      .ok (if Lexeme.startsMarkup ('<' :: t) then
        some ((Lexeme.readMarkup t).1.tokens, offset s (Lexeme.readMarkup t).2) else none) := by
  have ht := suffix_of_cons h
  rw [markupAt?, offset_add_one (by decide) h, getElem?_bytes ht, tail_offset h, ok_bind]
  cases t with
  | nil => rfl
  | cons c t =>
    obtain ⟨b, later, hbytes, hfirst⟩ := bytes_cons_eq c t
    have hb : b ∈ String.utf8EncodeChar c := by simp [hfirst]
    have hbyte : ∀ d, IsAscii d → (some b = some d.toUInt8 ↔ c = d) := by
      intro d hd
      rw [Option.some.injEq, ← beq_iff_eq, beq_toUInt8 hd hb, beq_iff_eq]
    rw [hbytes, List.head?_cons, Option.any_some, tells_isAlphaByte c b hb]
    simp only [hbyte '!' (by decide), hbyte '?' (by decide), hbyte '/' (by decide)]
    by_cases hcomment : List.isPrefixOf ['<', '!', '-', '-'] ('<' :: c :: t) = true
    · obtain ⟨u, hu⟩ := List.isPrefixOf_iff_prefix.mp hcomment
      obtain ⟨rfl, rfl⟩ : '!' = c ∧ '-' :: '-' :: u = t := by simpa using hu
      rw [if_pos hcomment, commentAt_offset h]
      rfl
    rw [if_neg hcomment]
    by_cases hmark : c = '!' ∨ c = '?'
    · have hread : Lexeme.readMarkup (c :: t) = Lexeme.readDeclaration c t := by
        rcases hmark with rfl | rfl
        · apply Lexeme.readMarkup_bang
          rintro u rfl
          exact hcomment rfl
        · rfl
      have hstart : Lexeme.startsMarkup ('<' :: c :: t) = true := by
        rcases hmark with rfl | rfl
        · rfl
        · rfl
      rw [if_pos hmark, declarationAt_offset hmark h, if_pos hstart, hread, map_ok]
    rw [if_neg hmark]
    by_cases hslash : c = '/'
    · subst hslash
      rw [if_pos rfl, endTagAt_offset h]
      rfl
    rw [if_neg hslash]
    by_cases halpha : c.isAlpha = true
    · rw [if_pos halpha, startTagAt_offset h, if_pos (Lexeme.startsMarkup_of_isAlpha halpha t),
        Lexeme.readMarkup_of_isAlpha halpha, map_ok]
    · obtain ⟨hbang, hquestion⟩ := not_or.mp hmark
      have hstart : ¬ Lexeme.startsMarkup ('<' :: c :: t) = true := by
        simp [Lexeme.startsMarkup, hbang, hquestion, hslash, halpha]
      rw [if_neg halpha, if_neg hstart]
      rfl

end Hypertext.Scan
