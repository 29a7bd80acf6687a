import Hypertext.Proofs.Scan.Markup
import Hypertext.Proofs.Token.TextPosition

/-!
# No fault

The loop over the markup of a text keeps three things: an offset at which reading goes on, the
offset at which the text since the last markup starts, and the tokens so far. Each pass leaves
the tokens still to come as they are and moves on by a character at least. So reading by offsets
comes to an end without a fault, and with the tokens of the lexemes.
-/

namespace Hypertext.Scan

set_option autoImplicit false

variable {s pending rest : Text}

/-- The tokens still to come when a text is read up to `rest`, and `pending` is not yet one. -/
def remaining (pending rest : Text) : List Token :=
  Token.ofRun (pending ++ (Lexeme.readRun rest).1) ++ Token.readAll (Lexeme.readRun rest).2

theorem remaining_nil (rest : Text) : remaining [] rest = Token.readAll rest :=
  (Token.readAll_eq_readRun rest).symm

theorem remaining_of_notMem (h : '<' ∉ rest) :
    remaining pending rest = Token.ofRun (pending ++ rest) := by
  have hread := Lexeme.readRun_append (Lexeme.isRun_of_notMem h) []
  rw [List.append_nil] at hread
  rw [remaining, hread]
  simp [Lexeme.readRun, Token.readAll_nil]

/-- Text in front of a `<` only waits. -/
theorem remaining_append {before : Text} (h : '<' ∉ before) (rest : Text) :
    remaining pending (before ++ rest) = remaining (pending ++ before) rest := by
  rw [remaining, Lexeme.readRun_append (Lexeme.isRun_of_notMem h), remaining, List.append_assoc]

theorem remaining_cons {t : Text} {c : Char} (h : Lexeme.startsMarkup (c :: t) = false) :
    remaining pending (c :: t) = remaining (pending ++ [c]) t := by
  rw [remaining, Lexeme.readRun, if_neg (Bool.eq_false_iff.mp h), remaining, List.append_assoc]
  rfl

theorem remaining_markup {t : Text} (h : Lexeme.startsMarkup ('<' :: t) = true) :
    remaining pending ('<' :: t) = Token.ofRun pending ++
      ((Lexeme.readMarkup t).1.tokens ++ remaining [] (Lexeme.readMarkup t).2) := by
  rw [remaining, Lexeme.readRun_of_startsMarkup h, List.append_nil, Token.readAll_markup h,
    remaining_nil]

theorem suffix_readMarkup (t : Text) : (Lexeme.readMarkup t).2 <:+ '<' :: t :=
  ⟨_, Lexeme.source_readMarkup t⟩

theorem length_readMarkup_lt (t : Text) : (Lexeme.readMarkup t).2.length < ('<' :: t).length := by
  have hlength := congrArg List.length (Lexeme.source_readMarkup t)
  have hpos := List.length_pos_iff.mpr (Lexeme.source_readMarkup_ne_nil t)
  rw [List.length_append] at hlength
  omega

/-- The loop has come to an offset with what is left, and is to give the tokens. -/
structure Reads (s pending rest : Text) (state : Progress) (result : List Token) : Prop where
  suffix : pending ++ rest <:+ s
  offset_eq : state.offset = offset s rest
  textStart_eq : state.textStart = offset s (pending ++ rest)
  result_eq : state.tokens ++ remaining pending rest = result

/-- One pass gives all tokens when no `<` is left, or else is behind at least one more character
and is still to give the same. -/
theorem Reads.pass {state : Progress} {result : List Token}
    (h : Reads s pending rest state result) :
    pass s state = .ok (.inr result) ∨
      ∃ pending' after next, pass s state = .ok (.inl next) ∧
        Reads s pending' after next result ∧ after.length < rest.length := by
  obtain ⟨hsuffix, hoffset, htextStart, rfl⟩ := h
  obtain ⟨k, start, tokens⟩ := state
  obtain rfl : k = offset s rest := hoffset
  obtain rfl : start = offset s (pending ++ rest) := htextStart
  have hrest := suffix_of_append hsuffix
  rw [Scan.pass, tail_offset hrest, ok_bind]
  rcases find?_singleton_cases '<' rest with ⟨hnone, hfind⟩ | ⟨before, t, hbefore, rfl, hfind⟩
  · left
    have hlast : pending ++ rest ++ [] <:+ s := by rwa [List.append_nil]
    have htext := textBetween_offset hlast
    rw [List.append_nil, offset_nil] at htext
    rw [hfind]
    dsimp only
    rw [htext, remaining_of_notMem hnone]
    rfl
  right
  have hhere := suffix_of_append hrest
  rw [hfind]
  dsimp only
  rw [offset_add_size hrest, markupAt?_offset hhere, ok_bind, remaining_append hbefore]
  by_cases hstart : Lexeme.startsMarkup ('<' :: t) = true
  · have hflush : (pending ++ before) ++ '<' :: t <:+ s := by rwa [List.append_assoc]
    have htext := textBetween_offset hflush
    rw [List.append_assoc] at htext
    rw [if_pos hstart]
    dsimp only
    rw [htext]
    refine ⟨[], (Lexeme.readMarkup t).2, _, rfl, ⟨?_, rfl, rfl, ?_⟩, ?_⟩
    · exact (suffix_readMarkup t).trans hhere
    · rw [remaining_markup hstart]
      simp only [List.append_assoc]
    · exact (length_readMarkup_lt t).trans_le (List.suffix_append _ _).length_le
  · have hwaits : (pending ++ before ++ ['<']) ++ t = pending ++ (before ++ '<' :: t) := by simp
    rw [if_neg hstart]
    refine ⟨pending ++ before ++ ['<'], t, _, rfl, ⟨?_, ?_, ?_, ?_⟩, ?_⟩
    · rwa [hwaits]
    · exact offset_add_one (by decide) hhere
    · rw [hwaits]
    · rw [remaining_cons (by simpa using hstart)]
    · rw [List.length_append, List.length_cons]
      omega

/-- No text makes reading by offsets fail: every stretch it cuts out lies between two characters
and inside the text, every byte it looks at is there, and every loop moves on until it is left.
What it gives are the tokens of the text. -/
theorem tokens_eq_ok (s : Text) : tokens s = .ok (Token.readAll s) := by
  apply loop_of_passes fun rest state result => ∃ pending, Reads s pending rest state result
  · rintro rest state ⟨pending, h⟩
    exact ⟨suffix_of_append h.suffix, h.offset_eq⟩
  · rintro rest state ⟨pending, h⟩
    rcases h.pass with hleave | ⟨pending', after, next, hagain, hnext, hlt⟩
    · exact .inl hleave
    · exact .inr ⟨after, next, hagain, ⟨pending', hnext⟩, hlt⟩
  · refine ⟨[], List.suffix_refl s, (offset_self s).symm, (offset_self s).symm, ?_⟩
    exact remaining_nil s

end Hypertext.Scan
