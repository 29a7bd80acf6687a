import Hypertext.Template.Numeral
import Hypertext.Proofs.Template.Literal

/-!
# Laws of numerals in program text

A numeral takes at least one character and not more than the text has. Decimal digits are
read up to the first character that is no part of a word, unless it is a point.
-/

namespace Hypertext.CallText

set_option autoImplicit false

section Lengths
variable {s : Text} {n : Nat}

theorem add_length_takeWhile_drop_le {p q : Char → Bool}
    (h : ((s.drop n).takeWhile p).any q = true) :
    n + ((s.drop n).takeWhile p).length ≤ s.length := by
  obtain ⟨c, hc, -⟩ := List.any_eq_true.mp h
  have hpos := List.length_pos_of_mem hc
  have hle := (List.takeWhile_sublist p (l := s.drop n)).length_le
  rw [List.length_drop] at hle
  omega

theorem le_length_of_exponentLength? (h : exponentLength? s = some n) : n ≤ s.length := by
  unfold exponentLength? at h
  split at h
  · cases h
  · obtain ⟨-, h⟩ := Option.ite_none_right_eq_some.mp h
    obtain ⟨hdigit, hn⟩ := Option.ite_none_right_eq_some.mp h
    have hle := add_length_takeWhile_drop_le hdigit
    rw [← Option.some.inj hn, List.length_cons]
    omega

theorem add_exponentLength_le (h : n ≤ s.length) :
    n + (exponentLength? (s.drop n)).getD 0 ≤ s.length := by
  cases hexponent : exponentLength? (s.drop n) with
  | none => exact h
  | some m =>
    have hle := le_length_of_exponentLength? hexponent
    rw [List.length_drop] at hle
    rw [Option.getD_some]
    omega

theorem le_length_of_fractionLength? (h : fractionLength? s = some n) : n ≤ s.length := by
  have hwhole := (List.takeWhile_sublist isDigitPart (l := s)).length_le
  unfold fractionLength? at h
  dsimp only at h
  split at h
  · next t ht =>
    obtain ⟨-, hn⟩ := Option.ite_none_left_eq_some.mp h
    rw [← Option.some.inj hn]
    apply add_exponentLength_le
    have hfraction := (List.takeWhile_sublist isDigitPart (l := t)).length_le
    have hlength := congrArg List.length ht
    rw [List.length_drop, List.length_cons] at hlength
    omega
  · obtain ⟨m, hm, rfl⟩ := Option.map_eq_some_iff.mp h
    have hle := le_length_of_exponentLength? hm
    rw [List.length_drop] at hle
    omega

theorem le_length_of_wholeLength? (h : wholeLength? s = some n) : n ≤ s.length := by
  unfold wholeLength? at h
  dsimp only at h
  obtain ⟨hdigits, hn⟩ := Option.ite_none_right_eq_some.mp h
  rw [← Option.some.inj hn]
  exact add_length_takeWhile_drop_le hdigits.2

theorem pos_of_fractionLength? (hdigit : s.head?.any Char.isDigit = true)
    (h : fractionLength? s = some n) : 0 < n := by
  have hwhole : 0 < (s.takeWhile isDigitPart).length := by
    cases s with
    | nil => simp at hdigit
    | cons c s =>
      have hpart : isDigitPart c = true := by
        rw [isDigitPart, show c.isDigit = true from hdigit, Bool.true_or]
      rw [List.takeWhile_cons_of_pos hpart]
      exact Nat.succ_pos _
  unfold fractionLength? at h
  dsimp only at h
  split at h
  · obtain ⟨-, hn⟩ := Option.ite_none_left_eq_some.mp h
    rw [← Option.some.inj hn]
    omega
  · obtain ⟨m, -, rfl⟩ := Option.map_eq_some_iff.mp h
    omega

theorem pos_of_wholeLength? (h : wholeLength? s = some n) : 0 < n := by
  unfold wholeLength? at h
  dsimp only at h
  obtain ⟨⟨-, hdigit⟩, hn⟩ := Option.ite_none_right_eq_some.mp h
  obtain ⟨c, hc, -⟩ := List.any_eq_true.mp hdigit
  have hpos := List.length_pos_of_mem hc
  rw [← Option.some.inj hn]
  omega

theorem pos_of_numeralLength? (h : numeralLength? s = some n) : 0 < n := by
  unfold numeralLength? at h
  obtain ⟨hdigit, hn⟩ := Option.ite_none_right_eq_some.mp h
  rcases Option.or_eq_some_iff.mp hn with hfraction | ⟨-, hwhole⟩
  · exact pos_of_fractionLength? hdigit (Option.eq_some_of_filter_eq_some hfraction)
  · exact pos_of_wholeLength? (Option.eq_some_of_filter_eq_some hwhole)

theorem le_length_of_numeralLength? (h : numeralLength? s = some n) : n ≤ s.length := by
  unfold numeralLength? at h
  obtain ⟨-, hn⟩ := Option.ite_none_right_eq_some.mp h
  rcases Option.or_eq_some_iff.mp hn with hfraction | ⟨-, hwhole⟩
  · exact le_length_of_fractionLength? (Option.eq_some_of_filter_eq_some hfraction)
  · exact le_length_of_wholeLength? (Option.eq_some_of_filter_eq_some hwhole)

end Lengths

section Digits
variable {s w rest : Text}

theorem isIdentifierPart_of_isDigitPart {c : Char} (h : isDigitPart c = true) :
    isIdentifierPart c = true := by
  rcases Bool.or_eq_true_iff.mp h with hdigit | hscore
  · have hrange := toNat_of_isDigit hdigit
    rw [isIdentifierPart_eq (by omega), Char.isAlphanum, hdigit, Bool.or_true, Bool.true_or]
  · rw [beq_iff_eq.mp hscore]
    decide +kernel

theorem exponentLength?_eq_none (h : ∀ c ∈ rest.head?, isIdentifierPart c = false) :
    exponentLength? rest = none := by
  cases rest with
  | nil => rfl
  | cons c rest =>
    have hc : ¬ (c = 'e' ∨ c = 'E') := by
      rintro (rfl | rfl)
      · exact absurd (h 'e' rfl) (by decide +kernel)
      · exact absurd (h 'E' rfl) (by decide +kernel)
    rw [exponentLength?, if_neg hc]

theorem baseOf_eq_ten (h : ∀ c ∈ s.tail.head?, c ∉ ['x', 'o', 'b']) :
    baseOf s = (10, 0) := by
  unfold baseOf
  split
  · simp at h
  · simp at h
  · simp at h
  · rfl

theorem hexDigit?_lt_ten {c : Char} (h : c.isDigit = true) : (hexDigit? c).getD 0 < 10 := by
  have hrange := toNat_of_isDigit h
  have hzero : '0'.toNat = 48 := rfl
  rw [hexDigit?, if_pos h, Option.getD_some]
  omega

theorem mem_head?_tail_append {c : Char} (hne : w ≠ []) (h : c ∈ (w ++ rest).tail.head?) :
    c ∈ w ∨ c ∈ rest.head? := by
  rw [List.tail_append_of_ne_nil hne, List.head?_append] at h
  rcases Option.or_eq_some_iff.mp h with hw | ⟨-, hrest⟩
  · exact .inl (List.mem_of_mem_tail (List.mem_of_mem_head? hw))
  · exact .inr hrest

variable (hne : w ≠ []) (hw : ∀ c ∈ w, c.isDigit = true)
variable (hrest : ∀ c ∈ rest.head?, isIdentifierPart c = false)

include hw in
theorem forall_isDigitPart : ∀ c ∈ w, isDigitPart c = true := fun c hc => by
  rw [isDigitPart, hw c hc, Bool.true_or]

include hrest in
theorem forall_not_isDigitPart : ∀ c ∈ rest.head?, isDigitPart c = false := fun c hc =>
  Bool.eq_false_iff.mpr (mt isIdentifierPart_of_isDigitPart (Bool.eq_false_iff.mp (hrest c hc)))

include hw hrest in
theorem fractionLength?_digits (hpoint : rest.head? ≠ some '.') :
    fractionLength? (w ++ rest) = none := by
  rw [fractionLength?, Text.takeWhile_append_of_head (forall_isDigitPart hw)
    (forall_not_isDigitPart hrest), List.drop_left]
  split
  · simp at hpoint
  · rw [exponentLength?_eq_none hrest, Option.map_none]

include hne hw hrest in
theorem baseOf_digits : baseOf (w ++ rest) = (10, 0) := by
  have hletters : ∀ c ∈ ['x', 'o', 'b'], c.isAlpha = true := by simp
  apply baseOf_eq_ten
  intro c hc hmem
  have halpha := hletters c hmem
  rcases mem_head?_tail_append hne hc with hdigit | hhead
  · have hrange := toNat_of_isDigit (hw c hdigit)
    have hletter := toNat_of_isAlpha halpha
    omega
  · have hpart := hrest c hhead
    rw [isIdentifierPart_of_isAlpha halpha] at hpart
    cases hpart

include hne hw hrest in
theorem wholeLength?_digits : wholeLength? (w ++ rest) = some w.length := by
  have htake : (w ++ rest).takeWhile (fun c => isDigitPart c || decide ((10 : Nat) = 16) &&
      (hexDigit? c).isSome) = w := by
    simpa using Text.takeWhile_append_of_head (forall_isDigitPart hw)
      (forall_not_isDigitPart hrest)
  have hall : w.all (fun c => decide ((hexDigit? c).getD 0 < 10)) = true := by
    apply List.all_eq_true.mpr
    intro c hc
    exact decide_eq_true (hexDigit?_lt_ten (hw c hc))
  have hany : w.any (fun c => c != '_') = true := by
    obtain ⟨c, tail, rfl⟩ := List.exists_cons_of_ne_nil hne
    have hdigit := hw c List.mem_cons_self
    apply List.any_eq_true.mpr
    refine ⟨c, List.mem_cons_self, bne_iff_ne.mpr ?_⟩
    rintro rfl
    revert hdigit
    decide
  rw [wholeLength?, baseOf_digits hne hw hrest]
  simp only [List.drop_zero]
  rw [htake, if_pos ⟨hall, hany⟩, Nat.zero_add]

include hne hw hrest in
/-- Digits in front of what no numeral goes on with. -/
theorem numeralLength?_digits (hpoint : rest.head? ≠ some '.') :
    numeralLength? (w ++ rest) = some w.length := by
  have hlength : isNumeralLength (w ++ rest) w.length = true := by
    rw [isNumeralLength, literalLength_append w hrest, List.drop_left]
    cases rest with
    | nil => rfl
    | cons c rest => simp [hrest c rfl]
  have hhead : (w ++ rest).head?.any Char.isDigit = true := by
    obtain ⟨c, tail, rfl⟩ := List.exists_cons_of_ne_nil hne
    exact hw c List.mem_cons_self
  rw [numeralLength?, if_pos hhead, fractionLength?_digits hw hrest hpoint,
    wholeLength?_digits hne hw hrest]
  simp [hlength]

end Digits

end Hypertext.CallText
