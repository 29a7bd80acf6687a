import Hypertext.Text.Identifier
import Hypertext.Proofs.Text.Basic

/-!
# Identifiers among ASCII characters and white space

Among ASCII characters, identifiers start with letters and go on with letters, digits and
underscores: every further range of the tables lies behind these characters. No white space
is part of an identifier.
-/

namespace Hypertext

set_option autoImplicit false

section Ranges
variable {ranges : List (Nat × Nat)} {c : Char}

theorem isWithin_append (ranges more : List (Nat × Nat)) (c : Char) :
    isWithin (ranges ++ more) c = (isWithin ranges c || isWithin more c) :=
  List.any_append

theorem isWithin_eq_false_of_lt {bound : Nat} (h : ∀ range ∈ ranges, bound ≤ range.1)
    (hc : c.toNat < bound) : isWithin ranges c = false := by
  apply List.any_eq_false.mpr
  intro range hrange
  have hbound := h range hrange
  have hlt : ¬ range.1 ≤ c.toNat := by omega
  simp [hlt]

/-- A character is not in ranges that lie apart from all of those it is in. -/
theorem isWithin_eq_false_of_apart {others : List (Nat × Nat)}
    (h : ∀ range ∈ ranges, ∀ other ∈ others, range.2 < other.1 ∨ other.2 < range.1)
    (hc : isWithin ranges c = true) : isWithin others c = false := by
  obtain ⟨range, hrange, hwithin⟩ := List.any_eq_true.mp hc
  obtain ⟨hfirst, hlast⟩ : range.1 ≤ c.toNat ∧ c.toNat ≤ range.2 := by simpa using hwithin
  apply List.any_eq_false.mpr
  intro other hother
  have hapart := h range hrange other hother
  have hnot : ¬ (other.1 ≤ c.toNat ∧ c.toNat ≤ other.2) := by omega
  simpa using hnot

end Ranges

section Ascii
variable {c : Char}

theorem toNat_of_isDigit (h : c.isDigit = true) : 48 ≤ c.toNat ∧ c.toNat ≤ 57 := by
  simpa [Char.isDigit, UInt32.le_iff_toNat_le] using h

theorem toNat_of_isAlpha (h : c.isAlpha = true) :
    65 ≤ c.toNat ∧ c.toNat ≤ 90 ∨ 97 ≤ c.toNat ∧ c.toNat ≤ 122 := by
  simpa [Char.isAlpha, Char.isUpper, Char.isLower, UInt32.le_iff_toNat_le] using h

theorem isIdentifierStart_eq_isAlpha (hc : c.toNat < 0x80) : isIdentifierStart c = c.isAlpha := by
  have hrest : isWithin (identifierStartRanges.drop 2) c = false :=
    isWithin_eq_false_of_lt (by decide +kernel) hc
  rw [isIdentifierStart, ← List.take_append_drop 2 identifierStartRanges, isWithin_append, hrest,
    Bool.or_false]
  change isWithin [(0x41, 0x5a), (0x61, 0x7a)] c = c.isAlpha
  simp [isWithin, Char.isAlpha, Char.isUpper, Char.isLower, UInt32.le_iff_toNat_le]

theorem isIdentifierPart_of_isAlpha (h : c.isAlpha = true) : isIdentifierPart c = true := by
  have hletter := toNat_of_isAlpha h
  rw [isIdentifierPart, isIdentifierStart_eq_isAlpha (by omega), h, Bool.true_or]

theorem isIdentifierPart_eq (hc : c.toNat < 0x80) :
    isIdentifierPart c = (c.isAlphanum || c == '_') := by
  have hrest : isWithin (identifierPartRanges.drop 2) c = false :=
    isWithin_eq_false_of_lt (by decide +kernel) hc
  have hscore : c.toNat = 0x5f ↔ c = '_' :=
    ⟨fun h => by rw [← Char.ofNat_toNat c, h], fun h => by rw [h]; rfl⟩
  have hpart : isWithin [(0x30, 0x39), (0x5f, 0x5f)] c = (c.isDigit || c == '_') := by
    rw [Bool.eq_iff_iff]
    simp only [isWithin, Char.isDigit, List.any_cons, List.any_nil, Bool.or_false,
      Bool.or_eq_true, Bool.and_eq_true, decide_eq_true_eq, beq_iff_eq, ← hscore,
      UInt32.le_iff_toNat_le, ge_iff_le]
    change 48 ≤ c.toNat ∧ c.toNat ≤ 57 ∨ 95 ≤ c.toNat ∧ c.toNat ≤ 95 ↔
      (48 ≤ c.toNat ∧ c.toNat ≤ 57) ∨ c.toNat = 95
    omega
  rw [isIdentifierPart, isIdentifierStart_eq_isAlpha hc,
    ← List.take_append_drop 2 identifierPartRanges, isWithin_append, hrest, Bool.or_false,
    Char.isAlphanum, Bool.or_assoc, ← hpart]
  rfl

theorem isIdentifierPart_eq_false (h : c.toNat < 0x80 ∧ (c.isAlphanum || c == '_') = false) :
    isIdentifierPart c = false := by
  rw [isIdentifierPart_eq h.1, h.2]

end Ascii

theorem isIdentifierPart_of_isSpace {c : Char} (h : isSpace c = true) :
    isIdentifierPart c = false := by
  have hstart : isWithin identifierStartRanges c = false :=
    isWithin_eq_false_of_apart (by decide +kernel) h
  have hpart : isWithin identifierPartRanges c = false :=
    isWithin_eq_false_of_apart (by decide +kernel) h
  rw [isIdentifierPart, isIdentifierStart, hstart, hpart, Bool.or_false]

end Hypertext
