import Hypertext.Template.Literal
import Hypertext.Proofs.Text.Identifier

/-!
# Laws of words and literals in program text

What is read at the start of a program text never takes more characters than the text has.
A word is read up to the first character that no word goes on with, and a quoted text is read
back whatever stands behind its closing quote.
-/

namespace Hypertext.CallText

set_option autoImplicit false

section Literals
variable {kind : LiteralKind} {s signs : Text}

theorem length_le_of_unicodeEscape? {r : Reading Char} (h : unicodeEscape? s = some r) :
    r.length ≤ s.length := by
  have hwhole := congrArg List.length (Text.upTo_eq '\x7d' s)
  unfold unicodeEscape? at h
  split at h
  · cases h
  · next body rest hbody =>
    rw [hbody] at hwhole
    dsimp only at h
    split at h
    · cases h
    · obtain ⟨c, -, rfl⟩ := Option.map_eq_some_iff.mp h
      simp only [Text.closing, List.length_append, if_true, List.length_singleton] at hwhole
      dsimp only
      omega

theorem length_le_of_escape? {r : Reading Char} (h : escape? kind s = some r) :
    r.length ≤ s.length := by
  unfold escape? at h
  split at h
  · cases h
  · next high low rest =>
    obtain ⟨n, -, hn⟩ := Option.bind_eq_some_iff.mp h
    split at hn
    · obtain rfl := Option.some.inj hn
      simp
    · cases hn
  · split at h
    · cases h
    · obtain ⟨escape, hescape, rfl⟩ := Option.map_eq_some_iff.mp h
      have hle := length_le_of_unicodeEscape? hescape
      simpa using hle
  · obtain ⟨c, -, rfl⟩ := Option.map_eq_some_iff.mp h
    simp

theorem le_length_of_continuationLength? {n : Nat} (h : continuationLength? s = some n) :
    n ≤ s.length := by
  fun_induction continuationLength? s generalizing n with
  | case1 s ih =>
    obtain ⟨m, hm, rfl⟩ := Option.map_eq_some_iff.mp h
    exact Nat.add_le_add_right (ih hm) 2
  | case2 => cases h
  | case3 c s _ _ _ ih =>
    obtain ⟨m, hm, rfl⟩ := Option.map_eq_some_iff.mp h
    exact Nat.add_le_add_right (ih hm) 1
  | case4 =>
    obtain rfl := Option.some.inj h
    exact Nat.zero_le _
  | case5 =>
    obtain rfl := Option.some.inj h
    exact Nat.zero_le _

/-- A character in front of a body adds what it takes to the length. -/
theorem length_le_of_map_cons {body? : Option (Reading Text)} {c : Char} {n m : Nat}
    {r : Reading Text} (hbody : ∀ body, body? = some body → body.length ≤ m)
    (h : body?.map (Reading.cons c n) = some r) : r.length ≤ m + n := by
  obtain ⟨body, hsome, rfl⟩ := Option.map_eq_some_iff.mp h
  have hle := hbody body hsome
  simp only [Reading.cons]
  omega

theorem length_le_of_quoted? {r : Reading Text} (h : quoted? kind s = some r) :
    r.length ≤ s.length := by
  fun_induction quoted? kind s generalizing r with
  | case1 => cases h
  | case2 =>
    obtain rfl := Option.some.inj h
    simp
  | case3 s ih =>
    have hle : r.length ≤ s.length + 2 := length_le_of_map_cons (fun _ => ih) h
    exact hle
  | case4 s _ ih =>
    obtain ⟨n, hn, hrest⟩ := Option.bind_eq_some_iff.mp h
    obtain ⟨body, hbody, hr⟩ := Option.bind_eq_some_iff.mp hrest
    obtain rfl := Option.some.inj hr
    have hskip := le_length_of_continuationLength? hn
    have hle := ih n hbody
    simp only [List.length_drop] at hle
    simp only [List.length_cons]
    omega
  | case5 s _ ih =>
    obtain ⟨escape, hescape, hrest⟩ := Option.bind_eq_some_iff.mp h
    obtain ⟨body, hbody, hr⟩ := Option.bind_eq_some_iff.mp hrest
    obtain rfl := Option.some.inj hr
    have hskip := length_le_of_escape? hescape
    have hle := ih escape hbody
    simp only [List.length_drop] at hle
    simp only [Reading.cons, List.length_cons]
    omega
  | case6 => cases h
  | case7 c s _ _ _ _ ih => exact length_le_of_map_cons (fun _ => ih) h

theorem length_le_of_rawBody? {r : Reading Text} (h : rawBody? kind signs s = some r) :
    r.length ≤ s.length := by
  fun_induction rawBody? kind signs s generalizing r with
  | case1 => cases h
  | case2 s ih =>
    obtain ⟨body, hbody, rfl⟩ := Option.map_eq_some_iff.mp h
    have hle := ih hbody
    simp only [Reading.cons, List.length_cons]
    omega
  | case3 c s _ hclosing =>
    obtain rfl := Option.some.inj h
    have hle := (List.isPrefixOf_iff_prefix.mp hclosing).length_le
    simpa using hle
  | case4 => cases h
  | case5 c s _ _ _ ih => exact length_le_of_map_cons (fun _ => ih) h

theorem length_le_of_raw? {r : Reading Text} (h : raw? kind s = some r) :
    r.length ≤ s.length := by
  unfold raw? at h
  dsimp only at h
  split at h
  · next body hbody =>
    split at h
    · obtain ⟨inner, hinner, rfl⟩ := Option.map_eq_some_iff.mp h
      have hle := length_le_of_rawBody? hinner
      have hwhole := congrArg List.length hbody
      simp only [List.length_drop, List.length_cons] at hwhole
      dsimp only
      omega
    · cases h
  · cases h

theorem le_length_of_singleLength? {n : Nat} (h : singleLength? kind s = some n) :
    n ≤ s.length := by
  unfold singleLength? at h
  split at h
  · next s =>
    obtain ⟨escape, hescape, hclosing⟩ := Option.bind_eq_some_iff.mp h
    split at hclosing
    · next hquote =>
      obtain rfl := Option.some.inj hclosing
      have hlt := (List.getElem?_eq_some_iff.mp hquote).1
      simp only [List.length_cons]
      omega
    · cases hclosing
  · split at h
    · obtain rfl := Option.some.inj h
      simp
    · cases h
  · cases h

theorem wordLength_le_length : wordLength s ≤ s.length := by
  cases s with
  | nil => exact Nat.le_refl 0
  | cons c s =>
    have hle := (List.takeWhile_sublist isIdentifierPart (l := s)).length_le
    simp only [wordLength, List.length_cons]
    split <;> omega

theorem literalLength_le_length {n : Nat} (h : n ≤ s.length) :
    literalLength s n ≤ s.length := by
  have hle : wordLength (s.drop n) ≤ (s.drop n).length := wordLength_le_length
  rw [List.length_drop] at hle
  unfold literalLength
  omega

end Literals

section Words
variable {w rest : Text}

/-- A character that words start with, and then characters that they go on with. -/
def IsWord (w : Text) : Prop :=
  ∃ c tail, w = c :: tail ∧ isWordStart c = true ∧ ∀ d ∈ tail, isIdentifierPart d = true

theorem isIdentifierPart_of_isWordStart {c : Char} (h : isWordStart c = true) :
    isIdentifierPart c = true := by
  rcases Bool.or_eq_true_iff.mp h with hscore | hstart
  · rw [beq_iff_eq.mp hscore]
    decide +kernel
  · rw [isIdentifierPart, hstart, Bool.true_or]

theorem wordLength_eq_zero (h : ∀ c ∈ rest.head?, isIdentifierPart c = false) :
    wordLength rest = 0 := by
  cases rest with
  | nil => rfl
  | cons c rest =>
    have hc : ¬ isWordStart c = true := fun hstart => by
      have hpart := isIdentifierPart_of_isWordStart hstart
      rw [h c rfl] at hpart
      cases hpart
    rw [wordLength, if_neg hc]

theorem IsWord.wordLength_append (hw : IsWord w)
    (h : ∀ c ∈ rest.head?, isIdentifierPart c = false) : wordLength (w ++ rest) = w.length := by
  obtain ⟨c, tail, rfl, hc, htail⟩ := hw
  rw [List.cons_append, wordLength, if_pos hc, Text.takeWhile_append_of_head htail h,
    List.length_cons]

theorem literalLength_append (w : Text) (h : ∀ c ∈ rest.head?, isIdentifierPart c = false) :
    literalLength (w ++ rest) w.length = w.length := by
  rw [literalLength, List.drop_left, wordLength_eq_zero h, Nat.add_zero]

end Words

section Quotes

def quoteChar (c : Char) : Text :=
  match simpleEscapes.find? (·.2 == c) with
  | some (letter, _) => ['\\', letter]
  | none => [c]

/-- A text in quotes, with an escape for every character that has one. -/
def quote (t : Text) : Text :=
  '"' :: (t.flatMap quoteChar ++ ['"'])

theorem quoted?_escape {letter c : Char} (h : (letter, c) ∈ simpleEscapes) (s : Text) :
    quoted? .characters ('\\' :: letter :: s) =
      (quoted? .characters s).map (Reading.cons c 2) := by
  have htable : ∀ p ∈ simpleEscapes, p.1 ≠ 'x' ∧ p.1 ≠ 'u' ∧ p.1 ≠ '\n' ∧ p.1 ≠ '\r' ∧
      simpleEscapes.lookup p.1 = some p.2 := by decide
  obtain ⟨hx, hu, hn, hr, hlookup⟩ := htable (letter, c) h
  have hescape : escape? .characters (letter :: s) = some ⟨c, 1⟩ := by
    rw [escape?]
    · rw [hlookup]
      rfl
    · rintro _ _ _ rfl
      exact absurd rfl hx
    · rintro _ rfl
      exact absurd rfl hu
  rw [quoted?, if_neg (by simp [hn, hr]), hescape]
  simp only [Option.bind_eq_bind, Option.bind_some, List.drop_one, List.tail_cons]
  cases quoted? .characters s with
  | none => rfl
  | some body => rfl

theorem quoted?_plain {c : Char} (h : c ∉ simpleEscapes.map Prod.snd) (s : Text) :
    quoted? .characters (c :: s) = (quoted? .characters s).map (Reading.cons c 1) := by
  have hreturn : c ≠ '\r' := by
    rintro rfl
    exact h (by decide)
  rw [quoted?]
  · rw [if_neg (by simp [hreturn, LiteralKind.allows])]
  · rintro rfl
    exact absurd h (by decide)
  · rintro _ hc -
    exact hreturn hc
  · rintro rfl
    exact absurd h (by decide)

theorem quoted?_quoteChar_append (c : Char) (s : Text) :
    quoted? .characters (quoteChar c ++ s) =
      (quoted? .characters s).map (Reading.cons c (quoteChar c).length) := by
  unfold quoteChar
  split
  · next letter d hfind =>
    have hd : d = c := by simpa using List.find?_some hfind
    rw [← hd]
    exact quoted?_escape (List.mem_of_find?_eq_some hfind) s
  · next hfind =>
    apply quoted?_plain
    intro hmem
    obtain ⟨p, hp, rfl⟩ := List.mem_map.mp hmem
    exact absurd (beq_self_eq_true p.2) (List.find?_eq_none.mp hfind p hp)

/-- A quoted text is read back whatever stands behind it. -/
theorem quoted?_quote (t rest : Text) :
    quoted? .characters (t.flatMap quoteChar ++ '"' :: rest) =
      some ⟨t, (t.flatMap quoteChar).length + 1⟩ := by
  induction t with
  | nil =>
    rw [List.flatMap_nil, List.nil_append, quoted?]
    rfl
  | cons c t ih =>
    rw [List.flatMap_cons, List.append_assoc, quoted?_quoteChar_append, ih, Option.map_some,
      Reading.cons, List.length_append, Nat.add_assoc]

end Quotes

end Hypertext.CallText
