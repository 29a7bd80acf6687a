import Hypertext.Proofs.Text.Reference

/-!
# Escaped texts

The texts that escaping writes are those without the four other marks in which every `&`
begins one of five references. On these, escaping and decoding undo each other.
-/

namespace Hypertext.Text

set_option autoImplicit false

def escapedReferences : List Text :=
  ["&amp;", "&lt;", "&gt;", "&quot;", "&#39;"]

structure IsEscaped (u : Text) : Prop where
  notMem : ∀ c ∈ u, c ≠ '<' ∧ c ≠ '>' ∧ c ≠ '"' ∧ c ≠ '\''
  begins : ∀ rest, '&' :: rest <:+ u →
    ∃ reference ∈ escapedReferences, reference <+: '&' :: rest

theorem escapeChar_cases (c : Char) :
    escapeChar c ∈ escapedReferences ∨ c ≠ '&' ∧ escapeChar c = [c] := by
  unfold escapeChar
  split_ifs with hamp hlt hgt hquote happos
  · exact .inl (by simp [escapedReferences])
  · exact .inl (by simp [escapedReferences])
  · exact .inl (by simp [escapedReferences])
  · exact .inl (by simp [escapedReferences])
  · exact .inl (by simp [escapedReferences])
  · exact .inr ⟨hamp, rfl⟩

theorem exists_escapeChar_eq {reference : Text} (h : reference ∈ escapedReferences) :
    ∃ c, escapeChar c = reference := by
  simp only [escapedReferences, List.mem_cons, List.not_mem_nil, or_false] at h
  rcases h with rfl | rfl | rfl | rfl | rfl
  · exact ⟨'&', rfl⟩
  · exact ⟨'<', rfl⟩
  · exact ⟨'>', rfl⟩
  · exact ⟨'"', rfl⟩
  · exact ⟨'\'', rfl⟩

theorem isPattern_of_mem_escapedReferences :
    ∀ reference ∈ escapedReferences, IsPattern reference := by
  simp [escapedReferences, IsPattern]

theorem amp_suffix_append_iff {s : Text} (hs : '&' ∉ s) (rest t : Text) :
    '&' :: rest <:+ s ++ t ↔ '&' :: rest <:+ t := by
  induction s with
  | nil => rfl
  | cons c s ih =>
    obtain ⟨hc, hs⟩ := List.ne_and_not_mem_of_not_mem_cons hs
    rw [List.cons_append, List.suffix_cons_iff, ih hs]
    constructor
    · rintro (heq | hlater)
      · exact absurd (List.cons.inj heq).1 hc
      · exact hlater
    · exact .inr

theorem isEscaped_escape (s : Text) : IsEscaped s.escape := by
  constructor
  · intro c hc
    have hnot : c ∉ ['<', '>', '"', '\''] := fun hmem => notMem_escape hmem s hc
    simpa using hnot
  · intro rest hrest
    induction s with
    | nil => simp [escape] at hrest
    | cons c s ih =>
      rw [escape_cons] at hrest
      rcases escapeChar_cases c with hmem | ⟨hne, hself⟩
      · obtain ⟨name, hname, hnot⟩ := (isPattern_of_mem_escapedReferences _ hmem).exists_name
        rw [hname, List.cons_append, List.suffix_cons_iff] at hrest
        rcases hrest with heq | hlater
        · refine ⟨_, hmem, ?_⟩
          rw [heq, hname]
          exact List.prefix_append _ _
        · exact ih ((amp_suffix_append_iff hnot rest _).mp hlater)
      · have hnot : '&' ∉ [c] := by simpa using hne.symm
        rw [hself] at hrest
        exact ih ((amp_suffix_append_iff hnot rest _).mp hrest)

theorem IsEscaped.of_suffix {u t : Text} (h : IsEscaped u) (ht : t <:+ u) : IsEscaped t := by
  constructor
  · intro c hc
    exact h.notMem c (ht.mem hc)
  · intro rest hrest
    exact h.begins rest (hrest.trans ht)

theorem IsEscaped.exists_escape_eq {u : Text} (h : IsEscaped u) : ∃ s, escape s = u := by
  induction hn : u.length using Nat.strong_induction_on generalizing u with
  | _ n ih =>
    -- a first character that is written in front of the rest leaves the rest to the induction
    have hstep : ∀ c t, escapeChar c ++ t = u → ∃ s, escape s = u := by
      intro c t hu
      have hlength := congrArg List.length hu
      have hpos : 0 < (escapeChar c).length := by
        rcases escapeChar_cases c with hmem | ⟨-, hself⟩
        · obtain ⟨name, hname, -⟩ := (isPattern_of_mem_escapedReferences _ hmem).exists_name
          simp [hname]
        · simp [hself]
      rw [List.length_append] at hlength
      obtain ⟨s, rfl⟩ := ih t.length (by omega) (h.of_suffix ⟨_, hu⟩) rfl
      exact ⟨c :: s, by rw [escape_cons, hu]⟩
    cases u with
    | nil => exact ⟨[], rfl⟩
    | cons c u =>
      by_cases hamp : c = '&'
      · subst hamp
        obtain ⟨reference, hmem, t, ht⟩ := h.begins u (List.suffix_refl _)
        obtain ⟨d, rfl⟩ := exists_escapeChar_eq hmem
        exact hstep d t ht
      · obtain ⟨hlt, hgt, hquote, happos⟩ := h.notMem c List.mem_cons_self
        have hself : escapeChar c = [c] := by
          simp [escapeChar, hamp, hlt, hgt, hquote, happos]
        exact hstep c u (by rw [hself, List.singleton_append])

/-- Decoding undoes escaping, and on all that escaping writes, escaping undoes decoding. -/
theorem escape_decode_inverse :
    (∀ s : Text, s.escape.decode = s) ∧
      ∀ u : Text, ((∃ s, escape s = u) ↔ IsEscaped u) ∧ (IsEscaped u → u.decode.escape = u) := by
  refine ⟨decode_escape, ?_⟩
  intro u
  refine ⟨⟨?_, IsEscaped.exists_escape_eq⟩, ?_⟩
  · rintro ⟨s, rfl⟩
    exact isEscaped_escape s
  · intro h
    obtain ⟨s, rfl⟩ := h.exists_escape_eq
    rw [decode_escape]

theorem escape_decode_inverse_nested :
    IsEscaped "&amp;amp;lt; &#39;".toList ∧
      (decode "&amp;amp;lt; &#39;".toList).escape = "&amp;amp;lt; &#39;".toList := by
  have hwritten : escape "&amp;lt; '".toList = "&amp;amp;lt; &#39;".toList := by decide
  have hescaped := ((escape_decode_inverse.2 _).1).mp ⟨_, hwritten⟩
  exact ⟨hescaped, (escape_decode_inverse.2 _).2 hescaped⟩

/-! ## The end of an escaped text -/

theorem getLast?_escapeChar {c d : Char} (h : (escapeChar c).getLast? = some d) :
    d = ';' ∨ d = c := by
  unfold escapeChar at h
  split_ifs at h
  · exact .inl (Option.some.inj h).symm
  · exact .inl (Option.some.inj h).symm
  · exact .inl (Option.some.inj h).symm
  · exact .inl (Option.some.inj h).symm
  · exact .inl (Option.some.inj h).symm
  · exact .inr (Option.some.inj h).symm

theorem of_getLast?_escape {t : Text} {c : Char} (hc : c ≠ ';')
    (h : t.escape.getLast? = some c) : t.getLast? = some c := by
  rcases List.eq_nil_or_concat t with rfl | ⟨t, d, rfl⟩
  · cases h
  · have hne : escape [d] ≠ [] := escape_ne_nil (List.cons_ne_nil d [])
    rw [List.concat_eq_append, escape_append, List.getLast?_append_of_ne_nil _ hne,
      escape_cons, escape, List.flatMap_nil, List.append_nil] at h
    rcases getLast?_escapeChar h with hend | rfl
    · exact absurd hend hc
    · rw [List.concat_eq_append, List.getLast?_concat]

/-- Escaping makes no blanks and removes none. -/
theorem filter_escape (t : Text) :
    t.escape.filter (fun c => !isBlank c) = escape (t.filter fun c => !isBlank c) := by
  induction t with
  | nil => rfl
  | cons c t ih =>
    rw [escape_cons, List.filter_append, ih]
    by_cases hc : isBlank c = true
    · have hself : escapeChar c = [c] := by
        simp only [isBlank, Bool.or_eq_true, beq_iff_eq] at hc
        rcases hc with (((rfl | rfl) | rfl) | rfl) | rfl <;> rfl
      rw [hself, List.filter_cons_of_neg (by simp [hc]), List.filter_cons_of_neg (by simp [hc])]
      rfl
    · have hreferences : ∀ d ∈ referenceChars, (!isBlank d) = true := by
        simp [referenceChars, isBlank]
      have hall : ∀ d ∈ escapeChar c, (!isBlank d) = true := by
        intro d hd
        rcases mem_escapeChar hd with hmem | ⟨rfl, -⟩
        · exact hreferences d hmem
        · simpa using hc
      rw [List.filter_eq_self.mpr hall, List.filter_cons_of_pos (by simpa using hc), escape_cons]

theorem of_lastNonblank?_escape {t : Text} {c : Char} (hc : c ≠ ';')
    (h : t.escape.lastNonblank? = some c) : t.lastNonblank? = some c := by
  rw [lastNonblank?, filter_escape] at h
  exact of_getLast?_escape hc h

theorem lastNonblank?_escape_ne_none {t : Text} (h : t.lastNonblank? ≠ none) :
    t.escape.lastNonblank? ≠ none := by
  rw [lastNonblank?, Ne, List.getLast?_eq_none_iff] at h ⊢
  rw [filter_escape]
  exact escape_ne_nil h

end Hypertext.Text
