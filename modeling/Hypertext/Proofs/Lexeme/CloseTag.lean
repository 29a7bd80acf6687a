import Hypertext.Lexeme.CloseTag
import Hypertext.Proofs.Text.Basic

/-!
# The end of raw text

An end tag of raw text is found at the same place whatever stands behind it, and a `<` ends
every attempt to read one. So raw text without an end tag of its own, followed by one, is
cut there.
-/

namespace Hypertext

set_option autoImplicit false

def IsCloseTag (name tag : Text) : Prop :=
  ∃ written blanks : Text, written.lowercase = name.lowercase ∧ (∀ c ∈ blanks, isBlank c = true) ∧
    tag = '<' :: '/' :: (written ++ (blanks ++ ['>']))

variable {name : Text}

theorem isCloseTag_of_readCloseTag? {s tag rest : Text}
    (h : readCloseTag? name s = some (tag, rest)) : IsCloseTag name tag := by
  unfold readCloseTag? at h
  split at h
  · next text =>
    split at h
    · next hname =>
      split at h
      · simp only [Option.some.injEq, Prod.mk.injEq] at h
        exact ⟨_, _, hname, fun c hc => List.mem_takeWhile_imp hc, h.1.symm⟩
      · simp at h
    · simp at h
  · simp at h

theorem IsCloseTag.readCloseTag?_append {tag : Text} (h : IsCloseTag name tag) (rest : Text) :
    readCloseTag? name (tag ++ rest) = some (tag, rest) := by
  obtain ⟨written, blanks, hname, hblanks, rfl⟩ := h
  have hlength := Text.length_eq_of_lowercase_eq hname.symm
  have hend : ∀ c ∈ ('>' :: rest).head?, isBlank c = false := by
    intro c hc
    obtain rfl : '>' = c := by simpa using hc
    decide
  simp only [List.cons_append, List.append_assoc, List.nil_append, readCloseTag?, hlength,
    List.take_left, List.drop_left, if_pos hname, Text.dropWhile_append_of_head hblanks hend,
    Text.takeWhile_append_of_head hblanks hend]

theorem readCloseTag?_eq_some_iff {s tag rest : Text} :
    readCloseTag? name s = some (tag, rest) ↔ IsCloseTag name tag ∧ s = tag ++ rest := by
  constructor
  · intro h
    exact ⟨isCloseTag_of_readCloseTag? h, (eq_of_readCloseTag?_eq_some h).symm⟩
  · rintro ⟨htag, rfl⟩
    exact htag.readCloseTag?_append rest

theorem isCloseTag_self (name : Text) : IsCloseTag name ('<' :: '/' :: (name ++ ['>'])) :=
  ⟨name, [], rfl, by simp, rfl⟩

theorem length_le_of_lowercase_take {stop : Char} {s u : Text} (hstop : stop.isAlpha = false)
    (hname : stop ∉ name)
    (h : Text.lowercase ((s ++ stop :: u).take name.length) = name.lowercase) :
    name.length ≤ s.length := by
  by_contra hlt
  apply hname
  apply Text.mem_of_mem_lowercase hstop
  rw [← h]
  have hmem : stop ∈ (s ++ stop :: u).take name.length := by
    rw [List.take_append]
    apply List.mem_append_right
    have hpos : name.length - s.length ≠ 0 := by omega
    obtain ⟨k, hk⟩ := Nat.exists_eq_succ_of_ne_zero hpos
    simp [hk]
  have hlower : stop.toLower = stop := by
    apply Char.toLower_eq_of_not_isUpper
    rw [Char.isAlpha, Bool.or_eq_false_iff] at hstop
    exact Bool.eq_false_iff.mp hstop.1
  exact List.mem_map.mpr ⟨stop, hmem, hlower⟩

theorem dropWhile_isBlank_of_append {s u after : Text}
    (h : (s ++ '<' :: u).dropWhile isBlank = '>' :: after) :
    ∃ rest, s.dropWhile isBlank = '>' :: rest := by
  by_cases hblank : ∃ c ∈ s, isBlank c = false
  · have hhead := Text.head?_dropWhile_append (t := '<' :: u) hblank
    rw [h] at hhead
    exact List.head?_eq_some_iff.mp hhead.symm
  · have hall : ∀ c ∈ s, isBlank c = true := by
      intro c hc
      by_contra hne
      exact hblank ⟨c, hc, by simpa using hne⟩
    rw [List.dropWhile_append_of_pos hall, List.dropWhile_cons_of_neg (by decide)] at h
    simp at h

/-- Neither the name nor the blanks of an end tag can hold the `<`. -/
theorem readCloseTag?_append_eq_none {s : Text} (hname : '<' ∉ name) (hs : s ≠ [])
    (h : readCloseTag? name s = none) (u : Text) : readCloseTag? name (s ++ '<' :: u) = none := by
  unfold readCloseTag?
  split
  · next text heq =>
    match s, hs with
    | [c], _ => simp at heq
    | c :: d :: s, _ =>
      simp only [List.cons_append, List.cons.injEq] at heq
      obtain ⟨rfl, rfl, rfl⟩ := heq
      split
      · next hlower =>
        have hlength := length_le_of_lowercase_take (by decide) hname hlower
        rw [List.take_append_of_le_length hlength] at hlower
        rw [List.drop_append_of_le_length hlength]
        simp only [readCloseTag?, if_pos hlower] at h
        split
        · next after hafter =>
          obtain ⟨rest, hrest⟩ := dropWhile_isBlank_of_append hafter
          simp [hrest] at h
        · rfl
      · rfl
  · rfl

/-- Raw text that holds no end tag of its own is cut at the one behind it. -/
theorem cutCloseTag?_append {raw tag : Text} (hname : '<' ∉ name)
    (hraw : cutCloseTag? name raw = none) (htag : IsCloseTag name tag) (rest : Text) :
    cutCloseTag? name (raw ++ (tag ++ rest)) = some (raw, tag, rest) := by
  have hread := htag.readCloseTag?_append rest
  obtain ⟨written, blanks, -, -, rfl⟩ := htag
  induction raw with
  | nil =>
    rw [List.cons_append] at hread
    rw [List.nil_append, List.cons_append, cutCloseTag?, hread]
  | cons c raw ih =>
    rw [cutCloseTag?] at hraw
    split at hraw
    · simp at hraw
    · next hhere =>
      have hnone := readCloseTag?_append_eq_none hname (List.cons_ne_nil c raw) hhere
        ('/' :: (written ++ (blanks ++ ['>'])) ++ rest)
      rw [List.cons_append, cutCloseTag?, ih (Option.map_eq_none_iff.mp hraw)]
      simp only [List.cons_append] at hnone ⊢
      rw [hnone]
      rfl

theorem of_cutCloseTag?_eq_some {s raw tag rest : Text}
    (h : cutCloseTag? name s = some (raw, tag, rest)) :
    cutCloseTag? name raw = none ∧ IsCloseTag name tag := by
  induction s generalizing raw with
  | nil => simp [cutCloseTag?] at h
  | cons c s ih =>
    have hwhole := eq_of_cutCloseTag?_eq_some h
    rw [cutCloseTag?] at h
    split at h
    · next heq =>
      simp only [Option.some.injEq, Prod.mk.injEq] at h
      obtain ⟨rfl, rfl, rfl⟩ := h
      exact ⟨rfl, isCloseTag_of_readCloseTag? heq⟩
    · next hhere =>
      obtain ⟨⟨b, t, r⟩, hcut, heq⟩ := Option.map_eq_some_iff.mp h
      simp only [Prod.mk.injEq] at heq
      obtain ⟨rfl, rfl, rfl⟩ := heq
      obtain ⟨hraw, htag⟩ := ih hcut
      refine ⟨?_, htag⟩
      rw [cutCloseTag?, hraw]
      cases hread : readCloseTag? name (c :: b) with
      | none => rfl
      | some found =>
        obtain ⟨hfound, hb⟩ := readCloseTag?_eq_some_iff.mp hread
        have hlonger := hfound.readCloseTag?_append (found.2 ++ (t ++ r))
        rw [← List.append_assoc, ← hb, hwhole, hhere] at hlonger
        cases hlonger

/-- An end tag that is there is found, or one before it. -/
theorem exists_cutCloseTag?_eq_some {tag : Text} (h : IsCloseTag name tag) (before rest : Text) :
    ∃ found, cutCloseTag? name (before ++ (tag ++ rest)) = some found ∧ found.1 <+: before := by
  induction before with
  | nil =>
    have hread := h.readCloseTag?_append rest
    have hne : tag ++ rest ≠ [] := by
      obtain ⟨written, blanks, -, -, rfl⟩ := h
      exact List.cons_ne_nil _ _
    obtain ⟨c, text, htext⟩ := List.exists_cons_of_ne_nil hne
    rw [htext] at hread
    refine ⟨([], tag, rest), ?_, List.nil_prefix⟩
    rw [List.nil_append, htext, cutCloseTag?, hread]
  | cons c before ih =>
    rw [List.cons_append, cutCloseTag?]
    cases readCloseTag? name (c :: (before ++ (tag ++ rest))) with
    | some here => exact ⟨([], here), rfl, List.nil_prefix⟩
    | none =>
      obtain ⟨found, hfound, hbegins⟩ := ih
      refine ⟨(c :: found.1, found.2), ?_, List.cons_prefix_cons.mpr ⟨rfl, hbegins⟩⟩
      rw [hfound]
      rfl

end Hypertext
