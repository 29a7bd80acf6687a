import Hypertext.Text.Basic
import Mathlib

/-!
# Laws of texts

Where a text is cut does not depend on what stands far behind the cut: each way of cutting
has a law that reads a text put together from a run, the mark that ends it and any rest.
Letter case concerns ASCII letters only, so no other character comes from one or goes to one.
-/

namespace Hypertext.Text

set_option autoImplicit false

section LetterCase

theorem eq_of_toLower_eq {c d : Char} (hd : d.isAlpha = false) (h : c.toLower = d) : c = d := by
  by_cases hc : c.isUpper = true
  · rw [← h, Char.isAlpha_toLower_eq_isAlpha, Char.isAlpha, hc] at hd
    simp at hd
  · rwa [Char.toLower_eq_of_not_isUpper hc] at h

theorem mem_of_mem_lowercase {t : Text} {d : Char} (hd : d.isAlpha = false)
    (h : d ∈ t.lowercase) : d ∈ t := by
  obtain ⟨c, hc, hlower⟩ := List.mem_map.mp h
  rwa [← eq_of_toLower_eq hd hlower]

theorem lowercase_eq_self {t : Text} (h : ∀ c ∈ t, c.isUpper = false) : t.lowercase = t := by
  have hmap : t.map Char.toLower = t.map id := List.map_congr_left fun c hc =>
    Char.toLower_eq_of_not_isUpper (Bool.eq_false_iff.mp (h c hc))
  rw [lowercase, hmap, List.map_id]

theorem length_eq_of_lowercase_eq {s t : Text} (h : s.lowercase = t.lowercase) :
    s.length = t.length := by
  simpa [lowercase] using congrArg List.length h

end LetterCase

section Runs
variable {p : Char → Bool} {s t : Text}

theorem takeWhile_append_of_head (hs : ∀ c ∈ s, p c = true) (ht : ∀ c ∈ t.head?, p c = false) :
    (s ++ t).takeWhile p = s := by
  rw [List.takeWhile_append_of_pos hs]
  cases t with
  | nil => simp
  | cons d t => simp [ht d rfl]

theorem dropWhile_append_of_head (hs : ∀ c ∈ s, p c = true) (ht : ∀ c ∈ t.head?, p c = false) :
    (s ++ t).dropWhile p = t := by
  rw [List.dropWhile_append_of_pos hs]
  cases t with
  | nil => rfl
  | cons d t => simp [ht d rfl]

theorem of_mem_head?_dropWhile {c : Char} (h : c ∈ (s.dropWhile p).head?) : p c = false := by
  have hhead := List.head?_dropWhile_not p s
  rw [Option.mem_def.mp h] at hhead
  exact hhead

/-- Dropping stops inside `s` unless nothing of `s` is left. -/
theorem head?_dropWhile_append (h : ∃ c ∈ s, p c = false) :
    ((s ++ t).dropWhile p).head? = (s.dropWhile p).head? := by
  obtain ⟨c, hc, hp⟩ := h
  have hne : s.dropWhile p ≠ [] := by
    intro hnil
    rw [List.dropWhile_eq_nil_iff.mp hnil c hc] at hp
    cases hp
  rw [List.dropWhile_append, if_neg (by rwa [List.isEmpty_iff])]
  obtain ⟨d, rest, hd⟩ := List.exists_cons_of_ne_nil hne
  rw [hd]
  rfl

end Runs

/-- A text of blanks, which may be empty. -/
def IsBlank (t : Text) : Prop :=
  ∀ c ∈ t, isBlank c = true

instance (t : Text) : Decidable (IsBlank t) :=
  decidable_of_iff (t.all isBlank = true) List.all_eq_true

section LastNonblank
variable {c : Char}

/-- The last character that is not a blank. -/
def lastNonblank? (t : Text) : Option Char :=
  (t.filter fun c => !isBlank c).getLast?

theorem lastNonblank?_concat_blank (h : isBlank c = true) (t : Text) :
    (t ++ [c]).lastNonblank? = t.lastNonblank? := by
  simp [lastNonblank?, h]

theorem lastNonblank?_concat (h : isBlank c = false) (t : Text) :
    (t ++ [c]).lastNonblank? = some c := by
  simp [lastNonblank?, h]

theorem lastNonblank?_blank_cons (h : isBlank c = true) (t : Text) :
    lastNonblank? (c :: t) = t.lastNonblank? := by
  simp [lastNonblank?, h]

end LastNonblank

section UpTo
variable {stop : Char} {s : Text}

theorem notMem_upTo (t : Text) : stop ∉ (upTo stop t).1 := by
  induction t with
  | nil => simp [upTo]
  | cons c rest ih =>
    by_cases h : c = stop
    · simp [upTo, h]
    · simp [upTo, h, ih, Ne.symm h]

theorem upTo_append (h : stop ∉ s) (t : Text) :
    upTo stop (s ++ t) = (s ++ (upTo stop t).1, (upTo stop t).2) := by
  induction s with
  | nil => rfl
  | cons c rest ih =>
    obtain ⟨hc, hrest⟩ := List.ne_and_not_mem_of_not_mem_cons h
    simp [upTo, ih hrest, Ne.symm hc]

theorem upTo_append_cons (h : stop ∉ s) (t : Text) : upTo stop (s ++ stop :: t) = (s, true, t) := by
  rw [upTo_append h]
  simp [upTo]

theorem upTo_not_found (t : Text) (h : (upTo stop t).2.1 = false) : (upTo stop t).2.2 = [] := by
  induction t with
  | nil => rfl
  | cons c rest ih =>
    by_cases hc : c = stop
    · simp [upTo, hc] at h
    · simp only [upTo, if_neg hc] at h ⊢
      exact ih h

end UpTo

section Join
variable {ts : List Text}

theorem joinWith_singleton (separator t : Text) : joinWith separator [t] = t :=
  List.intercalate_singleton

theorem joinWith_cons (separator t : Text) (h : ts ≠ []) :
    joinWith separator (t :: ts) = t ++ (separator ++ joinWith separator ts) := by
  rw [joinWith, List.intercalate_cons_of_ne_nil h, List.append_assoc, joinWith]

end Join

section Mark

/-- Hyphens before the mark begin no occurrence that reaches into it. -/
theorem cut?_append_commentEnd {s : Text} (h : ¬ "-->".toList <:+: s) (t : Text) :
    cut? "-->" (s ++ ("-->".toList ++ t)) = some (s, t) := by
  induction s with
  | nil => rfl
  | cons c s ih =>
    obtain ⟨hhere, hlater⟩ := not_or.mp (mt List.infix_cons_iff.mpr h)
    have hnot : "-->".toList.isPrefixOf (c :: (s ++ ("-->".toList ++ t))) = false := by
      match s with
      | [] => simp [List.isPrefixOf]
      | [d] => simp [List.isPrefixOf]
      | d :: e :: s =>
        simp at hhere
        simpa [List.isPrefixOf] using hhere
    rw [List.cons_append, cut?, if_neg (Bool.eq_false_iff.mp hnot), ih hlater]
    rfl

theorem not_infix_of_cut?_eq_some {mark t before after : Text}
    (h : cut? mark t = some (before, after)) (hmark : mark ≠ []) : ¬ mark <:+: before := by
  induction t generalizing before with
  | nil => simp [cut?] at h
  | cons c t ih =>
    have hwhole := eq_of_cut?_eq_some h
    rw [cut?] at h
    split at h
    · simp only [Option.some.injEq, Prod.mk.injEq] at h
      rw [← h.1]
      simpa using hmark
    · next hnot =>
      obtain ⟨⟨b, a⟩, hcut, heq⟩ := Option.map_eq_some_iff.mp h
      simp only [Prod.mk.injEq] at heq
      obtain ⟨rfl, rfl⟩ := heq
      intro hinfix
      rcases List.infix_cons_iff.mp hinfix with hbegins | hlater
      · apply hnot
        rw [List.isPrefixOf_iff_prefix, ← hwhole]
        exact hbegins.trans (List.prefix_append _ _)
      · exact ih hcut hlater

end Mark

end Hypertext.Text
