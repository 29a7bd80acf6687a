import Hypertext.Proofs.Text.Words

/-!
# The normal form of spacing

What the words of a text are is said here by the text itself: blanks are left out one by one, and
a word reaches as far as there is no blank. Normalized texts are the same exactly if the words
are, and a normalized text has a blank only where one word ends and the next one starts.
-/

namespace Hypertext.Text

set_option autoImplicit false

/-- A run of characters that are not blank. -/
structure IsWord (w : Text) : Prop where
  ne_nil : w ≠ []
  not_isBlank : ∀ c ∈ w, isBlank c = false

/-- The maximal runs of characters that are not blank, in their order. -/
inductive HasWords : Text → List Text → Prop where
  | nil : HasWords [] []
  | blank {c : Char} {t : Text} {ws : List Text} (hc : isBlank c = true) (ht : HasWords t ws) :
      HasWords (c :: t) ws
  | word {w t : Text} {ws : List Text} (hw : IsWord w) (hend : ∀ c ∈ t.head?, isBlank c = true)
      (ht : HasWords t ws) : HasWords (w ++ t) (w :: ws)

/-- Parts of a text that reach up to the end of one of its words and from the next word on. -/
def StandsBetweenWords (t before after : Text) : Prop :=
  ∃ (left : List Text) (w next : Text) (right : List Text),
    HasWords t (left ++ w :: next :: right) ∧
      HasWords before (left ++ [w]) ∧ w <:+ before ∧
      HasWords after (next :: right) ∧ next <+: after

/-! ## Words read off -/

theorem words_append_of_head {s t : Text} (h : ∀ c ∈ t.head?, isBlank c = true) :
    words (s ++ t) = s.words ++ t.words := by
  cases t with
  | nil =>
    rw [List.append_nil]
    exact (List.append_nil _).symm
  | cons c t =>
    have hc := h c rfl
    have ht := words_append_cons hc [] t
    rw [words_append_cons hc]
    exact congrArg (s.words ++ ·) ht.symm

theorem IsWord.words_eq {w : Text} (h : IsWord w) : w.words = [w] := by
  rw [words, pieces_eq_splitOnP, List.splitOnP_eq_singleton h.not_isBlank]
  exact List.filter_cons_of_pos (by simpa using h.ne_nil)

/-- A word that has started goes on up to the next blank. -/
theorem isWord_cons_takeWhile {c : Char} (hc : isBlank c = false) (t : Text) :
    IsWord (c :: t.takeWhile fun d => !isBlank d) := by
  refine ⟨List.cons_ne_nil _ _, List.forall_mem_cons.mpr ⟨hc, ?_⟩⟩
  intro d hd
  simpa using List.mem_takeWhile_imp hd

section Reading
variable {t : Text} {ws : List Text}

theorem HasWords.words_eq (h : HasWords t ws) : t.words = ws := by
  induction h with
  | nil => rfl
  | @blank c t ws hc _ ih =>
    rw [← ih]
    exact words_append_cons hc [] t
  | word hw hend _ ih => rw [words_append_of_head hend, hw.words_eq, ih, List.singleton_append]

theorem HasWords.isWord (h : HasWords t ws) : ∀ w ∈ ws, IsWord w := by
  induction h with
  | nil => simp
  | blank _ _ ih => exact ih
  | word hw _ _ ih => exact List.forall_mem_cons.mpr ⟨hw, ih⟩

theorem exists_hasWords (t : Text) : ∃ ws, HasWords t ws := by
  induction hn : t.length using Nat.strong_induction_on generalizing t with
  | _ n ih =>
    cases t with
    | nil => exact ⟨[], .nil⟩
    | cons c t =>
      rw [List.length_cons] at hn
      cases hc : isBlank c with
      | true =>
        obtain ⟨ws, ht⟩ := ih t.length (by omega) t rfl
        exact ⟨ws, .blank hc ht⟩
      | false =>
        have hsplit := List.takeWhile_append_dropWhile (p := fun d => !isBlank d) (l := t)
        have hend : ∀ d ∈ (t.dropWhile fun d => !isBlank d).head?, isBlank d = true := by
          intro d hd
          simpa using of_mem_head?_dropWhile hd
        have hle := (List.dropWhile_suffix (l := t) fun d => !isBlank d).length_le
        obtain ⟨ws, hrest⟩ := ih _ (by omega) (t.dropWhile fun d => !isBlank d) rfl
        have hwhole := HasWords.word (isWord_cons_takeWhile hc t) hend hrest
        rw [List.cons_append, hsplit] at hwhole
        exact ⟨_, hwhole⟩

theorem hasWords_words (t : Text) : HasWords t t.words := by
  obtain ⟨ws, h⟩ := exists_hasWords t
  rwa [h.words_eq]

theorem hasWords_iff : HasWords t ws ↔ t.words = ws := by
  constructor
  · exact HasWords.words_eq
  · rintro rfl
    exact hasWords_words t

theorem isWord_of_mem_words : ∀ w ∈ t.words, IsWord w :=
  (hasWords_words t).isWord

end Reading

/-! ## Words joined by spaces -/

section Spaces
variable {ws : List Text} (h : ∀ w ∈ ws, IsWord w)
include h

theorem words_joinWith : words (joinWith [' '] ws) = ws := by
  induction ws with
  | nil => rfl
  | cons w ws ih =>
    obtain ⟨hw, hws⟩ := List.forall_mem_cons.mp h
    by_cases hlast : ws = []
    · subst hlast
      rw [joinWith_singleton, hw.words_eq]
    · rw [joinWith_cons [' '] w hlast, List.singleton_append, words_append_cons (by decide),
        hw.words_eq, ih hws, List.singleton_append]

/-- A blank among joined words is one of the spaces that join them. -/
theorem exists_of_joinWith_eq {before after : Text} {c : Char} (hc : isBlank c = true)
    (heq : joinWith [' '] ws = before ++ c :: after) :
    c = ' ' ∧ ∃ (left : List Text) (w next : Text) (right : List Text),
      ws = left ++ w :: next :: right ∧
        before = joinWith [' '] (left ++ [w]) ∧ after = joinWith [' '] (next :: right) := by
  induction ws generalizing before with
  | nil => simp [joinWith] at heq
  | cons w ws ih =>
    obtain ⟨hw, hws⟩ := List.forall_mem_cons.mp h
    have hnot : c ∉ w := by
      intro hmem
      have hcw := hw.not_isBlank c hmem
      rw [hc] at hcw
      cases hcw
    cases ws with
    | nil =>
      rw [joinWith_singleton] at heq
      exact absurd (by simp [heq]) hnot
    | cons next ws =>
      rw [joinWith_cons [' '] w (List.cons_ne_nil next ws), List.singleton_append] at heq
      -- the word has no blank, so all of it stands before the one at hand
      obtain ⟨gap, rfl⟩ := (prefix_append_cons_iff hnot before after).mp ⟨_, heq⟩
      rw [List.append_assoc, List.append_cancel_left_eq] at heq
      cases gap with
      | nil =>
        obtain ⟨rfl, hafter⟩ := List.cons.inj heq
        refine ⟨rfl, [], w, next, ws, rfl, ?_, hafter.symm⟩
        rw [List.append_nil, List.nil_append, joinWith_singleton]
      | cons space gap =>
        obtain ⟨rfl, hlater⟩ := List.cons.inj heq
        obtain ⟨hspace, left, v, follower, right, hparts, hgap, hafter⟩ := ih hws hlater
        have hne : left ++ [v] ≠ [] := by simp
        refine ⟨hspace, w :: left, v, follower, right, by rw [hparts, List.cons_append], ?_, hafter⟩
        rw [List.cons_append, joinWith_cons [' '] w hne, List.singleton_append, hgap]

end Spaces

/-! ## Normalized texts -/

theorem words_normalize (t : Text) : t.normalize.words = t.words :=
  words_joinWith isWord_of_mem_words

theorem normalize_eq_iff {s t : Text} : s.normalize = t.normalize ↔ s.words = t.words := by
  constructor
  · intro h
    rw [← words_normalize s, h, words_normalize t]
  · exact congrArg (joinWith [' '])

theorem eq_space_of_normalize_eq {t before after : Text} {c : Char}
    (h : t.normalize = before ++ c :: after) (hc : isBlank c = true) :
    c = ' ' ∧ StandsBetweenWords t before after := by
  obtain ⟨rfl, left, w, next, right, hwords, rfl, rfl⟩ :=
    exists_of_joinWith_eq isWord_of_mem_words hc h
  have hall : ∀ v ∈ left ++ w :: next :: right, IsWord v := by
    rw [← hwords]
    exact isWord_of_mem_words
  rw [List.append_cons] at hall
  obtain ⟨hleft, hright⟩ := List.forall_mem_append.mp hall
  refine ⟨rfl, left, w, next, right, hasWords_iff.mpr hwords, ?_, ?_, ?_, ?_⟩
  · exact hasWords_iff.mpr (words_joinWith hleft)
  · exact suffix_joinWith_concat [' '] left w
  · exact hasWords_iff.mpr (words_joinWith hright)
  · exact prefix_joinWith_cons [' '] next right

/-- Normalized texts are the same exactly if the words are. The blanks of a normalized text are
single spaces, each directly behind a word and directly before the next one; normalizing again
changes nothing, nor does it matter whether two texts are normalized before they are put together
with a space between them. -/
theorem normalize_normal_form (s t : Text) :
    (s.normalize = t.normalize ↔ ∃ ws, HasWords s ws ∧ HasWords t ws) ∧
      (∀ (before : Text) (c : Char) (after : Text), s.normalize = before ++ c :: after →
        isBlank c = true → c = ' ' ∧ StandsBetweenWords s before after) ∧
      s.normalize.normalize = s.normalize ∧
      normalize (s ++ ' ' :: t) = normalize (s.normalize ++ ' ' :: t.normalize) := by
  refine ⟨?_, ?_, ?_, ?_⟩
  · rw [normalize_eq_iff]
    constructor
    · intro h
      exact ⟨s.words, hasWords_words s, hasWords_iff.mpr h.symm⟩
    · rintro ⟨ws, hs, ht⟩
      rw [hs.words_eq, ht.words_eq]
  · intro before c after h hc
    exact eq_space_of_normalize_eq h hc
  · exact normalize_eq_iff.mpr (words_normalize s)
  · have hspace : isBlank ' ' = true := by decide
    rw [normalize_eq_iff, words_append_cons hspace, words_append_cons hspace, words_normalize,
      words_normalize]

/-- A vertical tab and a no-break space belong to the words. -/
theorem normalize_normal_form_look_alikes :
    (normalize " a\x0b\n\t b\u00a0c\r".toList = "a\x0b".toList ++ ' ' :: "b\u00a0c".toList ∧
      isBlank ' ' = true) ∧
    StandsBetweenWords " a\x0b\n\t b\u00a0c\r".toList "a\x0b".toList "b\u00a0c".toList ∧
    ∃ ws, HasWords " a\x0b\n\t b\u00a0c\r".toList ws ∧ HasWords "a\x0b\x0cb\u00a0c".toList ws := by
  have hnormal : normalize " a\x0b\n\t b\u00a0c\r".toList =
      "a\x0b".toList ++ ' ' :: "b\u00a0c".toList := by decide
  have hblank : isBlank ' ' = true := by decide
  obtain ⟨hsame, hgap, -, -⟩ :=
    normalize_normal_form " a\x0b\n\t b\u00a0c\r".toList "a\x0b\x0cb\u00a0c".toList
  exact ⟨⟨hnormal, hblank⟩, (hgap _ _ _ hnormal hblank).2, hsame.mp (by decide)⟩

end Hypertext.Text
