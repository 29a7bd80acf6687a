import Hypertext.Text.Words
import Hypertext.Proofs.Text.Reference

/-!
# Laws of words

A blank ends the word before it and belongs to none, and no reference reaches over it. So what
stands on the two sides of a blank is seen apart, and two texts that show the same words
wherever they stand can be put for each other.
-/

namespace Hypertext.Text

set_option autoImplicit false

theorem pieces_eq_splitOnP (p : Char → Bool) (t : Text) : t.pieces p = t.splitOnP p := by
  induction t with
  | nil =>
    rw [List.splitOnP_nil]
    rfl
  | cons c t ih =>
    obtain ⟨run, runs, hruns⟩ := List.exists_cons_of_ne_nil (List.splitOnP_ne_nil p t)
    rw [pieces, ih, List.splitOnP_cons_eq_if_modifyHead, hruns]
    rfl

theorem words_append_cons {c : Char} (h : isBlank c = true) (s t : Text) :
    words (s ++ c :: t) = s.words ++ t.words := by
  simp only [words, pieces_eq_splitOnP]
  rw [List.splitOnP_append_cons s t h, List.filter_append]

theorem ne_nil_of_mem_words {word t : Text} (h : word ∈ t.words) : word ≠ [] := by
  have hkept := (List.mem_filter.mp h).2
  simpa using hkept

/-! ## Joined texts -/

section Join
variable {separator : Text} {ts us : List Text}

theorem joinWith_append (ht : ts ≠ []) (hu : us ≠ []) :
    joinWith separator (ts ++ us) =
      joinWith separator ts ++ (separator ++ joinWith separator us) := by
  induction ts with
  | nil => exact absurd rfl ht
  | cons t ts ih =>
    by_cases hts : ts = []
    · subst hts
      rw [List.singleton_append, joinWith_cons separator t hu, joinWith_singleton]
    · have hwhole : ts ++ us ≠ [] := List.append_ne_nil_of_left_ne_nil hts us
      rw [List.cons_append, joinWith_cons separator t hwhole, ih hts, joinWith_cons separator t hts]
      simp only [List.append_assoc]

theorem prefix_joinWith_cons (separator t : Text) (ts : List Text) :
    t <+: joinWith separator (t :: ts) := by
  by_cases hts : ts = []
  · subst hts
    rw [joinWith_singleton]
  · rw [joinWith_cons separator t hts]
    exact List.prefix_append _ _

theorem suffix_joinWith_concat (separator : Text) (ts : List Text) (t : Text) :
    t <:+ joinWith separator (ts ++ [t]) := by
  by_cases hts : ts = []
  · subst hts
    rw [List.nil_append, joinWith_singleton]
  · rw [joinWith_append hts (List.cons_ne_nil t []), joinWith_singleton, ← List.append_assoc]
    exact List.suffix_append _ _

theorem joinWith_eq_nil_iff (h : ∀ t ∈ ts, t ≠ []) : joinWith separator ts = [] ↔ ts = [] := by
  constructor
  · intro hnil
    cases ts with
    | nil => rfl
    | cons t ts =>
      have hbegins := prefix_joinWith_cons separator t ts
      rw [hnil, List.prefix_nil] at hbegins
      exact absurd hbegins (h t List.mem_cons_self)
  · rintro rfl
    rfl

/-- Lists are joined one by one and then together as if all at once, the empty ones left out. -/
theorem joinWith_flatten {lists : List (List Text)} (h : ∀ t ∈ lists.flatten, t ≠ []) :
    joinWith separator lists.flatten =
      joinWith separator ((lists.map (joinWith separator)).filter fun t => !t.isEmpty) := by
  induction lists with
  | nil => rfl
  | cons ts lists ih =>
    rw [List.flatten_cons, List.forall_mem_append] at h
    obtain ⟨hts, hlists⟩ := h
    by_cases hempty : ts = []
    · subst hempty
      exact ih hlists
    · have hjoined : joinWith separator ts ≠ [] := mt (joinWith_eq_nil_iff hts).mp hempty
      have hkept : ∀ t ∈ (lists.map (joinWith separator)).filter (fun t => !t.isEmpty),
          t ≠ [] := by
        intro t ht
        simpa using (List.mem_filter.mp ht).2
      have hnil : lists.flatten = [] ↔
          (lists.map (joinWith separator)).filter (fun t => !t.isEmpty) = [] := by
        rw [← joinWith_eq_nil_iff hlists, ih hlists, joinWith_eq_nil_iff hkept]
      rw [List.flatten_cons, List.map_cons, List.filter_cons_of_pos (by simpa using hjoined)]
      by_cases hrest : lists.flatten = []
      · rw [hnil.mp hrest, hrest, List.append_nil, joinWith_singleton]
      · rw [joinWith_append hempty hrest, ih hlists, joinWith_cons _ _ (mt hnil.mpr hrest)]

end Join

/-! ## Shown words -/

/-- The words that a text shows once its references are decoded. -/
def shownWords (t : Text) : List Text :=
  t.decode.words

theorem shownWords_nil : shownWords [] = [] := by
  rw [shownWords, decode_eq_substitute, substitute_nil]
  rfl

theorem shownWords_append_cons {c : Char} (h : isBlank c = true) (s t : Text) :
    shownWords (s ++ c :: t) = s.shownWords ++ t.shownWords := by
  rw [shownWords, decode_append_cons h, words_append_cons h]
  rfl

theorem shownWords_cons {c : Char} (h : isBlank c = true) (t : Text) :
    shownWords (c :: t) = t.shownWords := by
  have hwords := shownWords_append_cons h [] t
  rwa [shownWords_nil, List.nil_append] at hwords

theorem shownWords_blank_append {blanks : Text} (h : blanks.IsBlank) (t : Text) :
    shownWords (blanks ++ t) = t.shownWords := by
  induction blanks with
  | nil => rfl
  | cons c blanks ih =>
    obtain ⟨hc, hblanks⟩ := List.forall_mem_cons.mp h
    rw [List.cons_append, shownWords_cons hc, ih hblanks]

theorem shownWords_append_blank {blanks : Text} (hne : blanks ≠ []) (h : blanks.IsBlank)
    (s t : Text) : shownWords (s ++ (blanks ++ t)) = s.shownWords ++ t.shownWords := by
  obtain ⟨c, rest, rfl⟩ := List.exists_cons_of_ne_nil hne
  obtain ⟨hc, hrest⟩ := List.forall_mem_cons.mp h
  rw [List.cons_append, shownWords_append_cons hc, shownWords_blank_append hrest]

/-- The same words are to be seen with the one text as with the other, whatever is around. -/
def ShowsLike (s t : Text) : Prop :=
  ∀ before after : Text,
    shownWords (before ++ (s ++ after)) = shownWords (before ++ (t ++ after))

namespace ShowsLike
variable {s t u v : Text}

theorem refl (t : Text) : ShowsLike t t :=
  fun _ _ => rfl

theorem append (hst : ShowsLike s t) (huv : ShowsLike u v) : ShowsLike (s ++ u) (t ++ v) := by
  intro before after
  calc shownWords (before ++ (s ++ u ++ after))
    _ = shownWords (before ++ (s ++ (u ++ after))) := by rw [List.append_assoc]
    _ = shownWords (before ++ (t ++ (u ++ after))) := hst before (u ++ after)
    _ = shownWords (before ++ t ++ (u ++ after)) := by rw [List.append_assoc]
    _ = shownWords (before ++ t ++ (v ++ after)) := huv (before ++ t) after
    _ = shownWords (before ++ (t ++ v ++ after)) := by simp only [List.append_assoc]

theorem shownWords_eq (h : ShowsLike s t) : s.shownWords = t.shownWords := by
  have hwords := h [] []
  simpa using hwords

/-- How many blanks there are, and which, makes no difference as long as there is one. -/
theorem of_isBlank (hs : s.IsBlank) (ht : t.IsBlank) (hsne : s ≠ []) (htne : t ≠ []) :
    ShowsLike s t := by
  intro before after
  rw [shownWords_append_blank hsne hs, shownWords_append_blank htne ht]

end ShowsLike

end Hypertext.Text
