import Hypertext.Template.Piece
import Hypertext.Proofs.Template.Numeral

/-!
# Program text and its pieces

Whatever the text is, the pieces that it is cut into are written as they stand in it, one behind
the other, and only white space stands between them.
-/

namespace Hypertext.CallText

set_option autoImplicit false

section Start
variable {s : Text} {r : Reading Piece}

/-- A piece of at least one character that is written as the text starts. -/
structure Reading.IsStart (r : Reading Piece) (s : Text) : Prop where
  pos : 0 < r.length
  le_length : r.length ≤ s.length
  written_eq : r.value.written = s.take r.length

theorem le_literalLength (s : Text) (n : Nat) : n ≤ literalLength s n :=
  Nat.le_add_right n _

theorem isStart_literalOf {n : Nat} (hpos : 0 < n) (hle : n ≤ s.length) :
    (literalOf s n).IsStart s where
  pos := Nat.lt_of_lt_of_le hpos (le_literalLength s n)
  le_length := literalLength_le_length hle
  written_eq := rfl

theorem isStart_stringOf {start : Nat} {body : Reading Text} (hpos : 0 < start)
    (hle : start + body.length ≤ s.length) : (stringOf s start body).IsStart s where
  pos := Nat.lt_of_lt_of_le (Nat.add_pos_left hpos _) (le_literalLength s _)
  le_length := literalLength_le_length hle
  written_eq := rfl

theorem isStart_of_literal? (h : literal? s = some r) : r.IsStart s := by
  unfold literal? at h
  split at h
  · obtain ⟨body, hbody, rfl⟩ := Option.map_eq_some_iff.mp h
    have hle := length_le_of_quoted? hbody
    exact isStart_stringOf Nat.one_pos (by simp only [List.length_cons]; omega)
  · obtain ⟨body, hbody, rfl⟩ := Option.map_eq_some_iff.mp h
    have hle := length_le_of_raw? hbody
    exact isStart_stringOf Nat.one_pos (by simp only [List.length_cons]; omega)
  · obtain ⟨body, hbody, rfl⟩ := Option.map_eq_some_iff.mp h
    have hle := length_le_of_quoted? hbody
    exact isStart_literalOf (Nat.succ_pos _) (Nat.add_le_add_right hle 2)
  · obtain ⟨body, hbody, rfl⟩ := Option.map_eq_some_iff.mp h
    have hle := length_le_of_raw? hbody
    exact isStart_literalOf (Nat.succ_pos _) (Nat.add_le_add_right hle 2)
  · obtain ⟨n, hn, rfl⟩ := Option.map_eq_some_iff.mp h
    have hle := le_length_of_singleLength? hn
    exact isStart_literalOf (Nat.succ_pos _) (Nat.add_le_add_right hle 2)
  · obtain ⟨n, hn, rfl⟩ := Option.map_eq_some_iff.mp h
    have hle := le_length_of_singleLength? hn
    exact isStart_literalOf (Nat.succ_pos _) (Nat.add_le_add_right hle 1)
  · obtain ⟨n, hn, rfl⟩ := Option.map_eq_some_iff.mp h
    exact isStart_literalOf (pos_of_numeralLength? hn) (le_length_of_numeralLength? hn)

theorem isStart_of_label? (h : label? s = some r) : r.IsStart s := by
  unfold label? at h
  split at h
  · next s =>
    obtain ⟨-, hr⟩ := Option.ite_none_left_eq_some.mp h
    rw [← Option.some.inj hr]
    exact ⟨Nat.succ_pos _, Nat.succ_le_succ wordLength_le_length, rfl⟩
  · cases h

theorem isStart_of_mark? (h : mark? s = some r) : r.IsStart s := by
  unfold mark? at h
  split at h
  · cases h
  · obtain ⟨-, h⟩ := Option.ite_none_left_eq_some.mp h
    obtain ⟨-, hr⟩ := Option.ite_none_right_eq_some.mp h
    rw [← Option.some.inj hr]
    exact ⟨Nat.one_pos, Nat.succ_le_succ (Nat.zero_le _), rfl⟩

theorem isStart_of_word? (h : word? s = some r) : r.IsStart s := by
  unfold word? at h
  obtain ⟨-, h⟩ := Option.ite_none_left_eq_some.mp h
  split at h
  · next t =>
    obtain ⟨-, hr⟩ := Option.ite_none_left_eq_some.mp h
    rw [← Option.some.inj hr]
    exact ⟨Nat.succ_pos _, Nat.add_le_add_right wordLength_le_length 2, rfl⟩
  · obtain ⟨hword, hr⟩ := Option.ite_none_left_eq_some.mp h
    rw [← Option.some.inj hr]
    exact ⟨Nat.pos_of_ne_zero hword, wordLength_le_length, rfl⟩

theorem isStart_of_piece? (h : piece? s = some r) : r.IsStart s := by
  simp only [piece?, Option.orElse_eq_orElse, Option.orElse_eq_or, Option.or_eq_some_iff] at h
  rcases h with h | ⟨-, h | ⟨-, h | ⟨-, h⟩⟩⟩
  · exact isStart_of_literal? h
  · exact isStart_of_label? h
  · exact isStart_of_mark? h
  · exact isStart_of_word? h

end Start

section Spelling

/-- A text that is spelled by pieces: each piece where it is read as it is written, with white
space anywhere in front of pieces and behind the last one. -/
inductive Spells : List Piece → Text → Prop where
  | nil : Spells [] []
  | separator {c : Char} {pieces : List Piece} {s : Text} :
      isSeparator c = true → Spells pieces s → Spells pieces (c :: s)
  | piece {c : Char} {first : Piece} {tail s : Text} {pieces : List Piece} :
      first.written = c :: tail → isSeparator c = false →
      piece? (first.written ++ s) = some ⟨first, first.written.length⟩ →
      Spells pieces s → Spells (first :: pieces) (first.written ++ s)

theorem spells_of_pieces? {s : Text} {pieces : List Piece} (h : pieces? s = some pieces) :
    Spells pieces s := by
  fun_induction pieces? s generalizing pieces with
  | case1 =>
    obtain rfl := Option.some.inj h
    exact .nil
  | case2 c s hseparator ih => exact .separator hseparator (ih h)
  | case3 c s hseparator ih =>
    obtain ⟨first, hfirst, h⟩ := Option.bind_eq_some_iff.mp h
    obtain ⟨rest, hrest, hpieces⟩ := Option.bind_eq_some_iff.mp h
    obtain rfl := Option.some.inj hpieces
    obtain ⟨hpos, hle, hwritten⟩ := isStart_of_piece? hfirst
    -- The rest is taken from behind `c`, so of the piece one character less is dropped.
    have hwritten : first.value.written = c :: s.take (first.length - 1) := by
      rw [hwritten, List.take_cons hpos]
    have hlength : first.value.written.length = first.length := by
      rw [List.length_cons] at hle
      rw [hwritten, List.length_cons, List.length_take]
      omega
    have htext : first.value.written ++ s.drop (first.length - 1) = c :: s := by
      rw [hwritten, List.cons_append, List.take_append_drop]
    rw [← htext]
    refine .piece hwritten (Bool.eq_false_iff.mpr hseparator) ?_ (ih first hrest)
    rw [htext, hfirst, hlength]

theorem Spells.pieces?_eq_some {s : Text} {pieces : List Piece} (h : Spells pieces s) :
    pieces? s = some pieces := by
  induction h with
  | nil => rw [pieces?]
  | separator hc _ ih => rw [pieces?, if_pos hc, ih]
  | @piece c first tail s pieces hwritten hc hfirst _ ih =>
    rw [hwritten, List.cons_append] at hfirst ⊢
    rw [pieces?, if_neg (Bool.eq_false_iff.mp hc), hfirst]
    simp [ih]

/-- The pieces of a text are those that spell it. -/
theorem pieces?_eq_some_iff {s : Text} {pieces : List Piece} :
    pieces? s = some pieces ↔ Spells pieces s :=
  ⟨spells_of_pieces?, Spells.pieces?_eq_some⟩

/-- No character but white space is lost where a text is cut into pieces. -/
theorem Spells.filter_not_isSeparator {s : Text} {pieces : List Piece} (h : Spells pieces s) :
    (pieces.flatMap Piece.written).filter (fun c => !isSeparator c) =
      s.filter fun c => !isSeparator c := by
  induction h with
  | nil => rfl
  | separator hc _ ih => rw [ih, List.filter_cons_of_neg (by simp [hc])]
  | piece _ _ _ _ ih => rw [List.flatMap_cons, List.filter_append, List.filter_append, ih]

end Spelling

end Hypertext.CallText
