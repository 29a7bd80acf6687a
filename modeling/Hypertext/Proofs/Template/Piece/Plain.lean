import Hypertext.Proofs.Template.Piece

/-!
# Pieces in plain spelling

Words, decimal numerals, quoted texts, labels and marks are read off their own spelling in front
of whatever they do not go on with. So pieces that are written with a space between them, but
none inside parentheses next to these, are read back.
-/

namespace Hypertext.CallText

set_option autoImplicit false

/-- What no plain piece goes on with: no part of a word and none of the marks that make a literal,
a label or a comment of what stands in front of them. -/
def Stops (rest : Text) : Prop :=
  ∀ c ∈ rest.head?, isIdentifierPart c = false ∧ c ∉ ['"', '\'', '#', '.', '/', '*']

theorem stops_nil : Stops [] := by
  intro c hc
  cases hc

theorem stops_cons {c : Char} (h : c ∈ [' ', ')', ',']) (s : Text) : Stops (c :: s) := by
  have htable : ∀ d ∈ [' ', ')', ','], (d.toNat < 0x80 ∧ (d.isAlphanum || d == '_') = false) ∧
      d ∉ ['"', '\'', '#', '.', '/', '*'] := by simp
  intro d hd
  obtain rfl := Option.some.inj hd
  exact ⟨isIdentifierPart_eq_false (htable c h).1, (htable c h).2⟩

namespace Stops
variable {rest : Text} (h : Stops rest)
include h

theorem isIdentifierPart : ∀ c ∈ rest.head?, isIdentifierPart c = false := fun c hc => (h c hc).1

theorem head?_ne {c : Char} (hc : c ∈ ['"', '\'', '#', '.', '/', '*']) : rest.head? ≠ some c :=
  fun hhead => (h c hhead).2 hc

end Stops

section Characters
variable {c : Char}

theorem forall_isIdentifierPart {run : Text} (h : run.all Char.isAlpha = true) :
    ∀ c ∈ run, isIdentifierPart c = true := fun c hc =>
  isIdentifierPart_of_isAlpha (List.all_eq_true.mp h c hc)

theorem isIdentifierPart_of_isSeparator (h : isSeparator c = true) :
    isIdentifierPart c = false := by
  rcases Bool.or_eq_true_iff.mp h with h | hmark
  · rcases Bool.or_eq_true_iff.mp h with hspace | hmark
    · exact isIdentifierPart_of_isSpace hspace
    · rw [beq_iff_eq.mp hmark]
      decide +kernel
  · rw [beq_iff_eq.mp hmark]
    decide +kernel

theorem isSeparator_of_isIdentifierPart (h : isIdentifierPart c = true) :
    isSeparator c = false := by
  rw [← Bool.not_eq_true]
  intro hseparator
  rw [isIdentifierPart_of_isSeparator hseparator] at h
  cases h

theorem isDigit_of_isWordStart (h : isWordStart c = true) : c.isDigit = false := by
  rw [← Bool.not_eq_true]
  intro hdigit
  have hrange := toNat_of_isDigit hdigit
  rw [isWordStart, isIdentifierStart_eq_isAlpha (by omega)] at h
  rcases Bool.or_eq_true_iff.mp h with hscore | halpha
  · rw [beq_iff_eq.mp hscore] at hdigit
    revert hdigit
    decide
  · have hletter := toNat_of_isAlpha halpha
    omega

theorem range_of_isMark (h : isMark c = true) : 0x20 < c.toNat ∧ c.toNat < 0x80 := by
  have htable : ∀ d, isMark d = true → 0x20 < d.toNat ∧ d.toNat < 0x80 := by simp [isMark]
  exact htable c h

theorem isIdentifierPart_of_isMark (h : isMark c = true) : isIdentifierPart c = false := by
  have htable : ∀ d, isMark d = true → (d.isAlphanum || d == '_') = false := by simp [isMark]
  exact isIdentifierPart_eq_false ⟨(range_of_isMark h).2, htable c h⟩

theorem isSeparator_of_isMark (h : isMark c = true) : isSeparator c = false := by
  have hrange := range_of_isMark h
  rw [← Bool.not_eq_true]
  intro hseparator
  rcases Bool.or_eq_true_iff.mp hseparator with hseparator | hmark
  · rcases Bool.or_eq_true_iff.mp hseparator with hspace | hmark
    · simp only [isSpace, isWithin, spaceRanges, List.any_cons, List.any_nil, Bool.or_eq_true,
        Bool.and_eq_true, decide_eq_true_eq, Bool.or_false] at hspace
      omega
    · rw [beq_iff_eq.mp hmark] at hrange
      exact absurd hrange.2 (by decide)
  · rw [beq_iff_eq.mp hmark] at hrange
    exact absurd hrange.2 (by decide)

end Characters

section Words
variable {w rest : Text}

theorem IsWord.length_ne_zero (hw : IsWord w) : w.length ≠ 0 := by
  obtain ⟨c, tail, rfl, -, -⟩ := hw
  exact Nat.succ_ne_zero _

theorem IsWord.isIdentifierPart_of_append (hw : IsWord w) {c : Char} {t : Text}
    (h : w ++ rest = c :: t) : isIdentifierPart c = true := by
  obtain ⟨d, tail, rfl, hd, -⟩ := hw
  obtain ⟨rfl, -⟩ := List.cons.inj h
  exact isIdentifierPart_of_isWordStart hd

/-- Behind the letters at the start of a word comes no quote and no number sign. -/
theorem IsWord.not_quoted (hw : IsWord w) (hrest : Stops rest) {run more : Text} {q : Char}
    (hrun : ∀ c ∈ run, isIdentifierPart c = true) (h : w ++ rest = run ++ q :: more) :
    q ∉ ['"', '\'', '#'] := by
  intro hq
  have htable : ∀ d ∈ ['"', '\'', '#'], d.toNat < 0x80 ∧ (d.isAlphanum || d == '_') = false := by
    simp
  have hpart := isIdentifierPart_eq_false (htable q hq)
  have hword : ∀ c ∈ w, isIdentifierPart c = true := by
    obtain ⟨c, tail, rfl, hc, htail⟩ := hw
    exact List.forall_mem_cons.mpr ⟨isIdentifierPart_of_isWordStart hc, htail⟩
  -- Without what identifiers are made of, `rest` is left on one side and `q` on the other.
  have hdrop := congrArg (List.dropWhile isIdentifierPart) h
  rw [Text.dropWhile_append_of_head hword hrest.isIdentifierPart,
    Text.dropWhile_append_of_head hrun (by simpa using hpart)] at hdrop
  apply hrest.head?_ne (List.mem_append_left ['.', '/', '*'] hq)
  rw [hdrop, List.head?_cons]

/-- Every literal that looks like a word has a quote or a number sign behind its letters. -/
theorem IsWord.any_literalStarts (hw : IsWord w) (hrest : Stops rest) :
    literalStarts.any (·.isPrefixOf (w ++ rest)) = false := by
  apply List.any_eq_false.mpr
  intro start hstart hprefix
  obtain ⟨more, hmore⟩ := List.isPrefixOf_iff_prefix.mp hprefix
  have htable : ∀ start ∈ literalStarts, ((start.dropWhile Char.isAlpha).head?.any
      fun q => q ∈ ['"', '\'', '#']) = true := by decide +kernel
  obtain ⟨q, hhead, hq⟩ := (Option.any_eq_true _ _).mp (htable start hstart)
  obtain ⟨tail, htail⟩ := List.head?_eq_some_iff.mp hhead
  have hrun : ∀ c ∈ start.takeWhile Char.isAlpha, isIdentifierPart c = true := fun c hc =>
    isIdentifierPart_of_isAlpha (List.mem_takeWhile_imp hc)
  refine hw.not_quoted hrest hrun (?_ : _ = _ ++ q :: (tail ++ more)) (of_decide_eq_true hq)
  rw [← List.cons_append, ← htail, ← List.append_assoc, List.takeWhile_append_dropWhile, hmore]

theorem IsWord.raw?_eq_none (hw : IsWord w) (hrest : Stops rest) {run t : Text}
    (hrun : ∀ c ∈ run, isIdentifierPart c = true) (h : w ++ rest = run ++ t)
    (kind : LiteralKind) : raw? kind t = none := by
  cases t with
  | nil => rfl
  | cons q t =>
    have hq := hw.not_quoted hrest hrun h
    simp only [List.mem_cons, List.not_mem_nil, or_false, not_or] at hq
    simp [raw?, hq]

theorem IsWord.literal?_eq_none (hw : IsWord w) (hrest : Stops rest) :
    literal? (w ++ rest) = none := by
  have hnil : ∀ c ∈ [], isIdentifierPart c = true := forall_isIdentifierPart rfl
  have hr : ∀ c ∈ ['r'], isIdentifierPart c = true := forall_isIdentifierPart rfl
  have hb : ∀ c ∈ ['b'], isIdentifierPart c = true := forall_isIdentifierPart rfl
  have hbr : ∀ c ∈ ['b', 'r'], isIdentifierPart c = true := forall_isIdentifierPart rfl
  unfold literal?
  split
  · next ht => exact absurd List.mem_cons_self (hw.not_quoted hrest hnil ht)
  · next ht => rw [hw.raw?_eq_none hrest hr ht, Option.map_none]
  · next ht => exact absurd List.mem_cons_self (hw.not_quoted hrest hb ht)
  · next ht => rw [hw.raw?_eq_none hrest hbr ht, Option.map_none]
  · next ht => exact absurd (by simp) (hw.not_quoted hrest hb ht)
  · next ht => exact absurd (by simp) (hw.not_quoted hrest hnil ht)
  · have hhead : ¬ (w ++ rest).head?.any Char.isDigit = true := by
      obtain ⟨c, tail, rfl, hc, -⟩ := hw
      simp [isDigit_of_isWordStart hc]
    rw [numeralLength?, if_neg hhead, Option.map_none]

theorem IsWord.word?_append (hw : IsWord w) (hrest : Stops rest) :
    word? (w ++ rest) = some ⟨.word w, w.length⟩ := by
  unfold word?
  rw [if_neg (Bool.eq_false_iff.mp (hw.any_literalStarts hrest))]
  split
  · next t ht =>
    have hr : ∀ c ∈ ['r'], isIdentifierPart c = true := forall_isIdentifierPart rfl
    exact absurd (by simp) (hw.not_quoted hrest hr ht)
  · rw [hw.wordLength_append hrest.isIdentifierPart, if_neg hw.length_ne_zero, List.take_left]

end Words

section Plain
variable {p : Piece} {c : Char} {s rest : Text}

theorem label?_eq_none (h : c ≠ '\'') : label? (c :: s) = none := by
  unfold label?
  split
  · next ht => exact absurd (List.cons.inj ht).1 h
  · rfl

theorem mark?_eq_none (h : isIdentifierPart c = true) : mark? (c :: s) = none := by
  have hslash : c ≠ '/' := by
    rintro rfl
    rw [isIdentifierPart_of_isMark rfl] at h
    cases h
  have hmark : ¬ isMark c = true := fun hmark => by
    rw [isIdentifierPart_of_isMark hmark] at h
    cases h
  rw [mark?, if_neg fun h => hslash h.1, if_neg hmark]

theorem literal?_of_notMem (h : c ∉ ['"', 'r', 'b', '\'']) :
    literal? (c :: s) = (numeralLength? (c :: s)).map (literalOf (c :: s)) := by
  rw [literal?]
  all_goals
    intro t ht
    apply h
    rw [(List.cons.inj ht).1]
    simp

theorem piece?_mark (hc : isMark c = true)
    (h : c = '/' → s.head? ≠ some '/' ∧ s.head? ≠ some '*') :
    piece? (c :: s) = some ⟨.mark c, 1⟩ := by
  have htable : ∀ d, isMark d = true → d ∉ ['"', 'r', 'b', '\''] ∧ d.isDigit = false := by
    simp [isMark]
  obtain ⟨hliteral, hdigit⟩ := htable c hc
  have hnumeral : numeralLength? (c :: s) = none := by
    rw [numeralLength?, if_neg (by simp [hdigit])]
  have hquote : c ≠ '\'' := by
    rintro rfl
    simp at hliteral
  have hmark : mark? (c :: s) = some ⟨.mark c, 1⟩ := by
    rw [mark?, if_neg, if_pos hc]
    rintro ⟨hslash, hcomment⟩
    rcases hcomment with hcomment | hcomment
    · exact (h hslash).1 hcomment
    · exact (h hslash).2 hcomment
  rw [piece?, literal?_of_notMem hliteral, hnumeral, label?_eq_none hquote, hmark]
  rfl

/-- Pieces that are spelled without anything that could go on: words as they are, numerals in
decimal digits, texts in quotes, labels and marks. -/
def Piece.IsPlain : Piece → Prop
  | .word w => IsWord w
  | .string written value => written = quote value
  | .literal w => w ≠ [] ∧ ∀ c ∈ w, c.isDigit = true
  | .label w => ∃ name, w = '\'' :: name ∧ IsWord name
  | .mark c => isMark c = true

theorem Piece.IsPlain.exists_written_eq_cons (h : p.IsPlain) :
    ∃ c tail, p.written = c :: tail ∧ isSeparator c = false := by
  cases p with
  | word w =>
    obtain ⟨c, tail, rfl, hc, -⟩ := h
    exact ⟨c, tail, rfl, isSeparator_of_isIdentifierPart (isIdentifierPart_of_isWordStart hc)⟩
  | string written value => exact ⟨'"', _, h, by decide +kernel⟩
  | literal w =>
    obtain ⟨hne, hdigits⟩ := h
    obtain ⟨c, tail, rfl⟩ := List.exists_cons_of_ne_nil hne
    have hpart : isDigitPart c = true := by
      rw [isDigitPart, hdigits c List.mem_cons_self, Bool.true_or]
    exact ⟨c, tail, rfl, isSeparator_of_isIdentifierPart (isIdentifierPart_of_isDigitPart hpart)⟩
  | label w =>
    obtain ⟨name, rfl, -⟩ := h
    exact ⟨'\'', name, rfl, by decide +kernel⟩
  | mark c => exact ⟨c, [], rfl, isSeparator_of_isMark h⟩

theorem piece?_word {w : Text} (hw : IsWord w) (hrest : Stops rest) :
    piece? (w ++ rest) = some ⟨.word w, w.length⟩ := by
  have hne : w ++ rest ≠ [] := fun h => hw.length_ne_zero (by simp [(List.append_eq_nil_iff.mp h).1])
  obtain ⟨c, tail, htext⟩ := List.exists_cons_of_ne_nil hne
  have hc := hw.isIdentifierPart_of_append htext
  have hquote : c ≠ '\'' := by
    rintro rfl
    revert hc
    decide +kernel
  rw [piece?, hw.literal?_eq_none hrest, hw.word?_append hrest, htext, label?_eq_none hquote,
    mark?_eq_none hc]
  rfl

theorem piece?_of_literal? {r : Reading Piece} (h : literal? s = some r) : piece? s = some r := by
  rw [piece?, h]
  rfl

theorem piece?_string (value : Text) (hrest : Stops rest) :
    piece? (quote value ++ rest) = some ⟨.string (quote value) value, (quote value).length⟩ := by
  have hquoted : quote value ++ rest = '"' :: (value.flatMap quoteChar ++ '"' :: rest) := by
    simp [quote]
  have hlength : 1 + ((value.flatMap quoteChar).length + 1) = (quote value).length := by
    simp only [quote, List.length_cons, List.length_append, List.length_nil]
    omega
  have hwhole := literalLength_append (quote value) hrest.isIdentifierPart
  apply piece?_of_literal?
  rw [hquoted, literal?, quoted?_quote, Option.map_some, ← hquoted, stringOf, hlength, hwhole,
    List.take_left]

theorem piece?_literal {w : Text} (hne : w ≠ []) (hw : ∀ c ∈ w, c.isDigit = true)
    (hrest : Stops rest) : piece? (w ++ rest) = some ⟨.literal w, w.length⟩ := by
  have hpoint : rest.head? ≠ some '.' := hrest.head?_ne (by simp)
  have hnumeral := numeralLength?_digits hne hw hrest.isIdentifierPart hpoint
  have hlength := literalLength_append w hrest.isIdentifierPart
  have hliteral : literal? (w ++ rest) =
      (numeralLength? (w ++ rest)).map (literalOf (w ++ rest)) := by
    obtain ⟨c, tail, rfl⟩ := List.exists_cons_of_ne_nil hne
    apply literal?_of_notMem
    have hdigit := hw c List.mem_cons_self
    intro hmem
    have htable : ∀ d ∈ ['"', 'r', 'b', '\''], d.isDigit = false := by simp
    rw [htable c hmem] at hdigit
    cases hdigit
  apply piece?_of_literal?
  rw [hliteral, hnumeral, Option.map_some, literalOf, hlength, List.take_left]

theorem IsWord.singleLength?_eq_none {name : Text} (hname : IsWord name) (hrest : Stops rest) :
    singleLength? .characters (name ++ rest) = none := by
  unfold singleLength?
  split
  · next ht => exact absurd (hname.isIdentifierPart_of_append ht) (by decide +kernel)
  · next d t _ ht =>
    have hd : ∀ c ∈ [d], isIdentifierPart c = true := by
      simpa using hname.isIdentifierPart_of_append ht
    exact absurd (by simp) (hname.not_quoted hrest hd ht)
  · rfl

theorem piece?_label {name : Text} (hname : IsWord name) (hrest : Stops rest) :
    piece? ('\'' :: name ++ rest) = some ⟨.label ('\'' :: name), name.length + 1⟩ := by
  have hliteral : literal? ('\'' :: (name ++ rest)) = none := by
    rw [literal?, hname.singleLength?_eq_none hrest, Option.map_none]
  have hlabel : label? ('\'' :: (name ++ rest)) =
      some ⟨.label ('\'' :: name), name.length + 1⟩ := by
    have hlength := hname.wordLength_append hrest.isIdentifierPart
    have hnext : (name ++ rest)[name.length]? = rest.head? := by
      rw [List.getElem?_append_right (Nat.le_refl _), Nat.sub_self, List.head?_eq_getElem?]
    have hquote : rest.head? ≠ some '\'' := hrest.head?_ne (by simp)
    have hsign : rest.head? ≠ some '#' := hrest.head?_ne (by simp)
    rw [label?]
    simp only [hlength, hnext]
    rw [if_neg (by simp [hname.length_ne_zero, hquote, hsign]), List.take_left]
  rw [List.cons_append, piece?, hliteral, hlabel]
  rfl

theorem Piece.IsPlain.piece?_append (h : p.IsPlain) (hrest : Stops rest) :
    piece? (p.written ++ rest) = some ⟨p, p.written.length⟩ := by
  cases p with
  | word w => exact piece?_word h hrest
  | string written value =>
    obtain rfl : written = quote value := h
    exact piece?_string value hrest
  | literal w => exact piece?_literal h.1 h.2 hrest
  | label w =>
    obtain ⟨name, rfl, hname⟩ := h
    exact piece?_label hname hrest
  | mark c =>
    apply piece?_mark h
    rintro -
    exact ⟨hrest.head?_ne (by simp), hrest.head?_ne (by simp)⟩

/-- Between two pieces stands a space, except behind an opening parenthesis and in front of a
closing one. So the first one ends there, or it is a parenthesis that always ends. -/
theorem piece?_append_writtenAll {next : Piece} {pieces : List Piece} (h : p.IsPlain) :
    piece? (p.written ++ ((if p = .mark '(' ∨ next = .mark ')' then [] else [' ']) ++
      (Piece.writtenAll (next :: pieces) ++ rest))) = some ⟨p, p.written.length⟩ := by
  by_cases hopen : p = .mark '('
  · subst hopen
    exact piece?_mark rfl (by simp)
  · apply h.piece?_append
    by_cases hclose : next = .mark ')'
    · subst hclose
      rw [if_pos (.inr rfl), List.nil_append]
      cases pieces with
      | nil => exact stops_cons (by simp) _
      | cons => exact stops_cons (by simp) _
    · rw [if_neg (not_or.mpr ⟨hopen, hclose⟩)]
      exact stops_cons (by simp) _

theorem Spells.append_writtenAll {pieces more : List Piece} (h : ∀ p ∈ pieces, p.IsPlain)
    (hrest : Stops rest) (hmore : Spells more rest) :
    Spells (pieces ++ more) (Piece.writtenAll pieces ++ rest) := by
  fun_induction Piece.writtenAll pieces with
  | case1 => exact hmore
  | case2 piece =>
    obtain ⟨c, tail, hwritten, hc⟩ := (h piece List.mem_cons_self).exists_written_eq_cons
    exact .piece hwritten hc ((h piece List.mem_cons_self).piece?_append hrest) hmore
  | case3 piece next pieces ih =>
    obtain ⟨hpiece, hnext⟩ := List.forall_mem_cons.mp h
    obtain ⟨c, tail, hwritten, hc⟩ := hpiece.exists_written_eq_cons
    rw [List.append_assoc, List.append_assoc]
    refine .piece hwritten hc (piece?_append_writtenAll hpiece) ?_
    split
    · exact ih hnext
    · exact .separator (by decide +kernel) (ih hnext)

/-- Plain pieces are read back from their spelling. -/
theorem pieces?_writtenAll {pieces : List Piece} (h : ∀ p ∈ pieces, p.IsPlain) :
    pieces? (Piece.writtenAll pieces) = some pieces := by
  have hspells := Spells.append_writtenAll h stops_nil .nil
  rw [List.append_nil, List.append_nil] at hspells
  exact hspells.pieces?_eq_some

end Plain

end Hypertext.CallText
