import Hypertext.Template.CallText
import Mathlib

/-!
# Expressions as pieces

The part of expressions that program text is checked for, as a grammar of pieces: names and
literals, words that may have an operand behind them, operators in front of and between
operands, tuples and calls. In an expression every parenthesis has its partner, and commas
stand inside parentheses only.
-/

namespace Hypertext.CallText

set_option autoImplicit false

/-- The pieces of items with commas between them; one more comma may come last. -/
inductive Lists : List (List Piece) → List Piece → Prop where
  | nil : Lists [] []
  | last (item : List Piece) : Lists [item] item
  | cons {item : List Piece} {items : List (List Piece)} {pieces : List Piece} :
      Lists items pieces → Lists (item :: items) (item ++ .mark ',' :: pieces)

/-- Expressions as pieces. Nothing is said of precedence, which makes no difference to what is an
expression. -/
inductive IsExpression : List Piece → Prop where
  | name {word : Text} : roleOf word = .operand → IsExpression [.word word]
  | string (written value : Text) : IsExpression [.string written value]
  | literal (written : Text) : IsExpression [.literal written]
  | jump {word : Text} : roleOf word = .jump → IsExpression [.word word]
  | jumpWith {word : Text} {operand : List Piece} :
      roleOf word = .jump → IsExpression operand → IsExpression (.word word :: operand)
  | operator {word : Text} {operand : List Piece} :
      roleOf word = .operator → IsExpression operand → IsExpression (.word word :: operand)
  | leading {c : Char} {operand : List Piece} :
      leadsOperand c = true → IsExpression operand → IsExpression (.mark c :: operand)
  | joined {operator : Piece} {left right : List Piece} :
      joinsOperands operator = true → IsExpression left → IsExpression right →
      IsExpression (left ++ operator :: right)
  | tuple {items : List (List Piece)} {pieces : List Piece} :
      (∀ item ∈ items, IsExpression item) → Lists items pieces →
      IsExpression (.mark '(' :: (pieces ++ [.mark ')']))
  | call {callee pieces : List Piece} {items : List (List Piece)} :
      IsExpression callee → (∀ item ∈ items, IsExpression item) → Lists items pieces →
      IsExpression (callee ++ .mark '(' :: (pieces ++ [.mark ')']))

/-- Expressions with commas between them, and perhaps one more behind. -/
def AreExpressions (pieces : List Piece) : Prop :=
  ∃ items, (∀ item ∈ items, IsExpression item) ∧ Lists items pieces

/-! ## Brackets -/

section Brackets
variable {piece : Piece} {rest : List Piece} {toClose : List Char}

def Piece.IsBracket (piece : Piece) : Prop :=
  ∃ c ∈ ['(', ')', '[', ']', '\x7b', '\x7d'], piece = .mark c

theorem not_isBracket_of_leadsOperand {c : Char} (h : leadsOperand c = true) :
    ¬ (Piece.mark c).IsBracket := by
  have htable : ∀ d ∈ ['(', ')', '[', ']', '\x7b', '\x7d'], leadsOperand d = false := by
    simp [leadsOperand]
  rintro ⟨d, hd, hmark⟩
  obtain rfl := Piece.mark.inj hmark
  rw [htable c hd] at h
  cases h

theorem not_isBracket_of_joinsOperands (h : joinsOperands piece = true) : ¬ piece.IsBracket := by
  have htable : ∀ d ∈ ['(', ')', '[', ']', '\x7b', '\x7d'], joinsOperands (.mark d) = false := by
    simp [joinsOperands]
  rintro ⟨d, hd, rfl⟩
  rw [htable d hd] at h
  cases h

theorem isBalanced_cons (h : ¬ piece.IsBracket) :
    isBalanced toClose (piece :: rest) = isBalanced toClose rest := by
  cases piece with
  | mark c =>
    have hc : c ∉ ['(', ')', '[', ']', '\x7b', '\x7d'] := fun hc => h ⟨c, hc, rfl⟩
    have htable : ∀ bracket ∈ brackets, bracket.1 ∈ ['(', ')', '[', ']', '\x7b', '\x7d'] ∧
        bracket.2 ∈ ['(', ')', '[', ']', '\x7b', '\x7d'] := by decide
    have hlookup : brackets.lookup c = none := by
      apply List.lookup_eq_none_iff.mpr
      intro bracket hbracket
      apply bne_iff_ne.mpr
      rintro rfl
      exact hc (htable bracket hbracket).1
    have hany : ¬ (brackets.any fun bracket => bracket.2 == c) = true := by
      intro hany
      obtain ⟨bracket, hbracket, heq⟩ := List.any_eq_true.mp hany
      rw [← beq_iff_eq.mp heq] at hc
      exact hc (htable bracket hbracket).2
    rw [isBalanced, hlookup]
    dsimp only
    rw [if_neg hany]
  | word => rfl
  | string => rfl
  | literal => rfl
  | label => rfl

theorem isBalanced_open :
    isBalanced toClose (.mark '(' :: rest) = isBalanced (')' :: toClose) rest :=
  rfl

theorem isBalanced_close : isBalanced toClose (.mark ')' :: rest) =
    (toClose.head? == some ')' && isBalanced toClose.tail rest) :=
  rfl

end Brackets

/-! ## Parentheses and commas of expressions -/

/-- Pieces where every bracket is a parenthesis with its partner, and where commas stand only
inside these, or also outside. -/
inductive IsNested : Bool → List Piece → Prop where
  | nil (commas : Bool) : IsNested commas []
  | cons {commas : Bool} {piece : Piece} {rest : List Piece} :
      ¬ piece.IsBracket → (piece = .mark ',' → commas = true) → IsNested commas rest →
      IsNested commas (piece :: rest)
  | parentheses {commas : Bool} {inner rest : List Piece} :
      IsNested true inner → IsNested commas rest →
      IsNested commas (.mark '(' :: (inner ++ .mark ')' :: rest))

section Nested
variable {commas : Bool} {pieces more rest : List Piece}

theorem IsNested.append (h : IsNested commas pieces) (hmore : IsNested commas more) :
    IsNested commas (pieces ++ more) := by
  induction h with
  | nil => exact hmore
  | cons hbracket hcomma _ ih => exact .cons hbracket hcomma (ih hmore)
  | parentheses hinner _ _ ih =>
    rw [List.cons_append, List.append_assoc, List.cons_append]
    exact .parentheses hinner (ih hmore)

theorem IsNested.withCommas (h : IsNested commas pieces) : IsNested true pieces := by
  induction h with
  | nil => exact .nil true
  | cons hbracket _ _ ih => exact .cons hbracket (fun _ => rfl) ih
  | parentheses hinner _ _ ih => exact .parentheses hinner ih

theorem Lists.isNested {items : List (List Piece)} (h : Lists items pieces)
    (hitems : ∀ item ∈ items, IsNested false item) : IsNested true pieces := by
  induction h with
  | nil => exact .nil true
  | last item => exact (hitems item List.mem_cons_self).withCommas
  | cons _ ih =>
    obtain ⟨hitem, hitems⟩ := List.forall_mem_cons.mp hitems
    have hcomma : ¬ (Piece.mark ',').IsBracket := by simp [Piece.IsBracket]
    exact hitem.withCommas.append (.cons hcomma (fun _ => rfl) (ih hitems))

theorem IsExpression.isNested (h : IsExpression pieces) : IsNested false pieces := by
  have hplain : ∀ {piece rest}, ¬ piece.IsBracket → piece ≠ .mark ',' → IsNested false rest →
      IsNested false (piece :: rest) := fun hbracket hcomma =>
    .cons hbracket fun h => absurd h hcomma
  induction h with
  | name => exact hplain (by simp [Piece.IsBracket]) nofun (.nil false)
  | string => exact hplain (by simp [Piece.IsBracket]) nofun (.nil false)
  | literal => exact hplain (by simp [Piece.IsBracket]) nofun (.nil false)
  | jump => exact hplain (by simp [Piece.IsBracket]) nofun (.nil false)
  | jumpWith _ _ ih => exact hplain (by simp [Piece.IsBracket]) nofun ih
  | operator _ _ ih => exact hplain (by simp [Piece.IsBracket]) nofun ih
  | leading hleads _ ih =>
    refine hplain (not_isBracket_of_leadsOperand hleads) ?_ ih
    rintro ⟨⟩
    revert hleads
    decide
  | joined hjoins _ _ ihl ihr =>
    refine ihl.append (hplain (not_isBracket_of_joinsOperands hjoins) ?_ ihr)
    rintro rfl
    revert hjoins
    decide
  | tuple _ hlist ih => exact .parentheses (hlist.isNested ih) (.nil false)
  | call _ _ hlist ihc ih => exact ihc.append (.parentheses (hlist.isNested ih) (.nil false))

theorem IsNested.isBalanced_append (h : IsNested commas pieces) (toClose : List Char)
    (rest : List Piece) : isBalanced toClose (pieces ++ rest) = isBalanced toClose rest := by
  induction h generalizing toClose rest with
  | nil => rfl
  | cons hbracket _ _ ih => rw [List.cons_append, isBalanced_cons hbracket, ih]
  | parentheses _ _ ihinner ih =>
    rw [List.cons_append, List.append_assoc, isBalanced_open, ihinner, List.cons_append,
      isBalanced_close, ih]
    rfl

theorem AreExpressions.isBalanced (h : AreExpressions pieces) : isBalanced [] pieces = true := by
  obtain ⟨items, hitems, hlist⟩ := h
  have hnested := hlist.isNested fun item hitem => (hitems item hitem).isNested
  have hbalanced := hnested.isBalanced_append [] []
  rwa [List.append_nil] at hbalanced

end Nested

end Hypertext.CallText
