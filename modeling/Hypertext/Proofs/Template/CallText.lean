import Hypertext.Proofs.Template.Call
import Hypertext.Proofs.Template.Expression.Accepted
import Hypertext.Proofs.Template.Piece.Plain
import Hypertext.Proofs.Template.Written

/-!
# Calls in program text and what they are written as

A program text is read as a call exactly if its pieces are a string and then expressions, each
behind a comma. A call that is written down is read back, with its arguments as they are
written, and is expanded like the template it was written for.
-/

namespace Hypertext.CallText

set_option autoImplicit false

/-! ## Cutting at commas -/

section Arguments
variable {commas : Bool} {pieces rest : List Piece} {items : List (List Piece)}

theorem foldr_consPiece (pieces first : List Piece) (more : List (List Piece)) :
    pieces.foldr consPiece (first :: more) = (pieces ++ first) :: more := by
  induction pieces with
  | nil => rfl
  | cons piece pieces ih => rw [List.foldr_cons, ih, consPiece, List.cons_append]

theorem IsNested.splitArguments_append (h : IsNested commas pieces) {depth : Nat}
    (hdepth : commas = true → depth ≠ 0) (rest : List Piece) :
    splitArguments depth (pieces ++ rest) =
      pieces.foldr consPiece (splitArguments depth rest) := by
  induction h generalizing depth rest with
  | nil => rfl
  | @cons commas piece pieces hbracket hcomma _ ih =>
    -- A comma stands only where a parenthesis is open, so the text is not cut here.
    have hhere : ¬ (piece = .mark ',' ∧ depth = 0) := fun h => hdepth (hcomma h.1) h.2
    have hopen : piece ≠ .mark '(' := fun h => hbracket ⟨'(', by simp, h⟩
    have hclose : piece ≠ .mark ')' := fun h => hbracket ⟨')', by simp, h⟩
    rw [List.cons_append, splitArguments, if_neg hhere, if_neg hopen, if_neg hclose,
      ih hdepth, List.foldr_cons]
  | @parentheses commas inner pieces _ _ ihinner ih =>
    have hopen : splitArguments depth (.mark '(' :: (inner ++ .mark ')' :: (pieces ++ rest))) =
        consPiece (.mark '(')
          (splitArguments (depth + 1) (inner ++ .mark ')' :: (pieces ++ rest))) := by
      simp [splitArguments]
    have hclose : splitArguments (depth + 1) (.mark ')' :: (pieces ++ rest)) =
        consPiece (.mark ')') (splitArguments depth (pieces ++ rest)) := by
      simp [splitArguments]
    rw [List.cons_append, List.append_assoc, List.cons_append, hopen,
      ihinner (fun _ => Nat.succ_ne_zero depth), hclose, ih hdepth, List.foldr_cons,
      List.foldr_append, List.foldr_cons]

theorem IsExpression.ne_nil (h : IsExpression pieces) : pieces ≠ [] := by
  induction h with
  | joined | call => simp
  | _ => exact List.cons_ne_nil _ _

theorem IsExpression.splitArguments_append (h : IsExpression pieces) {first : List Piece}
    {more : List (List Piece)} (hrest : splitArguments 0 rest = first :: more) :
    splitArguments 0 (pieces ++ rest) = (pieces ++ first) :: more := by
  rw [h.isNested.splitArguments_append nofun, hrest, foldr_consPiece]

theorem splitArguments_comma (rest : List Piece) :
    splitArguments 0 (.mark ',' :: rest) = [] :: splitArguments 0 rest := by
  simp [splitArguments]

/-- Expressions are cut apart again at the commas between them. -/
theorem Lists.arguments_eq (h : Lists items pieces)
    (hitems : ∀ item ∈ items, IsExpression item) : arguments pieces = items := by
  induction h with
  | nil => rfl
  | last item =>
    have hitem := hitems item List.mem_cons_self
    have hnil : splitArguments 0 [] = [[]] := rfl
    have hsplit := hitem.splitArguments_append hnil
    rw [List.append_nil] at hsplit
    simp [arguments, hsplit, hitem.ne_nil]
  | @cons item items pieces _ ih =>
    obtain ⟨hitem, hitems⟩ := List.forall_mem_cons.mp hitems
    have hsplit := hitem.splitArguments_append (splitArguments_comma pieces)
    rw [List.append_nil] at hsplit
    have hrest : (splitArguments 0 pieces).filter (fun argument => !argument.isEmpty) = items :=
      ih hitems
    simp [arguments, hsplit, hitem.ne_nil, hrest]

end Arguments

/-- The pieces of a call: a string of the template, and then arguments behind a comma. -/
inductive IsCall (template : Text) : List (List Piece) → List Piece → Prop where
  | alone (written : Text) : IsCall template [] [.string written template]
  | withArguments (written : Text) {items : List (List Piece)} {pieces : List Piece} :
      (∀ item ∈ items, IsExpression item) → Lists items pieces →
      IsCall template items (.string written template :: .mark ',' :: pieces)

section Calls
variable {template : Text} {items : List (List Piece)} {pieces : List Piece}

theorem isCall_of_ofPieces (hbalanced : isBalanced [] pieces = true)
    (h : ofPieces pieces = .ok (template, items)) : IsCall template items pieces := by
  unfold ofPieces at h
  split at h
  · cases h
  · cases h
    exact .alone _
  · next written template' rest =>
    cases hcheck : checkExpressions rest with
    | error e =>
      rw [hcheck] at h
      cases h
    | ok =>
      rw [hcheck] at h
      cases h
      have hrest : isBalanced [] rest = true := hbalanced
      obtain ⟨items, hitems, hlist⟩ := checkExpressions_eq_ok_iff.mp ⟨hrest, hcheck⟩
      rw [hlist.arguments_eq hitems]
      exact .withArguments written hitems hlist
  · cases h
  · cases h

theorem IsCall.ofPieces_eq_ok (h : IsCall template items pieces) :
    isBalanced [] pieces = true ∧ ofPieces pieces = .ok (template, items) := by
  cases h with
  | alone written => exact ⟨rfl, rfl⟩
  | @withArguments written _ pieces hitems hlist =>
    have hpieces : AreExpressions pieces := ⟨items, hitems, hlist⟩
    obtain ⟨hbalanced, hcheck⟩ := checkExpressions_eq_ok_iff.mpr hpieces
    refine ⟨hbalanced, ?_⟩
    rw [ofPieces, hcheck, ← hlist.arguments_eq hitems]
    rfl

theorem ofPieces_eq_ok_iff :
    isBalanced [] pieces = true ∧ ofPieces pieces = .ok (template, items) ↔
      IsCall template items pieces :=
  ⟨fun h => isCall_of_ofPieces h.1 h.2, IsCall.ofPieces_eq_ok⟩

end Calls

/-! ## Reading a call -/

/-- A text without the byte order mark that may come first. -/
def withoutMark (s : Text) : Text :=
  if s.head? = some '\ufeff' then s.tail else s

/-- The texts that are read as calls, and what is read: the template and the arguments, each with
its pieces as they are written. -/
theorem read_eq_ok_iff {s template : Text} {texts : List Text} :
    read s = .ok (template, texts) ↔ ∃ items pieces, Spells pieces (withoutMark s) ∧
      IsCall template items pieces ∧ texts = items.map Piece.writtenAll := by
  constructor
  · intro h
    unfold read at h
    split at h
    · cases h
    · next pieces hpieces =>
      split at h
      · next hbalanced =>
        cases hcall : ofPieces pieces with
        | error e =>
          rw [hcall] at h
          cases h
        | ok call =>
          rw [hcall] at h
          cases h
          exact ⟨call.2, pieces, spells_of_pieces? hpieces,
            isCall_of_ofPieces hbalanced hcall, rfl⟩
      · cases h
  · rintro ⟨items, pieces, hspells, hcall, rfl⟩
    obtain ⟨hbalanced, hpieces⟩ := ofPieces_eq_ok_iff.mpr hcall
    rw [read, ← withoutMark, hspells.pieces?_eq_some]
    dsimp only
    rw [if_pos hbalanced, hpieces]
    rfl

/-- An argument that can be written down: an expression in plain spelling. -/
structure Argument where
  pieces : List Piece
  isExpression : IsExpression pieces
  isPlain : ∀ piece ∈ pieces, piece.IsPlain

def Argument.written (argument : Argument) : Text :=
  Piece.writtenAll argument.pieces

/-- The arguments of a call as they are written, each behind a comma. -/
def writtenArguments (arguments : List Argument) : Text :=
  arguments.flatMap fun argument => ',' :: ' ' :: argument.written

/-- A call as it is written, with its template in quotes. -/
def written (template : Text) (arguments : List Argument) : Text :=
  quote template ++ writtenArguments arguments

theorem stops_writtenArguments (arguments : List Argument) :
    Stops (writtenArguments arguments) := by
  cases arguments with
  | nil => exact stops_nil
  | cons => exact stops_cons (by simp) _

theorem spells_writtenArguments (arguments : List Argument) :
    Spells (arguments.flatMap fun argument => .mark ',' :: argument.pieces)
      (writtenArguments arguments) := by
  induction arguments with
  | nil => exact .nil
  | cons argument arguments ih =>
    have hspells := Spells.append_writtenAll argument.isPlain (stops_writtenArguments arguments) ih
    have hwritten : (Piece.mark ',').written = [','] := rfl
    have hcomma : piece? ([','] ++ ' ' :: (argument.written ++ writtenArguments arguments)) =
        some ⟨.mark ',', 1⟩ :=
      piece?_mark rfl (by simp)
    exact .piece hwritten (by decide +kernel) hcomma (.separator (by decide +kernel) hspells)

theorem lists_cons_flatMap (item : List Piece) (arguments : List Argument) :
    Lists (item :: arguments.map Argument.pieces)
      (item ++ arguments.flatMap fun argument => .mark ',' :: argument.pieces) := by
  induction arguments generalizing item with
  | nil =>
    rw [List.flatMap_nil, List.append_nil]
    exact .last item
  | cons argument arguments ih => exact .cons (ih argument.pieces)

theorem isCall_flatMap (template : Text) (arguments : List Argument) :
    IsCall template (arguments.map Argument.pieces) (.string (quote template) template ::
      arguments.flatMap fun argument => .mark ',' :: argument.pieces) := by
  have hitems : ∀ item ∈ arguments.map Argument.pieces, IsExpression item := by
    intro item hitem
    obtain ⟨argument, -, rfl⟩ := List.mem_map.mp hitem
    exact argument.isExpression
  cases arguments with
  | nil => exact .alone _
  | cons argument arguments =>
    exact .withArguments _ hitems (lists_cons_flatMap argument.pieces arguments)

/-- A call is read back from its written form. -/
theorem read_written (template : Text) (arguments : List Argument) :
    read (written template arguments) = .ok (template, arguments.map Argument.written) := by
  have hwritten : (Piece.string (quote template) template).written =
      '"' :: (template.flatMap quoteChar ++ ['"']) := rfl
  have hstring := piece?_string template (stops_writtenArguments arguments)
  have hspells : Spells _ (withoutMark (written template arguments)) :=
    .piece hwritten (by decide +kernel) hstring (spells_writtenArguments arguments)
  apply read_eq_ok_iff.mpr
  refine ⟨_, _, hspells, isCall_flatMap template arguments, ?_⟩
  rw [List.map_map]
  rfl

/-- A call that is written for fragments and slots, with as many arguments as there are positional
slots, is read and expanded into these fragments, with each slot paired with what is meant for
it. -/
theorem ofCall_read_written {fragments : List Text} {slots : List Slot} {arguments : List Argument}
    (hparts : Template.AreParts fragments slots)
    (hcount : arguments.length = slots.count .positional) :
    ∃ template texts fillings,
      read (written (Template.writtenParts fragments slots) arguments) = .ok (template, texts) ∧
      Expansion.ofCall template texts = .ok ⟨fragments, fillings⟩ ∧
      Expansion.Pairs slots (arguments.map Argument.written) fillings := by
  have hread := Template.parts?_writtenParts_of_areParts hparts
  cases ht : Template.ofText? (Template.writtenParts fragments slots) with
  | error e =>
    rw [Template.parts?, ht] at hread
    cases hread
  | ok t =>
    rw [Template.parts?, ht] at hread
    obtain ⟨rfl, rfl⟩ := Prod.mk.inj (Except.ok.inj hread)
    have hlength : (arguments.map Argument.written).length = t.slots.count .positional := by
      rw [List.length_map, hcount]
    obtain ⟨fillings, hcall, hpairs⟩ := Expansion.ofCall_of_length_eq ht hlength
    exact ⟨_, _, fillings, read_written _ arguments, hcall, hpairs⟩

end Hypertext.CallText
