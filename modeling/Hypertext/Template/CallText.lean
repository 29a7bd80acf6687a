import Hypertext.Template.Expression

/-!
# Calls in program text

A call as it is written in a program: a string literal with the template, and then the
arguments, each behind a comma. Arguments are kept as they are written.
-/

namespace Hypertext.CallText

set_option autoImplicit false

def consPiece (piece : Piece) : List (List Piece) → List (List Piece)
  | [] => [[piece]]
  | argument :: more => (piece :: argument) :: more

/-- The runs of pieces between the commas that stand outside parentheses, so many of them being
open at the start. -/
def splitArguments (depth : Nat) : List Piece → List (List Piece)
  | [] => [[]]
  | piece :: rest =>
    if piece = .mark ',' ∧ depth = 0 then [] :: splitArguments depth rest
    else if piece = .mark '(' then consPiece piece (splitArguments (depth + 1) rest)
    else if piece = .mark ')' then consPiece piece (splitArguments (depth - 1) rest)
    else consPiece piece (splitArguments depth rest)

/-- The arguments of a call; a comma may come last. -/
def arguments (pieces : List Piece) : List (List Piece) :=
  (splitArguments 0 pieces).filter fun argument => !argument.isEmpty

def ofPieces : List Piece → Except SyntaxError (Text × List (List Piece))
  | [] => .error (.endBefore .stringLiteral)
  | [.string _ template] => .ok (template, [])
  | .string _ template :: .mark ',' :: rest =>
    (checkExpressions rest).map fun _ => (template, arguments rest)
  | .string .. :: _ => .error (.expected .comma)
  | _ => .error (.expected .stringLiteral)

/-- The template and the arguments of a call. A byte order mark may come first. -/
def read (s : Text) : Except SyntaxError (Text × List Text) :=
  match pieces? (if s.head? = some '\ufeff' then s.tail else s) with
  | none => .error .unreadable
  | some pieces =>
    if isBalanced [] pieces then
      (ofPieces pieces).map fun (template, arguments) =>
        (template, arguments.map Piece.writtenAll)
    else .error .unreadable

end Hypertext.CallText
