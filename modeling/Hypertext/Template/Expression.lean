import Hypertext.Template.Piece

/-!
# Expressions in program text

Whether pieces are expressions with commas behind them. Expressions are made of names,
literals, calls and tuples with arithmetical operators. Others are not read, but the words
that start them are known. The pieces are gone through once, with a stack of what is open.
-/

namespace Hypertext.CallText

set_option autoImplicit false

inductive Wanted where
  | stringLiteral
  | comma
  | expression
  | block
  | colon
  | bar
  deriving DecidableEq, Repr

def Wanted.name : Wanted → String
  | stringLiteral => "string literal"
  | comma => "`,`"
  | expression => "an expression"
  | block => "curly braces"
  | colon => "`:`"
  | bar => "`|`"

inductive SyntaxError where
  | unreadable
  | expected (wanted : Wanted)
  | endBefore (wanted : Wanted)
  deriving DecidableEq, Repr

def SyntaxError.message : SyntaxError → String
  | unreadable => "cannot parse string into token stream"
  | expected wanted => "expected " ++ wanted.name
  | endBefore wanted => "unexpected end of input, expected " ++ wanted.name

/-- What a word is in an expression: an operand, an operator in front of one that it needs or
may have, or the start of a construct with a condition, a block or a closure behind it. -/
inductive Role where
  | operand
  | operator
  | jump
  | condition
  | block
  | closure
  | reserved
  deriving DecidableEq, Repr

def roles : List (Role × List String) :=
  [(.operator, ["become"]), (.jump, ["break", "return", "yield"]),
    (.condition, ["if", "match", "while"]), (.block, ["loop", "unsafe"]),
    (.closure, ["const", "move", "static"]),
    (.reserved, ["abstract", "as", "async", "await", "box", "do", "dyn", "else", "enum", "extern",
      "final", "fn", "for", "impl", "in", "let", "macro", "mod", "mut", "override", "priv", "pub",
      "ref", "struct", "trait", "try", "type", "typeof", "unsized", "use", "virtual", "where"])]

def roleOf (word : Text) : Role :=
  match roles.find? fun (_, words) => String.ofList word ∈ words with
  | some (role, _) => role
  | none => .operand

/-- Operators in front of their operand. -/
def leadsOperand (c : Char) : Bool :=
  c ∈ "-!*".toList

/-- Operators between their operands. -/
def joinsOperands (piece : Piece) : Bool :=
  "+-*/%^".toList.any fun c => piece = .mark c

def startsOperand : Piece → Bool
  | .word word => word ≠ ['a', 's']
  | .mark c => c = '(' || leadsOperand c
  | _ => true

/-- What surrounds a part of an expression. -/
inductive Frame where
  | parenthesis
  | condition
  deriving DecidableEq, Repr

/-- What has been read of an expression: nothing since an opening parenthesis or a comma,
nothing since an operator, a whole operand, a word that may have an operand behind it, or a
word that has a block behind it. -/
inductive Progress where
  | start
  | operator
  | operand
  | jump
  | block
  deriving DecidableEq, Repr

/-- A place between pieces, with the innermost frame first. -/
structure Place where
  frames : List Frame
  progress : Progress
  deriving DecidableEq, Repr

namespace Place

def opened (place : Place) : Place :=
  ⟨.parenthesis :: place.frames, .start⟩

def closed (place : Place) : Place :=
  ⟨place.frames.tail, .operand⟩

def pastWord (place : Place) (word : Text) : Except SyntaxError Place :=
  match roleOf word with
  | .operand => .ok ⟨place.frames, .operand⟩
  | .operator => .ok ⟨place.frames, .operator⟩
  | .jump => .ok ⟨place.frames, .jump⟩
  | .condition => .ok ⟨.condition :: place.frames, .operator⟩
  | .block => .ok ⟨place.frames, .block⟩
  | .closure => .error (.expected .bar)
  | .reserved => .error (.expected .expression)

/-- The place behind a piece where an operand is wanted. -/
def intoOperand (place : Place) (piece : Piece) : Except SyntaxError Place :=
  match piece with
  | .word word => place.pastWord word
  | .string .. | .literal _ => .ok ⟨place.frames, .operand⟩
  | .label _ => .error (.expected .colon)
  | .mark c =>
    if c = '(' then .ok place.opened
    else if leadsOperand c then .ok ⟨place.frames, .operator⟩
    else if c ≠ ')' then .error (.expected .expression)
    else if place.progress = .start then .ok place.closed
    else .error (.endBefore .expression)

/-- The error where a block is missing in front of a piece. -/
def blockError (piece : Piece) : SyntaxError :=
  if piece = .mark ')' then .endBefore .block else .expected .block

/-- The place behind a piece where an operand ends or goes on. -/
def pastOperand (place : Place) (piece : Piece) : Except SyntaxError Place :=
  if piece = .mark '(' then .ok place.opened
  else if joinsOperands piece then .ok ⟨place.frames, .operator⟩
  else if place.frames.head? = some .condition then .error (blockError piece)
  else if piece = .mark ')' then .ok place.closed
  else if piece = .mark ',' then .ok ⟨place.frames, .start⟩
  else .error (.expected .comma)

def step (place : Place) (piece : Piece) : Except SyntaxError Place :=
  match place.progress with
  | .start | .operator => place.intoOperand piece
  | .operand => place.pastOperand piece
  | .jump =>
    if startsOperand piece then (Place.mk place.frames .operator).intoOperand piece
    else place.pastOperand piece
  | .block => .error (blockError piece)

/-- What is missing where the pieces end. -/
def missing? (place : Place) : Option Wanted :=
  match place.progress with
  | .operator => some .expression
  | .block => some .block
  | _ => if place.frames.head? = some .condition then some .block else none

end Place

/-- Whether pieces are expressions, each but the last with a comma behind it. -/
def checkExpressions (pieces : List Piece) : Except SyntaxError Unit := do
  let place ← pieces.foldlM Place.step ⟨[], .start⟩
  match place.missing? with
  | some wanted => .error (.endBefore wanted)
  | none => .ok ()

end Hypertext.CallText
