import Hypertext.Template.Numeral

/-!
# Pieces of program text

Program text is cut into words, literals, labels and marks. White space separates and is not
kept, and comments are not read. Cutting fails as a whole where no piece starts.
-/

namespace Hypertext.CallText

set_option autoImplicit false

inductive Piece where
  | word (written : Text)
  | string (written value : Text)
  | literal (written : Text)
  | label (written : Text)
  | mark (c : Char)
  deriving DecidableEq, Repr

namespace Piece

def written : Piece → Text
  | word written | string written _ | literal written | label written => written
  | mark c => [c]

/-- Pieces with single spaces between them, but none inside a parenthesis next to it. -/
def writtenAll : List Piece → Text
  | [] => []
  | [piece] => piece.written
  | piece :: next :: rest =>
    piece.written ++ (if piece = mark '(' ∨ next = mark ')' then [] else [' ']) ++
      writtenAll (next :: rest)

end Piece

/-- The literal whose characters in front of its last word are so many. -/
def literalOf (s : Text) (n : Nat) : Reading Piece :=
  ⟨.literal (s.take (literalLength s n)), literalLength s n⟩

/-- The string whose opening quote is the last of so many characters. -/
def stringOf (s : Text) (start : Nat) (body : Reading Text) : Reading Piece :=
  let n := literalLength s (start + body.length)
  ⟨.string (s.take n) body.value, n⟩

def literal? (s : Text) : Option (Reading Piece) :=
  match s with
  | '"' :: t => (quoted? .characters t).map (stringOf s 1)
  | 'r' :: t => (raw? .characters t).map (stringOf s 1)
  | 'b' :: '"' :: t => (quoted? .bytes t).map fun body => literalOf s (body.length + 2)
  | 'b' :: 'r' :: t => (raw? .bytes t).map fun body => literalOf s (body.length + 2)
  | 'b' :: '\'' :: t => (singleLength? .bytes t).map fun n => literalOf s (n + 2)
  | '\'' :: t => (singleLength? .characters t).map fun n => literalOf s (n + 1)
  | _ => (numeralLength? s).map (literalOf s)

/-- How literals start that look like words. -/
def literalStarts : List Text :=
  ["r\"", "r#\"", "r##", "b\"", "b'", "br\"", "br#"].map String.toList

/-- The words that cannot be written as raw names, that is, behind `r#`. -/
def neverRaw : List String :=
  ["_", "super", "self", "Self", "crate"]

def word? (s : Text) : Option (Reading Piece) :=
  if literalStarts.any (·.isPrefixOf s) then none
  else match s with
    | 'r' :: '#' :: t =>
      let n := wordLength t
      if n = 0 ∨ String.ofList (t.take n) ∈ neverRaw then none
      else some ⟨.word (s.take (n + 2)), n + 2⟩
    | _ =>
      let n := wordLength s
      if n = 0 then none else some ⟨.word (s.take n), n⟩

/-- A quote that starts no literal starts a label. -/
def label? : Text → Option (Reading Piece)
  | '\'' :: s =>
    let n := wordLength s
    if n = 0 ∨ s[n]? = some '\'' ∨ s[n]? = some '#' then none
    else some ⟨.label ('\'' :: s.take n), n + 1⟩
  | _ => none

def isMark (c : Char) : Bool :=
  c ∈ "~!@#$%^&*-=+|;:,<.>/?()[]\x7b\x7d".toList

def mark? : Text → Option (Reading Piece)
  | [] => none
  | c :: s =>
    if c = '/' ∧ (s.head? = some '/' ∨ s.head? = some '*') then none
    else if isMark c then some ⟨.mark c, 1⟩
    else none

/-- The first piece of a text that does not start with white space. -/
def piece? (s : Text) : Option (Reading Piece) :=
  literal? s <|> label? s <|> mark? s <|> word? s

/-- White space of program text: that of templates and the two marks of writing direction. -/
def isSeparator (c : Char) : Bool :=
  isSpace c || c == '\u200e' || c == '\u200f'

def pieces? : Text → Option (List Piece)
  | [] => some []
  | c :: s =>
    if isSeparator c then pieces? s
    else do
      let first ← piece? (c :: s)
      let rest ← pieces? (s.drop (first.length - 1))
      return first.value :: rest
termination_by s => s.length
decreasing_by
  · simp
  · simp only [List.length_cons, List.length_drop]
    omega

def brackets : List (Char × Char) :=
  [('(', ')'), ('[', ']'), ('\x7b', '\x7d')]

/-- Whether every bracket has its partner, with so many to be closed, the innermost first. -/
def isBalanced (toClose : List Char) : List Piece → Bool
  | [] => toClose.isEmpty
  | .mark c :: rest =>
    match brackets.lookup c with
    | some closing => isBalanced (closing :: toClose) rest
    | none =>
      if brackets.any (·.2 == c) then
        toClose.head? == some c && isBalanced toClose.tail rest
      else isBalanced toClose rest
  | _ :: rest => isBalanced toClose rest

end Hypertext.CallText
