import Hypertext.Text.Identifier

/-!
# Literals of program text

Strings and single characters as they are written in a program: in quotes with escapes, or
raw. Whatever reads a part of a text here says how many characters the part takes.
-/

namespace Hypertext.CallText

set_option autoImplicit false

/-- What was read from the start of a text, and the number of characters it takes there. -/
structure Reading (α : Type) where
  value : α
  length : Nat
  deriving DecidableEq, Repr

def isWordStart (c : Char) : Bool :=
  c == '_' || isIdentifierStart c

/-- The number of characters of the word that a text starts with, zero without one. -/
def wordLength : Text → Nat
  | [] => 0
  | c :: s => if isWordStart c then (s.takeWhile isIdentifierPart).length + 1 else 0

/-- The number of characters of a literal at the start of a text: so many, and those of the word
right behind them. -/
def literalLength (s : Text) (n : Nat) : Nat :=
  n + wordLength (s.drop n)

/-- Literals hold characters, or bytes that are written as ASCII characters. -/
inductive LiteralKind where
  | characters
  | bytes
  deriving DecidableEq, Repr

namespace LiteralKind

def allows : LiteralKind → Char → Bool
  | characters, _ => true
  | bytes, c => c.toNat < 0x80

/-- Whether an escape with two hexadecimal digits may stand for a number. -/
def allowsCode : LiteralKind → Nat → Bool
  | characters, n => n < 0x80
  | bytes, _ => true

end LiteralKind

def hexDigit? (c : Char) : Option Nat :=
  if c.isDigit then some (c.toNat - '0'.toNat)
  else if 'a' ≤ c ∧ c ≤ 'f' then some (c.toNat - 'a'.toNat + 10)
  else if 'A' ≤ c ∧ c ≤ 'F' then some (c.toNat - 'A'.toNat + 10)
  else none

def hexNumber? (digits : Text) : Option Nat :=
  digits.foldlM (fun n c => (hexDigit? c).map (16 * n + ·)) 0

def charOfNat? (n : Nat) : Option Char :=
  if n.isValidChar then some (Char.ofNat n) else none

/-- A Unicode escape behind its opening brace: up to six digits, with underscores behind the
first one. -/
def unicodeEscape? (s : Text) : Option (Reading Char) :=
  match Text.upTo '\x7d' s with
  | (_, false, _) => none
  | (body, true, _) =>
    let digits := body.filter (· != '_')
    if digits.isEmpty || 6 < digits.length || body.head? = some '_' then none
    else (hexNumber? digits >>= charOfNat?).map (⟨·, body.length + 1⟩)

def simpleEscapes : List (Char × Char) :=
  [('n', '\n'), ('r', '\r'), ('t', '\t'), ('0', '\x00'), ('\\', '\\'), ('\'', '\''), ('"', '"')]

/-- An escape behind its backslash. -/
def escape? (kind : LiteralKind) : Text → Option (Reading Char)
  | [] => none
  | 'x' :: high :: low :: _ => do
    let n ← hexNumber? [high, low]
    if kind.allowsCode n then some ⟨Char.ofNat n, 3⟩ else none
  | 'u' :: '\x7b' :: s =>
    if kind = .bytes then none
    else (unicodeEscape? s).map fun escape => ⟨escape.value, escape.length + 2⟩
  | c :: _ => (simpleEscapes.lookup c).map (⟨·, 1⟩)

/-- The number of characters of the newlines, spaces and tabs that a text starts with. A carriage
return has a newline behind it. -/
def continuationLength? : Text → Option Nat
  | '\r' :: '\n' :: s => (continuationLength? s).map (· + 2)
  | c :: s =>
    if c = '\r' then none
    else if c = ' ' ∨ c = '\t' ∨ c = '\n' then (continuationLength? s).map (· + 1)
    else some 0
  | [] => some 0

def Reading.cons (c : Char) (length : Nat) (body : Reading Text) : Reading Text :=
  ⟨c :: body.value, length + body.length⟩

/-- A string behind its opening quote. A line that ends with a backslash goes on with the first
character of the next line that is not left out as white space. -/
def quoted? (kind : LiteralKind) : Text → Option (Reading Text)
  | [] => none
  | '"' :: _ => some ⟨[], 1⟩
  | '\r' :: '\n' :: s => (quoted? kind s).map (Reading.cons '\n' 2)
  | '\\' :: s =>
    if s.head? = some '\n' ∨ s.head? = some '\r' then do
      let n ← continuationLength? s
      let body ← quoted? kind (s.drop n)
      return ⟨body.value, body.length + n + 1⟩
    else do
      let escape ← escape? kind s
      let body ← quoted? kind (s.drop escape.length)
      return body.cons escape.value (escape.length + 1)
  | c :: s =>
    if c = '\r' ∨ ¬ kind.allows c then none else (quoted? kind s).map (Reading.cons c 1)
termination_by s => s.length
decreasing_by
  all_goals
    simp only [List.length_cons, List.length_drop]
    omega

/-- A raw string behind its opening quote, up to a quote with number signs behind it. -/
def rawBody? (kind : LiteralKind) (signs : Text) : Text → Option (Reading Text)
  | [] => none
  | '\r' :: '\n' :: s =>
    (rawBody? kind signs s).map fun body => (body.cons '\n' 1).cons '\r' 1
  | c :: s =>
    if ('"' :: signs).isPrefixOf (c :: s) then some ⟨[], signs.length + 1⟩
    else if c = '\r' ∨ ¬ kind.allows c then none
    else (rawBody? kind signs s).map (Reading.cons c 1)

/-- A raw string from the number signs on that stand before its opening quote. -/
def raw? (kind : LiteralKind) (s : Text) : Option (Reading Text) :=
  let signs := s.takeWhile (· == '#')
  match s.drop signs.length with
  | '"' :: body =>
    if signs.length ≤ 255 then
      (rawBody? kind signs body).map fun r => ⟨r.value, r.length + signs.length + 1⟩
    else none
  | _ => none

/-- The number of characters of a single character or byte behind its opening quote, its closing
quote included. -/
def singleLength? (kind : LiteralKind) : Text → Option Nat
  | '\\' :: s => do
    let escape ← escape? kind s
    if s[escape.length]? = some '\'' then some (escape.length + 2) else none
  | c :: '\'' :: _ => if kind.allows c then some 2 else none
  | _ => none

end Hypertext.CallText
