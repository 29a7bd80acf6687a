import Hypertext.Token
import Mathlib

/-!
# Reading by offsets

Tokens read the way a machine reads them: by offsets into the UTF-8 bytes of a text, with loops
over single bytes and stretches cut out between two offsets. Nothing here is taken for granted.
A stretch has to lie between two character boundaries in the right order, a byte that is looked
at has to be there, and a loop has to move on with every pass; anything else is a fault. That
no fault occurs, and that the tokens are the same, is shown elsewhere.
-/

namespace Hypertext

set_option autoImplicit false

/-- The UTF-8 form. -/
def Text.bytes (t : Text) : List UInt8 :=
  t.flatMap String.utf8EncodeChar

namespace Scan

inductive Fault where
  | stretch (start stop : Nat)
  | byte (offset : Nat)
  | standstill (offset : Nat)
  deriving DecidableEq, Repr

/-! ## Checked access -/

/-- A text cut at an offset. There is no cut inside a character and none behind the end. -/
def cutAt? : Nat → Text → Option (Text × Text)
  | 0, t => some ([], t)
  | _ + 1, [] => none
  | n + 1, c :: t =>
    if c.utf8Size ≤ n + 1 then
      (cutAt? (n + 1 - c.utf8Size) t).map fun (before, after) => (c :: before, after)
    else none

/-- The stretch of a text between two offsets. -/
def stretch (s : Text) (start stop : Nat) : Except Fault Text :=
  match cutAt? stop s with
  | none => .error (.stretch start stop)
  | some (before, _) =>
    match cutAt? start before with
    | none => .error (.stretch start stop)
    | some (_, run) => .ok run

/-- The stretch from an offset to the end. -/
def tail (s : Text) (start : Nat) : Except Fault Text :=
  stretch s start s.size

/-- Bytes between two offsets; any byte may be the first one or the last one here. -/
def byteStretch (s : Text) (start stop : Nat) : Except Fault (List UInt8) :=
  if start ≤ stop ∧ stop ≤ s.size then .ok ((s.bytes.drop start).take (stop - start))
  else .error (.stretch start stop)

def byteAt (s : Text) (k : Nat) : Except Fault UInt8 :=
  match s.bytes[k]? with
  | none => .error (.byte k)
  | some b => .ok b

/-- Whether an offset is before the end and an ASCII character stands there. -/
def isAt (s : Text) (k : Nat) (c : Char) : Except Fault Bool := do
  if k < s.size then
    let b ← byteAt s k
    return b == c.toUInt8
  else
    return false

/-- Passes of a loop up to the one that leaves it. A pass after which the loop goes on has to
end further to the right, and not behind the end. -/
def loop {σ β : Type} (s : Text) (offset : σ → Nat) (pass : σ → Except Fault (σ ⊕ β))
    (state : σ) : Except Fault β :=
  match pass state with
  | .error fault => .error fault
  | .ok (.inr result) => .ok result
  | .ok (.inl next) =>
    if _h : offset state < offset next ∧ offset next ≤ s.size then loop s offset pass next
    else .error (.standstill (offset state))
termination_by s.size - offset state
decreasing_by omega

def skipPass (s : Text) (p : UInt8 → Bool) (k : Nat) : Except Fault (Nat ⊕ Nat) := do
  if k < s.size then
    let b ← byteAt s k
    return if p b then .inl (k + 1) else .inr k
  else
    return .inr k

/-- The first offset from the given one on at which a byte is not of a kind. -/
def skipWhile (s : Text) (p : UInt8 → Bool) (start : Nat) : Except Fault Nat :=
  loop s id (skipPass s p) start

/-- Where a mark first occurs. -/
def find? (mark t : Text) : Option Nat :=
  (Text.cut? mark t).map fun (before, _) => before.size

/-- Where a mark first occurs from an offset on, or else the end of the text. -/
def findFrom (mark s : Text) (start : Nat) : Except Fault Nat := do
  let rest ← tail s start
  return match find? mark rest with
    | some distance => start + distance
    | none => s.size

/-! ## Kinds of bytes -/

def isBlankByte (b : UInt8) : Bool :=
  b == ' '.toUInt8 || b == '\t'.toUInt8 || b == '\n'.toUInt8 || b == '\x0c'.toUInt8 ||
    b == '\r'.toUInt8

def endsTagNameByte (b : UInt8) : Bool :=
  isBlankByte b || b == '/'.toUInt8 || b == '>'.toUInt8

def endsAttributeNameByte (b : UInt8) : Bool :=
  endsTagNameByte b || b == '='.toUInt8

def isUpperByte (b : UInt8) : Bool :=
  'A'.toUInt8 ≤ b && b ≤ 'Z'.toUInt8

def isAlphaByte (b : UInt8) : Bool :=
  isUpperByte b || 'a'.toUInt8 ≤ b && b ≤ 'z'.toUInt8

def lowerByte (b : UInt8) : UInt8 :=
  if isUpperByte b then b + 32 else b

/-- Whether the bytes from an offset on are those of a word, in any letter case. -/
def beginsAt (s : Text) (start : Nat) (word : Text) : Except Fault Bool := do
  if start + word.size ≤ s.size then
    let bytes ← byteStretch s start (start + word.size)
    return bytes.map lowerByte == word.bytes.map lowerByte
  else
    return false

/-! ## End tags of raw text -/

/-- Where the end tag at an offset is over, if there is one of the name. -/
def closeTagEnd? (s name : Text) (start : Nat) : Except Fault (Option Nat) := do
  if ← beginsAt s (start + 2) name then
    let k ← skipWhile s isBlankByte (start + 2 + name.size)
    let closed ← isAt s k '>'
    return if closed then some (k + 1) else none
  else
    return none

def closeTagPass (s name : Text) (i : Nat) : Except Fault (Nat ⊕ Option (Nat × Nat)) := do
  let rest ← tail s i
  match find? ['<', '/'] rest with
  | none => return .inr none
  | some distance =>
    let start := i + distance
    match ← closeTagEnd? s name start with
    | some stop => return .inr (some (start, stop))
    | none => return .inl (start + 2)

/-- Where the first end tag of a name starts and where it is over. -/
def findCloseTag (s name : Text) : Except Fault (Option (Nat × Nat)) :=
  loop s id (closeTagPass s name) 0

/-! ## Start tags -/

/-- A value behind its `=`, and where it is over. -/
def valueAt (s : Text) (start : Nat) : Except Fault (Text × Nat) := do
  let k ← skipWhile s isBlankByte start
  let double ← isAt s k '"'
  let single ← isAt s k '\''
  if double || single then
    let quote ← byteAt s k
    let stop ← skipWhile s (fun b => b != quote) (k + 1)
    let body ← stretch s (k + 1) stop
    return (body, if stop < s.size then stop + 1 else stop)
  else
    let stop ← skipWhile s (fun b => !(isBlankByte b || b == '>'.toUInt8)) k
    let body ← stretch s k stop
    return (body, stop)

/-- The attribute at an offset, whose first byte belongs to the name whatever it is. -/
def attributeAt (s : Text) (start : Nat) : Except Fault (Attribute × Nat) := do
  let stop ← skipWhile s (fun b => !endsAttributeNameByte b) (start + 1)
  let name ← stretch s start stop
  let k ← skipWhile s isBlankByte stop
  if ← isAt s k '=' then
    let (body, after) ← valueAt s (k + 1)
    return (⟨name.lowercase, some body⟩, after)
  else
    return (⟨name.lowercase, none⟩, k)

/-- How far a start tag is read, and its attributes so far. -/
structure TagProgress where
  offset : Nat
  attributes : List Attribute

/-- One attribute, one stray slash or the end of the tag, and whether that is `/>`. -/
def attributePass (s : Text) (tag : TagProgress) :
    Except Fault (TagProgress ⊕ TagProgress × Bool) := do
  let k ← skipWhile s isBlankByte tag.offset
  if k < s.size then
    let b ← byteAt s k
    if b == '>'.toUInt8 then
      return .inr (⟨k + 1, tag.attributes⟩, false)
    else if b == '/'.toUInt8 then
      let ends ← isAt s (k + 1) '>'
      return if ends then .inr (⟨k + 2, tag.attributes⟩, true) else .inl ⟨k + 1, tag.attributes⟩
    else
      let (a, after) ← attributeAt s k
      return .inl ⟨after, tag.attributes ++ [a]⟩
  else
    return .inr (⟨k, tag.attributes⟩, false)

def attributesFrom (s : Text) (start : Nat) : Except Fault (TagProgress × Bool) :=
  loop s TagProgress.offset (attributePass s) ⟨start, []⟩

/-! ## Markup -/

/-- The text between two offsets as a token, unless it is empty. -/
def textBetween (s : Text) (start stop : Nat) : Except Fault (List Token) := do
  if start < stop then
    let run ← stretch s start stop
    return [.text run]
  else
    return []

/-- The content of a raw-text element and its end tag, written or not. -/
def rawTextAt (s name : Text) (start : Nat) : Except Fault (List Token × Nat) := do
  let rest ← tail s start
  match ← findCloseTag rest name with
  | some (closeStart, closeEnd) =>
    let content ← textBetween s start (start + closeStart)
    return (content ++ [.endTag name], start + closeEnd)
  | none =>
    let content ← textBetween s start s.size
    return (content ++ [.endTag name], s.size)

def startTagAt (s : Text) (pos : Nat) : Except Fault (List Token × Nat) := do
  let k ← skipWhile s (fun b => !endsTagNameByte b) (pos + 1)
  let written ← stretch s (pos + 1) k
  let name := written.lowercase
  let (tag, slash) ← attributesFrom s k
  let selfClosing := slash || Tag.isVoid name
  let token := Token.startTag name tag.attributes selfClosing
  if !selfClosing && Tag.isRawText name then
    let (content, after) ← rawTextAt s name tag.offset
    return (token :: content, after)
  else
    return ([token], tag.offset)

def endTagAt (s : Text) (pos : Nat) : Except Fault (List Token × Nat) := do
  let j ← skipWhile s (fun b => !endsTagNameByte b) (pos + 2)
  let name ← stretch s (pos + 2) j
  let stop ← findFrom ['>'] s j
  return (if name = [] then [] else [.endTag name.lowercase], min (stop + 1) s.size)

def declarationAt (s : Text) (pos : Nat) : Except Fault (List Token × Nat) := do
  let stop ← findFrom ['>'] s pos
  let body ← stretch s (pos + 2) stop
  let doctype ← beginsAt s pos "<!doctype"
  return (if doctype then [.doctype body] else [.comment body], min (stop + 1) s.size)

def commentAt (s : Text) (pos : Nat) : Except Fault (List Token × Nat) := do
  let start := pos + 4
  let rest ← tail s start
  if List.isPrefixOf ['>'] rest then
    return ([.comment []], start + 1)
  else if List.isPrefixOf ['-', '>'] rest then
    return ([.comment []], start + 2)
  else
    match find? "-->" rest with
    | some distance =>
      let body ← stretch s start (start + distance)
      return ([.comment body], start + distance + 3)
    | none => return ([.comment rest], s.size)

/-- What starts at the `<` at an offset, and where it is over, unless that `<` is text. -/
def markupAt? (s : Text) (pos : Nat) : Except Fault (Option (List Token × Nat)) := do
  let next := s.bytes[pos + 1]?
  let rest ← tail s pos
  if List.isPrefixOf ['<', '!', '-', '-'] rest then
    some <$> commentAt s pos
  else if next = some '!'.toUInt8 ∨ next = some '?'.toUInt8 then
    some <$> declarationAt s pos
  else if next = some '/'.toUInt8 then
    some <$> endTagAt s pos
  else if next.any isAlphaByte then
    some <$> startTagAt s pos
  else
    return none

/-- How far a text is read, where the text since the last markup starts, and the tokens. -/
structure Progress where
  offset : Nat
  textStart : Nat
  tokens : List Token

/-- The next markup and the text before it, or else the text up to the end. -/
def pass (s : Text) (state : Progress) : Except Fault (Progress ⊕ List Token) := do
  let rest ← tail s state.offset
  match find? ['<'] rest with
  | none =>
    let text ← textBetween s state.textStart s.size
    return .inr (state.tokens ++ text)
  | some distance =>
    let pos := state.offset + distance
    match ← markupAt? s pos with
    | none => return .inl { state with offset := pos + 1 }
    | some (tokens, after) =>
      let text ← textBetween s state.textStart pos
      return .inl ⟨after, after, state.tokens ++ (text ++ tokens)⟩

/-- The tokens of a text, or the first fault. -/
def tokens (s : Text) : Except Fault (List Token) :=
  loop s Progress.offset (pass s) ⟨0, 0, []⟩

end Scan

end Hypertext
