import Hypertext.Text.Basic

/-!
# Template texts

A template text has slots in braces: `{}` for the next argument and `{name}` for a variable.
Literal braces are doubled. Reading a text and writing a template are here side by side.
-/

namespace Hypertext

set_option autoImplicit false

inductive Slot where
  | positional
  | named (name : Text)
  deriving DecidableEq, Repr

def Slot.content : Slot → Text
  | positional => []
  | named name => name

/-- A template: a literal fragment, and then slots, each with the fragment behind it. So there
is always one more fragment than slots. -/
structure Template where
  first : Text
  rest : List (Slot × Text)
  deriving DecidableEq, Repr

namespace Template

def fragments (t : Template) : List Text :=
  t.first :: t.rest.map Prod.snd

def slots (t : Template) : List Slot :=
  t.rest.map Prod.fst

inductive SplitError where
  | unclosedBrace
  | unmatchedBrace
  | invalidSlot (content : Text)
  deriving DecidableEq, Repr

def SplitError.message : SplitError → String
  | unclosedBrace => "unclosed `\x7b` in template; use `\x7b\x7b` for a literal brace"
  | unmatchedBrace => "unmatched `\x7d` in template; use `\x7d\x7d` for a literal brace"
  | invalidSlot content =>
    "invalid placeholder `\x7b" ++ String.ofList content ++
      "\x7d`; expected `\x7b\x7d` or `\x7bidentifier\x7d`"

/-- Names of variables: ASCII letters, digits and underscores, no digit in front. -/
def isIdentifier : Text → Bool
  | [] => false
  | c :: rest => (c.isAlpha || c == '_') && rest.all fun d => d.isAlphanum || d == '_'

def slot? (content : Text) : Except SplitError Slot :=
  if content = [] then .ok .positional
  else if isIdentifier content then .ok (.named content)
  else .error (.invalidSlot content)

def cons (c : Char) (t : Template) : Template :=
  { t with first := c :: t.first }

/-- A slot put in front, behind an empty fragment. -/
def consSlot (slot : Slot) (t : Template) : Template :=
  ⟨[], (slot, t.first) :: t.rest⟩

/-- The template of a text. A slot reaches to the first closing brace, whatever is in it. -/
def ofText? : Text → Except SplitError Template
  | [] => .ok ⟨[], []⟩
  | '\x7b' :: '\x7b' :: s => (ofText? s).map (cons '\x7b')
  | '\x7d' :: '\x7d' :: s => (ofText? s).map (cons '\x7d')
  | c :: s =>
    if c = '\x7b' then
      match _h : Text.upTo '\x7d' s with
      | (_, false, _) => .error .unclosedBrace
      | (content, true, rest) => do
        let slot ← slot? content
        let t ← ofText? rest
        return consSlot slot t
    else if c = '\x7d' then .error .unmatchedBrace
    else (ofText? s).map (cons c)
termination_by s => s.length
decreasing_by
  · simp only [List.length_cons]
    omega
  · simp only [List.length_cons]
    omega
  · have := Text.length_le_of_upTo_eq _h
    simp only [List.length_cons]
    omega
  · simp only [List.length_cons]
    omega

/-- A character that is no brace written twice. -/
theorem ofText?_cons {c : Char} {s : Text} (hopen : c = '\x7b' → s.head? ≠ some '\x7b')
    (hclose : c = '\x7d' → s.head? ≠ some '\x7d') :
    ofText? (c :: s) =
      if c = '\x7b' then
        match Text.upTo '\x7d' s with
        | (_, false, _) => .error .unclosedBrace
        | (content, true, rest) => do
          let slot ← slot? content
          let t ← ofText? rest
          return consSlot slot t
      else if c = '\x7d' then .error .unmatchedBrace
      else (ofText? s).map (cons c) := by
  rw [ofText?]
  · congr 1
    split
    · next hfound => rw [hfound]
    · next hfound => rw [hfound]
  · rintro rest hc rfl
    exact hopen hc rfl
  · rintro rest hc rfl
    exact hclose hc rfl

def writeFragment (fragment : Text) : Text :=
  fragment.flatMap fun c => if c = '\x7b' ∨ c = '\x7d' then [c, c] else [c]

def written (t : Template) : Text :=
  writeFragment t.first ++ t.rest.flatMap fun (slot, fragment) =>
    '\x7b' :: (slot.content ++ '\x7d' :: writeFragment fragment)

end Template

end Hypertext
