import Hypertext.Indent
import Hypertext.Placeholder

/-!
# Composing markup

Markup from the literal fragments of a template and the placeholders between them.
-/

namespace Hypertext

set_option autoImplicit false

/-- Fragments with resolved placeholders between them. Where placeholders are missing nothing
is put in, and what is left over of them is ignored. -/
def interleave : List Text → List Placeholder → Text
  | [], _ => []
  | fragment :: rest, placeholders =>
    match rest, placeholders with
    | [], _ => fragment
    | _, [] => fragment ++ interleave rest []
    | _, p :: ps => fragment ++ (p.resolve ++ interleave rest ps)

/-- The markup of a template. Indentation is stripped from the fragments only. -/
def compose (fragments : List Text) (placeholders : List Placeholder) : Markup :=
  ⟨interleave (Indent.strip fragments) placeholders⟩

def composeNotes (fragments : List Text) : List Note :=
  Indent.stripNotes fragments

end Hypertext
