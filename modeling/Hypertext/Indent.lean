import Hypertext.Text.Substitute
import Hypertext.Note

/-!
# Indentation

A template whose text starts on a new line is indented by the white space at its start.
That indentation, with its newline, becomes a plain newline wherever it occurs, and the
outer ends of the template are trimmed. A template that starts otherwise is left as it is.
-/

namespace Hypertext.Indent

set_option autoImplicit false

/-- The newline and the indentation that a template starts with, if it starts with a newline. -/
def base? : List Text → Option Text
  | ('\n' :: first) :: _ => some ('\n' :: first.takeWhile isSpace)
  | _ => none

def trimLast : List Text → List Text
  | [] => []
  | [fragment] => [fragment.trimEnd]
  | fragment :: next :: rest => fragment :: trimLast (next :: rest)

/-- The first fragment without the white space at its start and the last one without that at
its end. -/
def trimEnds : List Text → List Text
  | [] => []
  | first :: rest => trimLast (first.trimStart :: rest)

def strip (fragments : List Text) : List Text :=
  match base? fragments with
  | none => fragments
  | some base => trimEnds (fragments.map (Text.replace base ['\n']))

/-- What is to be told of stripping: the size of the indentation without its newline. -/
def stripNotes (fragments : List Text) : List Note :=
  match base? fragments with
  | none => []
  | some base => [.indentStripped (base.size - 1)]

end Hypertext.Indent
