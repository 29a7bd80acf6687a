import Hypertext.Text.Basic

/-!
# Notes

What happened on the way to a result and is worth telling, each kind by its cause. Notes
stand beside the results; no result depends on them.
-/

namespace Hypertext

set_option autoImplicit false

/-- Something that was decided or mended. Sizes and offsets are in UTF-8 bytes. -/
inductive Note where
  | indentStripped (bytes : Nat)
  | unterminatedComment (offset : Nat)
  | namelessEndTag (offset : Nat)
  | unclosedRawText (element : Text)
  | impliedEnd (opening closed : Text)
  | strayEndTag (element : Text)
  | hiddenElement (element : Text)
  | contentReplaced (element marker : Text)
  deriving DecidableEq, Repr

namespace Note

inductive Level where
  | trace
  | debug
  deriving DecidableEq, Repr

/-- The half of the library that a note comes from: writing markup or looking at it. -/
inductive Area where
  | templates
  | testing
  deriving DecidableEq, Repr

/-- What mends the input is for debugging; what only follows its rules is a trace. -/
def level : Note → Level
  | unterminatedComment _ | namelessEndTag _ | unclosedRawText _ | strayEndTag _ => .debug
  | indentStripped _ | impliedEnd .. | hiddenElement _ | contentReplaced .. => .trace

def area : Note → Area
  | indentStripped _ => .templates
  | _ => .testing

def message : Note → String
  | indentStripped bytes => s!"stripped template indent of {bytes} bytes"
  | unterminatedComment offset => s!"unterminated comment at byte {offset}"
  | namelessEndTag offset => s!"ignoring nameless end tag at byte {offset}"
  | unclosedRawText element =>
    "<" ++ String.ofList element ++ "> has no close tag, treating the rest as its content"
  | impliedEnd opening closed =>
    "<" ++ String.ofList opening ++ "> implies </" ++ String.ofList closed ++ ">"
  | strayEndTag element => "dropping stray </" ++ String.ofList element ++ ">"
  | hiddenElement element => "skipping hidden <" ++ String.ofList element ++ ">"
  | contentReplaced element marker =>
    "<" ++ String.ofList element ++ "> content replaced by " ++ String.ofList marker

end Note

end Hypertext
