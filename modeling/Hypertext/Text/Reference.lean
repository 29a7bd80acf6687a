import Hypertext.Text.Substitute

/-!
# Character references

Escaping writes the five characters with a meaning in markup as character references, so
that the result can stand in element content and in a quoted attribute value. Decoding
knows these five and two more. References that are not in the table stay as they are.
-/

namespace Hypertext.Text

set_option autoImplicit false

def escapeChar (c : Char) : Text :=
  if c = '&' then "&amp;"
  else if c = '<' then "&lt;"
  else if c = '>' then "&gt;"
  else if c = '"' then "&quot;"
  else if c = '\'' then "&#39;"
  else [c]

/-- Each character by itself, so no reference is written inside another. -/
def escape (t : Text) : Text :=
  t.flatMap escapeChar

/-- The references that are decoded. The ampersand comes last: what it completes is not
decoded once more. -/
def references : List (Text × Text) :=
  [("&lt;", "<"), ("&gt;", ">"), ("&quot;", "\""), ("&apos;", "'"), ("&#39;", "'"),
    ("&nbsp;", " "), ("&amp;", "&")]

/-- One reference after the other is decoded in the whole text, in the order of the table. -/
def decode (t : Text) : Text :=
  references.foldl (fun text (written, meant) => replace written meant text) t

end Hypertext.Text
