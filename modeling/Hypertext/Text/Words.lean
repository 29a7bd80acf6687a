import Hypertext.Text.Basic

/-!
# Words

The words of a text are its maximal runs of characters that are not blank. A text is
normalized when its words are separated by single spaces and nothing else is in it.
-/

namespace Hypertext.Text

set_option autoImplicit false

def words (t : Text) : List Text :=
  (t.pieces isBlank).filter fun run => !run.isEmpty

def normalize (t : Text) : Text :=
  joinWith [' '] t.words

end Hypertext.Text
