import Hypertext.Text.Basic

/-!
# Markup

Text that may stand in markup as it is. Only what is wrapped here goes into a template
without being escaped; whoever wraps a text vouches for it.
-/

namespace Hypertext

set_option autoImplicit false

/-- Trusted markup. Two are equal when their texts are. -/
structure Markup where
  html : Text
  deriving DecidableEq, Repr

instance : Inhabited Markup := ⟨⟨[]⟩⟩

end Hypertext
