import Hypertext.Text.Basic

/-!
# Substitution

One pass over a text that replaces the occurrences of given patterns. Replaced text is
never looked at again, and occurrences do not overlap.
-/

namespace Hypertext.Text

set_option autoImplicit false

/-- Where a pattern of the table stands its replacement is written, and reading goes on
behind it; of two patterns at one place the earlier in the table counts. Patterns are nonempty. -/
def substitute (table : List (Text × Text)) : Text → Text
  | [] => []
  | c :: rest =>
    match table.find? fun entry => entry.1.isPrefixOf (c :: rest) with
    | some (pattern, replacement) =>
      replacement ++ substitute table (rest.drop (pattern.length - 1))
    | none => c :: substitute table rest
termination_by t => t.length
decreasing_by all_goals simp only [List.length_drop, List.length_cons]; omega

def replace (pattern replacement : Text) : Text → Text :=
  substitute [(pattern, replacement)]

end Hypertext.Text
