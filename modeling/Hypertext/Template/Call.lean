import Hypertext.Template.Basic
import Hypertext.Compose

/-!
# Template calls

A call gives a template text and the arguments for its positional slots. The text has to be
a template and the arguments have to be used up exactly; then each slot has its value, and
with values for the variables the call has its markup.
-/

namespace Hypertext

set_option autoImplicit false

/-- What goes into a slot: an argument of the call, or the variable of a name. -/
inductive Filling (α : Type) where
  | argument (value : α)
  | named (name : Text)
  deriving DecidableEq, Repr

inductive CallError where
  | badTemplate (cause : Template.SplitError)
  | missingArgument
  | unusedArgument
  deriving DecidableEq, Repr

def CallError.message : CallError → String
  | badTemplate cause => cause.message
  | missingArgument => "template has more `\x7b\x7d` placeholders than arguments"
  | unusedArgument => "argument never used"

structure Expansion (α : Type) where
  fragments : List Text
  fillings : List (Filling α)
  deriving DecidableEq, Repr

namespace Expansion

variable {α : Type}

/-- The fillings of slots: the arguments for the positional slots in order, each exactly once,
and the variables for the named ones. -/
def fill : List Slot → List α → Except CallError (List (Filling α))
  | [], [] => .ok []
  | [], _ :: _ => .error .unusedArgument
  | .named name :: slots, arguments => (fill slots arguments).map (.named name :: ·)
  | .positional :: _, [] => .error .missingArgument
  | .positional :: slots, a :: arguments => (fill slots arguments).map (.argument a :: ·)

def ofCall (template : Text) (arguments : List α) : Except CallError (Expansion α) :=
  match Template.ofText? template with
  | .error cause => .error (.badTemplate cause)
  | .ok t => (fill t.slots arguments).map fun fillings => ⟨t.fragments, fillings⟩

def markup (e : Expansion α) (meaning : Filling α → Placeholder) : Markup :=
  compose e.fragments (e.fillings.map meaning)

end Expansion

end Hypertext
