import Hypertext.Proofs.Template.Expression

/-!
# Steps through expressions

What one piece does to a place between pieces, as a relation with one case for each way that
is no error. Whatever is said of whole runs goes through this relation.
-/

namespace Hypertext.CallText

set_option autoImplicit false

namespace Progress

/-- An operand may come. -/
def MayBegin : Progress → Prop
  | start | operator | jump => True
  | operand | block => False

/-- An operand may end. -/
def MayEnd : Progress → Prop
  | operand | jump => True
  | start | operator | block => False

end Progress

/-- What a piece does to a place: the steps that are no error. -/
inductive Steps (place : Place) : Piece → Place → Prop where
  | openOperand : place.progress.MayBegin → Steps place (.mark '(') place.opened
  | openCall : place.progress.MayEnd → Steps place (.mark '(') place.opened
  | closeEmpty : place.progress = .start → Steps place (.mark ')') place.closed
  | close : place.progress.MayEnd → place.frames.head? ≠ some .condition →
      Steps place (.mark ')') place.closed
  | name {word : Text} : place.progress.MayBegin → roleOf word = .operand →
      Steps place (.word word) ⟨place.frames, .operand⟩
  | string (written value : Text) : place.progress.MayBegin →
      Steps place (.string written value) ⟨place.frames, .operand⟩
  | literal (written : Text) : place.progress.MayBegin →
      Steps place (.literal written) ⟨place.frames, .operand⟩
  | jump {word : Text} : place.progress.MayBegin → roleOf word = .jump →
      Steps place (.word word) ⟨place.frames, .jump⟩
  | operator {word : Text} : place.progress.MayBegin → roleOf word = .operator →
      Steps place (.word word) ⟨place.frames, .operator⟩
  | condition {word : Text} : place.progress.MayBegin → roleOf word = .condition →
      Steps place (.word word) ⟨.condition :: place.frames, .operator⟩
  | block {word : Text} : place.progress.MayBegin → roleOf word = .block →
      Steps place (.word word) ⟨place.frames, .block⟩
  | leading {c : Char} : place.progress.MayBegin → leadsOperand c = true →
      Steps place (.mark c) ⟨place.frames, .operator⟩
  | joining {piece : Piece} : place.progress.MayEnd → joinsOperands piece = true →
      Steps place piece ⟨place.frames, .operator⟩
  | comma : place.progress.MayEnd → place.frames.head? ≠ some .condition →
      Steps place (.mark ',') ⟨place.frames, .start⟩

namespace Place
variable {place next : Place} {piece : Piece}

theorem steps_of_intoOperand (hbegin : place.progress.MayBegin)
    (h : place.intoOperand piece = .ok next) : Steps place piece next := by
  unfold intoOperand at h
  split at h
  · next word =>
    unfold pastWord at h
    split at h
    · next hrole =>
      obtain rfl := Except.ok.inj h
      exact .name hbegin hrole
    · next hrole =>
      obtain rfl := Except.ok.inj h
      exact .operator hbegin hrole
    · next hrole =>
      obtain rfl := Except.ok.inj h
      exact .jump hbegin hrole
    · next hrole =>
      obtain rfl := Except.ok.inj h
      exact .condition hbegin hrole
    · next hrole =>
      obtain rfl := Except.ok.inj h
      exact .block hbegin hrole
    · cases h
    · cases h
  · obtain rfl := Except.ok.inj h
    exact .string _ _ hbegin
  · obtain rfl := Except.ok.inj h
    exact .literal _ hbegin
  · cases h
  · split at h
    · next c hc =>
      subst hc
      obtain rfl := Except.ok.inj h
      exact .openOperand hbegin
    · split at h
      · next c _ hleads =>
        obtain rfl := Except.ok.inj h
        exact .leading hbegin hleads
      · split at h
        · cases h
        · next hclose =>
          rw [not_not] at hclose
          subst hclose
          split at h
          · next hstart =>
            obtain rfl := Except.ok.inj h
            exact .closeEmpty hstart
          · cases h

theorem steps_of_pastOperand (hend : place.progress.MayEnd)
    (h : place.pastOperand piece = .ok next) : Steps place piece next := by
  unfold pastOperand at h
  split at h
  · next hopen =>
    subst hopen
    obtain rfl := Except.ok.inj h
    exact .openCall hend
  · split at h
    · next hjoins =>
      obtain rfl := Except.ok.inj h
      exact .joining hend hjoins
    · split at h
      · cases h
      · next hframe =>
        split at h
        · next hclose =>
          subst hclose
          obtain rfl := Except.ok.inj h
          exact .close hend hframe
        · split at h
          · next hcomma =>
            subst hcomma
            obtain rfl := Except.ok.inj h
            exact .comma hend hframe
          · cases h

/-- From an operator and from a word that may have an operand behind it lead the same steps into
an operand. -/
theorem steps_of_operator {frames : List Frame} {progress : Progress}
    (h : Steps ⟨frames, .operator⟩ piece next) (hbegin : progress.MayBegin) :
    Steps ⟨frames, progress⟩ piece next := by
  cases h with
  | openOperand => exact .openOperand hbegin
  | openCall hend => cases hend
  | closeEmpty hstart => cases hstart
  | close hend => cases hend
  | name _ hrole => exact .name hbegin hrole
  | string => exact .string _ _ hbegin
  | literal => exact .literal _ hbegin
  | jump _ hrole => exact .jump hbegin hrole
  | operator _ hrole => exact .operator hbegin hrole
  | condition _ hrole => exact .condition hbegin hrole
  | block _ hrole => exact .block hbegin hrole
  | leading _ hleads => exact .leading hbegin hleads
  | joining hend => cases hend
  | comma hend => cases hend

theorem steps_of_step (h : place.step piece = .ok next) : Steps place piece next := by
  obtain ⟨frames, progress⟩ := place
  cases progress with
  | start => exact steps_of_intoOperand trivial h
  | operator => exact steps_of_intoOperand trivial h
  | operand => exact steps_of_pastOperand trivial h
  | jump =>
    unfold step at h
    dsimp only at h
    split at h
    · exact steps_of_operator (steps_of_intoOperand trivial h) trivial
    · exact steps_of_pastOperand trivial h
  | block => cases h

theorem step_eq_intoOperand (hbegin : place.progress.MayBegin)
    (h : startsOperand piece = true) :
    place.step piece = (Place.mk place.frames .operator).intoOperand piece := by
  obtain ⟨frames, progress⟩ := place
  have hclose : piece ≠ .mark ')' := by
    rintro rfl
    revert h
    decide
  cases progress with
  | start =>
    cases piece with
    | mark c =>
      have hc : c ≠ ')' := fun hc => hclose (by rw [hc])
      simp [step, intoOperand, hc, opened]
    | word => rfl
    | string => rfl
    | literal => rfl
    | label => rfl
  | operator => rfl
  | operand => cases hbegin
  | jump => rw [step, if_pos h]
  | block => cases hbegin

theorem step_eq_pastOperand (hend : place.progress.MayEnd) (h : startsOperand piece = false) :
    place.step piece = place.pastOperand piece := by
  obtain ⟨frames, progress⟩ := place
  cases progress with
  | start => cases hend
  | operator => cases hend
  | operand => rfl
  | jump => simp [step, h]
  | block => cases hend

theorem startsOperand_word {word : Text} (h : roleOf word ≠ .reserved) :
    startsOperand (.word word) = true := by
  apply decide_eq_true
  rintro rfl
  exact h (by decide)

theorem step_word {word : Text} (hbegin : place.progress.MayBegin)
    (h : roleOf word ≠ .reserved) :
    place.step (.word word) = (Place.mk place.frames .operator).pastWord word :=
  step_eq_intoOperand hbegin (startsOperand_word h)

theorem step_joining (hend : place.progress.MayEnd) (h : joinsOperands piece = true) :
    place.step piece = .ok ⟨place.frames, .operator⟩ := by
  obtain ⟨c, hc, hpiece⟩ := List.any_eq_true.mp h
  obtain rfl := of_decide_eq_true hpiece
  have hopen : c ≠ '(' := by
    rintro rfl
    simp at hc
  by_cases hleads : leadsOperand c = true
  · obtain ⟨frames, progress⟩ := place
    cases progress with
    | start => cases hend
    | operator => cases hend
    | operand => simp [step, pastOperand, hopen, h]
    | jump => simp [step, startsOperand, intoOperand, hopen, hleads]
    | block => cases hend
  · rw [step_eq_pastOperand hend (by simp [startsOperand, hopen, hleads])]
    simp [pastOperand, hopen, h]

theorem step_of_steps (h : Steps place piece next) : place.step piece = .ok next := by
  cases h with
  | openOperand hbegin => exact step_eq_intoOperand hbegin rfl
  | openCall hend =>
    obtain ⟨frames, progress⟩ := place
    cases progress with
    | start => cases hend
    | operator => cases hend
    | operand => rfl
    | jump => rfl
    | block => cases hend
  | closeEmpty hstart => simp [step, hstart, intoOperand, leadsOperand]
  | close hend hframe =>
    rw [step_eq_pastOperand hend rfl]
    simp [pastOperand, joinsOperands, hframe]
  | name hbegin hrole => rw [step_word hbegin (by simp [hrole]), pastWord, hrole]
  | string written value hbegin => exact step_eq_intoOperand hbegin rfl
  | literal written hbegin => exact step_eq_intoOperand hbegin rfl
  | jump hbegin hrole => rw [step_word hbegin (by simp [hrole]), pastWord, hrole]
  | operator hbegin hrole => rw [step_word hbegin (by simp [hrole]), pastWord, hrole]
  | condition hbegin hrole => rw [step_word hbegin (by simp [hrole]), pastWord, hrole]
  | block hbegin hrole => rw [step_word hbegin (by simp [hrole]), pastWord, hrole]
  | @leading c hbegin hleads =>
    have hopen : c ≠ '(' := by
      rintro rfl
      revert hleads
      decide
    rw [step_eq_intoOperand hbegin (by simp [startsOperand, hleads])]
    simp [intoOperand, hopen, hleads]
  | joining hend hjoins => exact step_joining hend hjoins
  | comma hend hframe =>
    rw [step_eq_pastOperand hend rfl]
    simp [pastOperand, joinsOperands, hframe]

/-- The steps that are no error. -/
theorem step_eq_ok_iff : place.step piece = .ok next ↔ Steps place piece next :=
  ⟨steps_of_step, step_of_steps⟩

end Place
end Hypertext.CallText
