import Hypertext.Template.Call
import Hypertext.Proofs.Compose.Nested

/-!
# Slots and what fills them

A call whose text is a template has its markup if there are as many arguments as positional
slots. Then every slot has its filling: the variable of its name, or the next argument in turn.
Too few and too many arguments are told apart, and a text that is no template is refused with
its own cause, whatever the arguments are.
-/

namespace Hypertext

set_option autoImplicit false

theorem Template.length_fragments (t : Template) : t.fragments.length = t.slots.length + 1 := by
  simp [fragments, slots]

namespace Expansion

variable {α : Type} {slots : List Slot} {arguments : List α} {fillings : List (Filling α)}

/-- The fillings of slots one by one: the variable for a named slot, and for a positional slot
the argument that has as many before it as there are positional slots before the slot. -/
structure Pairs (slots : List Slot) (arguments : List α) (fillings : List (Filling α)) : Prop where
  length_eq : fillings.length = slots.length
  named : ∀ (i : Nat) (name : Text), slots[i]? = some (Slot.named name) →
    fillings[i]? = some (Filling.named name)
  positional : ∀ i : Nat, slots[i]? = some Slot.positional →
    ∃ a, arguments[(slots.take i).count .positional]? = some a ∧
      fillings[i]? = some (Filling.argument a)

theorem count_named_cons (name : Text) (slots : List Slot) :
    (Slot.named name :: slots).count .positional = slots.count .positional :=
  List.count_cons_of_ne (by simp)

theorem pairs_nil : Pairs [] [] ([] : List (Filling α)) := by
  refine ⟨rfl, ?_, ?_⟩
  · intro i name h
    simp at h
  · intro i h
    simp at h

theorem Pairs.cons_named (h : Pairs slots arguments fillings) (name : Text) :
    Pairs (.named name :: slots) arguments (.named name :: fillings) := by
  refine ⟨congrArg (· + 1) h.length_eq, ?_, ?_⟩
  · intro i other hslot
    cases i with
    | zero => simpa using hslot
    | succ i => exact h.named i other hslot
  · intro i hslot
    cases i with
    | zero => simp at hslot
    | succ i =>
      have hrest := h.positional i hslot
      rwa [List.take_succ_cons, count_named_cons]

theorem Pairs.cons_positional (h : Pairs slots arguments fillings) (a : α) :
    Pairs (.positional :: slots) (a :: arguments) (.argument a :: fillings) := by
  refine ⟨congrArg (· + 1) h.length_eq, ?_, ?_⟩
  · intro i name hslot
    cases i with
    | zero => simp at hslot
    | succ i => exact h.named i name hslot
  · intro i hslot
    cases i with
    | zero => exact ⟨a, rfl, rfl⟩
    | succ i =>
      have hrest := h.positional i hslot
      rwa [List.take_succ_cons, List.count_cons_self]

/-- Filling succeeds where the arguments are as many as the positional slots, and a slot is
paired with what is meant for it. -/
theorem fill_of_length_eq (h : arguments.length = slots.count .positional) :
    ∃ fillings, fill slots arguments = .ok fillings ∧ Pairs slots arguments fillings := by
  induction slots generalizing arguments with
  | nil =>
    obtain rfl := List.eq_nil_of_length_eq_zero h
    exact ⟨[], rfl, pairs_nil⟩
  | cons slot slots ih =>
    cases slot with
    | named name =>
      rw [count_named_cons] at h
      obtain ⟨fillings, hfill, hpairs⟩ := ih h
      refine ⟨.named name :: fillings, ?_, hpairs.cons_named name⟩
      rw [fill, hfill]
      rfl
    | positional =>
      rw [List.count_cons_self] at h
      obtain ⟨a, arguments, rfl⟩ := List.exists_cons_of_length_eq_add_one h
      obtain ⟨fillings, hfill, hpairs⟩ := ih (Nat.succ_inj.mp h)
      refine ⟨.argument a :: fillings, ?_, hpairs.cons_positional a⟩
      rw [fill, hfill]
      rfl

theorem fill_of_length_lt (h : arguments.length < slots.count .positional) :
    fill slots arguments = .error .missingArgument := by
  induction slots generalizing arguments with
  | nil => exact absurd h (Nat.not_lt_zero _)
  | cons slot slots ih =>
    cases slot with
    | named name =>
      rw [count_named_cons] at h
      rw [fill, ih h]
      rfl
    | positional =>
      rw [List.count_cons_self] at h
      cases arguments with
      | nil => rfl
      | cons a arguments =>
        rw [fill, ih (Nat.lt_of_succ_lt_succ h)]
        rfl

theorem fill_of_lt_length (h : slots.count .positional < arguments.length) :
    fill slots arguments = .error .unusedArgument := by
  induction slots generalizing arguments with
  | nil =>
    obtain ⟨a, rest, rfl⟩ := List.exists_cons_of_length_pos h
    rfl
  | cons slot slots ih =>
    cases slot with
    | named name =>
      rw [count_named_cons] at h
      rw [fill, ih h]
      rfl
    | positional =>
      rw [List.count_cons_self] at h
      obtain ⟨a, rest, rfl⟩ := List.exists_cons_of_length_pos (Nat.zero_lt_of_lt h)
      rw [fill, ih (Nat.lt_of_succ_lt_succ h)]
      rfl

variable {template : Text}

theorem ofCall_of_error {cause : Template.SplitError}
    (h : Template.ofText? template = .error cause) :
    ofCall template arguments = .error (.badTemplate cause) := by
  rw [ofCall, h]

section Calls
variable {t : Template} (h : Template.ofText? template = .ok t)
include h

theorem ofCall_of_ok : ofCall template arguments =
    (fill t.slots arguments).map fun fillings => ⟨t.fragments, fillings⟩ := by
  rw [ofCall, h]

theorem ofCall_of_length_eq (hcount : arguments.length = t.slots.count .positional) :
    ∃ fillings, ofCall template arguments = .ok ⟨t.fragments, fillings⟩ ∧
      Pairs t.slots arguments fillings := by
  obtain ⟨fillings, hfill, hpairs⟩ := fill_of_length_eq hcount
  refine ⟨fillings, ?_, hpairs⟩
  rw [ofCall_of_ok h, hfill]
  rfl

theorem ofCall_of_length_lt (hcount : arguments.length < t.slots.count .positional) :
    ofCall template arguments = .error .missingArgument := by
  rw [ofCall_of_ok h, fill_of_length_lt hcount]
  rfl

theorem ofCall_of_lt_length (hcount : t.slots.count .positional < arguments.length) :
    ofCall template arguments = .error .unusedArgument := by
  rw [ofCall_of_ok h, fill_of_lt_length hcount]
  rfl

/-- Only one number of arguments is neither too small nor too large. -/
theorem length_eq_of_ofCall_eq_ok {e : Expansion α} (he : ofCall template arguments = .ok e) :
    arguments.length = t.slots.count .positional := by
  rcases Nat.lt_trichotomy arguments.length (t.slots.count .positional) with hlt | heq | hgt
  · rw [ofCall_of_length_lt h hlt] at he
    cases he
  · exact heq
  · rw [ofCall_of_lt_length h hgt] at he
    cases he

theorem of_ofCall_eq_ok {e : Expansion α} (he : ofCall template arguments = .ok e) :
    e.fragments = t.fragments ∧ Pairs t.slots arguments e.fillings := by
  obtain ⟨fillings, hcall, hpairs⟩ := ofCall_of_length_eq h (length_eq_of_ofCall_eq_ok h he)
  rw [hcall] at he
  cases he
  exact ⟨rfl, hpairs⟩

end Calls

theorem html_markup {e : Expansion α} (h : e.fragments.length = e.fillings.length + 1)
    (meaning : Filling α → Placeholder) :
    (e.markup meaning).html = weave (Indent.strip e.fragments) (e.fillings.map meaning) := by
  apply interleave_eq_weave
  rw [Indent.length_strip, h, List.length_map]

/-- Calls that are expanded have as many arguments as positional slots. Then each slot is paired
with what is meant for it, and with values for the fillings the markup is the stripped fragments
with these values between them. Every other call is refused, with the message of its cause. -/
theorem ofCall_cases (template : Text) (arguments : List α) :
    (∀ cause, Template.ofText? template = .error cause →
      ∃ e, ofCall template arguments = .error e ∧ e.message = cause.message) ∧
    ∀ t, Template.ofText? template = .ok t →
      ((∃ e, ofCall template arguments = .ok e) ↔
        arguments.length = t.slots.count .positional) ∧
      (∀ e, ofCall template arguments = .ok e →
        e.fragments = t.fragments ∧ Pairs t.slots arguments e.fillings ∧
          (Indent.strip t.fragments).length = e.fillings.length + 1 ∧
          ∀ meaning : Filling α → Placeholder,
            (e.markup meaning).html =
              weave (Indent.strip t.fragments) (e.fillings.map meaning)) ∧
      (arguments.length < t.slots.count .positional →
        ∃ e, ofCall template arguments = .error e ∧
          e.message = "template has more `\x7b\x7d` placeholders than arguments") ∧
      (t.slots.count .positional < arguments.length →
        ∃ e, ofCall template arguments = .error e ∧ e.message = "argument never used") := by
  refine ⟨?_, ?_⟩
  · intro cause h
    exact ⟨.badTemplate cause, ofCall_of_error h, rfl⟩
  · intro t h
    refine ⟨⟨?_, ?_⟩, ?_, ?_, ?_⟩
    · rintro ⟨e, he⟩
      exact length_eq_of_ofCall_eq_ok h he
    · intro hcount
      obtain ⟨fillings, hcall, -⟩ := ofCall_of_length_eq h hcount
      exact ⟨⟨t.fragments, fillings⟩, hcall⟩
    · intro e he
      obtain ⟨hfragments, hpairs⟩ := of_ofCall_eq_ok h he
      have hlength : t.fragments.length = e.fillings.length + 1 := by
        rw [hpairs.length_eq, Template.length_fragments]
      refine ⟨hfragments, hpairs, (Indent.length_strip t.fragments).trans hlength, ?_⟩
      intro meaning
      rw [← hfragments] at hlength ⊢
      exact html_markup hlength meaning
    · intro hcount
      exact ⟨.missingArgument, ofCall_of_length_lt h hcount, rfl⟩
    · intro hcount
      exact ⟨.unusedArgument, ofCall_of_lt_length h hcount, rfl⟩

theorem ofCall_cases_mixed_slots :
    (∃ e, ofCall "\x7b\x7da\x7bx\x7d\x7b\x7d".toList [7, 8] = .ok e ∧
        e.fillings[1]? = some (.named ['x']) ∧ e.fillings[2]? = some (.argument 8)) ∧
      (∃ e, ofCall "\x7b\x7da\x7bx\x7d\x7b\x7d".toList [7] = .error e ∧
        e.message = "template has more `\x7b\x7d` placeholders than arguments") ∧
      (∃ e, ofCall "\x7b\x7da\x7bx\x7d\x7b\x7d".toList [7, 8, 9] = .error e ∧
        e.message = "argument never used") ∧
      ∃ e, ofCall "\x7b\x7d\x7d".toList [7, 8] = .error e ∧
        e.message = Template.SplitError.unmatchedBrace.message := by
  have hread : Template.ofText? "\x7b\x7da\x7bx\x7d\x7b\x7d".toList =
      .ok ⟨[], [(.positional, ['a']), (.named ['x'], []), (.positional, [])]⟩ := by cbv
  have hbad : Template.ofText? "\x7b\x7d\x7d".toList = .error .unmatchedBrace := by cbv
  refine ⟨?_, ?_, ?_, ?_⟩
  · obtain ⟨⟨-, hexact⟩, hexpanded, -⟩ := (ofCall_cases _ [7, 8]).2 _ hread
    obtain ⟨e, he⟩ := hexact (by decide)
    obtain ⟨-, hpairs, -⟩ := hexpanded e he
    obtain ⟨a, ha, hfilling⟩ := hpairs.positional 2 rfl
    cases ha
    exact ⟨e, he, hpairs.named 1 ['x'] rfl, hfilling⟩
  · exact ((ofCall_cases _ [7]).2 _ hread).2.2.1 (by decide)
  · exact ((ofCall_cases _ [7, 8, 9]).2 _ hread).2.2.2 (by decide)
  · exact (ofCall_cases _ [7, 8]).1 _ hbad

end Expansion

end Hypertext
