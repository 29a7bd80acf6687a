import Hypertext.Template.Basic
import Hypertext.Proofs.Text.Basic

/-!
# Template texts and what is written

A list of fragments with one slot fewer is written with its braces doubled and its slots in
single braces. Reading a template text accepts what is written in this way and nothing else,
and gives the fragments and slots back.
-/

namespace Hypertext.Template

set_option autoImplicit false

def IsName (name : Text) : Prop :=
  ∃ c rest, name = c :: rest ∧ (c.isAlpha = true ∨ c = '_') ∧
    ∀ d ∈ rest, d.isAlphanum = true ∨ d = '_'

theorem isIdentifier_eq_true_iff {name : Text} : isIdentifier name = true ↔ IsName name := by
  cases name with
  | nil => simp [isIdentifier, IsName]
  | cons c rest => simp [isIdentifier, IsName]

/-- What a template text can be divided into. -/
structure AreParts (fragments : List Text) (slots : List Slot) : Prop where
  length_eq : fragments.length = slots.length + 1
  isName : ∀ name, .named name ∈ slots → IsName name

/-- The text of fragments with slots between them. -/
def writtenParts : List Text → List Slot → Text
  | [], _ => []
  | fragment :: _, [] => writeFragment fragment
  | fragment :: fragments, slot :: slots =>
    writeFragment fragment ++ '\x7b' :: (slot.content ++ '\x7d' :: writtenParts fragments slots)

def parts? (s : Text) : Except SplitError (List Text × List Slot) :=
  (ofText? s).map fun t => (t.fragments, t.slots)

/-! ## Reading what is written -/

theorem IsName.notMem_close {name : Text} (h : IsName name) : '\x7d' ∉ name := by
  obtain ⟨c, rest, rfl, hc, hrest⟩ := h
  intro hmem
  rcases List.mem_cons.mp hmem with rfl | hmem
  · revert hc
    decide
  · have hclose := hrest _ hmem
    revert hclose
    decide

theorem IsName.head?_ne_open {name : Text} (h : IsName name) (t : Text) :
    (name ++ t).head? ≠ some '\x7b' := by
  obtain ⟨c, rest, rfl, hc, -⟩ := h
  intro hhead
  obtain rfl : c = '\x7b' := by simpa using hhead
  revert hc
  decide

theorem ofText?_plain {c : Char} (hopen : c ≠ '\x7b') (hclose : c ≠ '\x7d') (s : Text) :
    ofText? (c :: s) = (ofText? s).map (cons c) := by
  rw [ofText?_cons (fun hc => absurd hc hopen) fun hc => absurd hc hclose, if_neg hopen,
    if_neg hclose]

theorem slot?_content {slot : Slot} (h : ∀ name, slot = .named name → IsName name) :
    slot? slot.content = .ok slot := by
  cases slot with
  | positional => rfl
  | named name =>
    have hname := h name rfl
    have hne : name ≠ [] := by
      obtain ⟨c, rest, rfl, -⟩ := hname
      exact List.cons_ne_nil c rest
    rw [Slot.content, slot?, if_neg hne, if_pos (isIdentifier_eq_true_iff.mpr hname)]

theorem ofText?_open {s content rest : Text} (hhead : s.head? ≠ some '\x7b')
    (hupTo : Text.upTo '\x7d' s = (content, true, rest)) :
    ofText? ('\x7b' :: s) = (do
      let slot ← slot? content
      let t ← ofText? rest
      return consSlot slot t) := by
  have hclose : '\x7b' = '\x7d' → s.head? ≠ some '\x7d' := fun h => absurd h (by decide)
  rw [ofText?_cons (fun _ => hhead) hclose, if_pos rfl, hupTo]

theorem ofText?_slot_append {slot : Slot} (h : ∀ name, slot = .named name → IsName name)
    (s : Text) :
    ofText? ('\x7b' :: (slot.content ++ '\x7d' :: s)) = (ofText? s).map (consSlot slot) := by
  have hhead : (slot.content ++ '\x7d' :: s).head? ≠ some '\x7b' := by
    cases slot with
    | positional => simp [Slot.content]
    | named name => exact (h name rfl).head?_ne_open _
  have hclose : '\x7d' ∉ slot.content := by
    cases slot with
    | positional => simp [Slot.content]
    | named name => exact (h name rfl).notMem_close
  rw [ofText?_open hhead (Text.upTo_append_cons hclose s), slot?_content h]
  cases ofText? s <;> rfl

theorem ofText?_writeFragment_append {s : Text} {t : Template} (h : ofText? s = .ok t)
    (fragment : Text) :
    ofText? (writeFragment fragment ++ s) = .ok ⟨fragment ++ t.first, t.rest⟩ := by
  induction fragment with
  | nil => exact h
  | cons c fragment ih =>
    rw [writeFragment, List.flatMap_cons, ← writeFragment, List.append_assoc]
    by_cases hopen : c = '\x7b'
    · subst hopen
      rw [if_pos (.inl rfl), List.cons_append, List.cons_append, ofText?, List.nil_append, ih]
      rfl
    · by_cases hclose : c = '\x7d'
      · subst hclose
        rw [if_pos (.inr rfl), List.cons_append, List.cons_append, ofText?, List.nil_append, ih]
        rfl
      · rw [if_neg (not_or.mpr ⟨hopen, hclose⟩), List.singleton_append,
          ofText?_plain hopen hclose, ih]
        rfl

theorem parts?_writtenParts_of_areParts {fragments : List Text} {slots : List Slot}
    (h : AreParts fragments slots) :
    parts? (writtenParts fragments slots) = .ok (fragments, slots) := by
  suffices hread : ∃ t, ofText? (writtenParts fragments slots) = .ok t ∧
      t.fragments = fragments ∧ t.slots = slots by
    obtain ⟨t, ht, rfl, rfl⟩ := hread
    rw [parts?, ht]
    rfl
  induction fragments generalizing slots with
  | nil => cases h.length_eq
  | cons fragment fragments ih =>
    cases slots with
    | nil =>
      have hnone : fragments = [] := by simpa using h.length_eq
      have hread := ofText?_writeFragment_append (s := []) (by rw [ofText?]) fragment
      rw [List.append_nil] at hread
      refine ⟨_, hread, ?_, rfl⟩
      simp [Template.fragments, hnone]
    | cons slot slots =>
      have hrest : AreParts fragments slots := by
        refine ⟨by simpa using h.length_eq, ?_⟩
        intro name hname
        exact h.isName name (List.mem_cons_of_mem slot hname)
      obtain ⟨t, ht, rfl, rfl⟩ := ih hrest
      have hslot : ofText? ('\x7b' :: (slot.content ++ '\x7d' ::
          writtenParts t.fragments t.slots)) = .ok (consSlot slot t) := by
        rw [ofText?_slot_append, ht]
        · rfl
        · rintro name rfl
          exact h.isName name List.mem_cons_self
      refine ⟨_, ofText?_writeFragment_append hslot fragment, ?_, ?_⟩
      · simp [Template.fragments, consSlot]
      · simp [Template.slots, consSlot]

/-! ## What is read was written -/

theorem writtenParts_cons (c : Char) (t : Template) :
    writtenParts (cons c t).fragments (cons c t).slots =
      writeFragment [c] ++ writtenParts t.fragments t.slots := by
  obtain ⟨first, rest⟩ := t
  cases rest with
  | nil => simp [cons, Template.fragments, Template.slots, writtenParts, writeFragment]
  | cons slot rest => simp [cons, Template.fragments, Template.slots, writtenParts, writeFragment]

theorem writtenParts_consSlot (slot : Slot) (t : Template) :
    writtenParts (consSlot slot t).fragments (consSlot slot t).slots =
      '\x7b' :: (slot.content ++ '\x7d' :: writtenParts t.fragments t.slots) := rfl

theorem AreParts.cons {t : Template} (h : AreParts t.fragments t.slots) (c : Char) :
    AreParts (t.cons c).fragments (t.cons c).slots := by
  refine ⟨?_, h.isName⟩
  simp [Template.fragments, Template.slots, Template.cons]

theorem of_slot?_eq_ok {content : Text} {slot : Slot} (h : slot? content = .ok slot) :
    slot.content = content ∧ ∀ name, slot = .named name → IsName name := by
  unfold slot? at h
  split_ifs at h with hnil hname
  · cases h
    exact ⟨hnil.symm, fun name hslot => by cases hslot⟩
  · cases h
    refine ⟨rfl, ?_⟩
    rintro name ⟨rfl⟩
    exact isIdentifier_eq_true_iff.mp hname

/-- A character more in front of the first fragment is a character more in front of the text. -/
theorem of_map_cons_eq_ok {read : Except SplitError Template} {c : Char} {s : Text} {t : Template}
    (ih : ∀ {u}, read = .ok u → AreParts u.fragments u.slots ∧
      s = writtenParts u.fragments u.slots)
    (h : read.map (cons c) = .ok t) :
    AreParts t.fragments t.slots ∧
      writeFragment [c] ++ s = writtenParts t.fragments t.slots := by
  cases read with
  | error e => cases h
  | ok u =>
    cases h
    obtain ⟨hparts, hwritten⟩ := ih rfl
    exact ⟨hparts.cons c, by rw [writtenParts_cons, ← hwritten]⟩

theorem of_bind_slot?_eq_ok {read : Except SplitError Template} {content : Text} {t : Template}
    (h : (do
      let slot ← slot? content
      let t ← read
      return consSlot slot t) = .ok t) :
    ∃ slot u, slot? content = .ok slot ∧ read = .ok u ∧ t = consSlot slot u := by
  cases hslot : slot? content with
  | error e =>
    rw [hslot] at h
    cases h
  | ok slot =>
    rw [hslot] at h
    cases read with
    | error e => cases h
    | ok u =>
      cases h
      exact ⟨slot, u, rfl, rfl, rfl⟩

theorem of_ofText?_eq_ok {s : Text} {t : Template} (h : ofText? s = .ok t) :
    AreParts t.fragments t.slots ∧ s = writtenParts t.fragments t.slots := by
  fun_induction ofText? s generalizing t with
  | case1 =>
    cases h
    exact ⟨⟨rfl, by simp [Template.slots]⟩, rfl⟩
  | case2 s ih => exact of_map_cons_eq_ok ih h
  | case3 s ih => exact of_map_cons_eq_ok ih h
  | case4 => cases h
  | case5 s content rest hupTo _ _ ih =>
    obtain ⟨slot, u, hslot, hu, rfl⟩ := of_bind_slot?_eq_ok h
    obtain ⟨hparts, hwritten⟩ := ih hu
    obtain ⟨rfl, hname⟩ := of_slot?_eq_ok hslot
    refine ⟨⟨?_, ?_⟩, ?_⟩
    · exact congrArg (· + 1) hparts.length_eq
    · intro name hmem
      rcases List.mem_cons.mp hmem with heq | hmem
      · exact hname name heq.symm
      · exact hparts.isName name hmem
    · have hwhole := Text.upTo_eq '\x7d' s
      rw [hupTo] at hwhole
      rw [writtenParts_consSlot, ← hwritten, ← hwhole]
      rfl
  | case6 => cases h
  | case7 c s _ _ hopen hclose ih =>
    have hplain : writeFragment [c] = [c] := by simp [writeFragment, hopen, hclose]
    have hread := of_map_cons_eq_ok ih h
    rwa [hplain] at hread

theorem parts?_eq_ok_iff {s : Text} {fragments : List Text} {slots : List Slot} :
    parts? s = .ok (fragments, slots) ↔
      AreParts fragments slots ∧ s = writtenParts fragments slots := by
  constructor
  · intro h
    rw [parts?] at h
    cases hread : ofText? s with
    | error e =>
      rw [hread] at h
      cases h
    | ok t =>
      rw [hread] at h
      cases h
      exact of_ofText?_eq_ok hread
  · rintro ⟨hparts, rfl⟩
    exact parts?_writtenParts_of_areParts hparts

/-- Reading a template text undoes writing: the texts that are read are those of fragments with
slots between them, each is read as what it was written from, and all others are refused. -/
theorem parts?_inverts_writtenParts (s : Text) :
    (∀ fragments slots, parts? s = .ok (fragments, slots) ↔
      AreParts fragments slots ∧ s = writtenParts fragments slots) ∧
    (∀ fragments slots, AreParts fragments slots →
      parts? (writtenParts fragments slots) = .ok (fragments, slots)) ∧
    (∀ fragments slots fragments' slots', AreParts fragments slots →
      AreParts fragments' slots' →
      writtenParts fragments slots = writtenParts fragments' slots' →
      fragments = fragments' ∧ slots = slots') ∧
    ((¬ ∃ fragments slots, AreParts fragments slots ∧ s = writtenParts fragments slots) →
      ∃ e, parts? s = .error e) := by
  refine ⟨fun _ _ => parts?_eq_ok_iff, fun _ _ => parts?_writtenParts_of_areParts, ?_, ?_⟩
  · intro fragments slots fragments' slots' h h' hsame
    have hread := parts?_writtenParts_of_areParts h
    rw [hsame, parts?_writtenParts_of_areParts h'] at hread
    simpa [eq_comm] using hread
  · intro hnone
    cases hread : parts? s with
    | error e => exact ⟨e, rfl⟩
    | ok parts => exact absurd ⟨parts.1, parts.2, parts?_eq_ok_iff.mp hread⟩ hnone

theorem parts?_inverts_writtenParts_braces :
    parts? "a\x7b\x7b\x7bx_1\x7d\x7d\x7d\x7b\x7d".toList =
        .ok (["a\x7b".toList, "\x7d".toList, []], [.named "x_1".toList, .positional]) ∧
      ∃ e, parts? "\x7b\x7b\x7d".toList = .error e := by
  have hparts : AreParts ["a\x7b".toList, "\x7d".toList, []]
      [.named "x_1".toList, .positional] := by
    refine ⟨rfl, ?_⟩
    intro name hname
    obtain rfl : name = "x_1".toList := by simpa using hname
    exact isIdentifier_eq_true_iff.mp rfl
  constructor
  · exact (parts?_inverts_writtenParts []).2.1 _ _ hparts
  · apply (parts?_inverts_writtenParts "\x7b\x7b\x7d".toList).2.2.2
    rintro ⟨fragments, slots, h, hwritten⟩
    have hread := ((parts?_inverts_writtenParts _).1 fragments slots).mpr ⟨h, hwritten⟩
    simp [parts?, ofText?, Except.map] at hread

end Hypertext.Template
