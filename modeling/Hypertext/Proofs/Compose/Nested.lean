import Hypertext.Proofs.Compose
import Hypertext.Proofs.Indent.Space

/-!
# Templates within templates

Markup of a template that is put into a slot of another one goes in as it is. So the two
templates are one: the inner fragments and placeholders stand where the slot was, and the
fragments beside the slot join the outer ends of the inner template.
-/

namespace Hypertext

set_option autoImplicit false

/-- The first fragment, and then every other one behind the markup of a placeholder. -/
def weave : List Text → List Placeholder → Text
  | [], _ => []
  | first :: rest, placeholders =>
    first ++ (List.zipWith (fun p fragment => p.resolve ++ fragment) placeholders rest).flatten

/-- Where there is one fragment more than placeholders, all of both go in and nothing else. -/
theorem interleave_eq_weave {fragments : List Text} {placeholders : List Placeholder}
    (h : fragments.length = placeholders.length + 1) :
    interleave fragments placeholders = weave fragments placeholders := by
  obtain ⟨first, rest, rfl⟩ := List.exists_cons_of_length_eq_add_one h
  induction rest generalizing first placeholders with
  | nil => simp [interleave, weave]
  | cons fragment rest ih =>
    obtain ⟨p, placeholders, rfl⟩ := List.exists_cons_of_length_eq_add_one (Nat.succ_inj.mp h).symm
    rw [interleave_cons_cons, ih fragment (Nat.succ_inj.mp h), weave, weave, List.zipWith_cons_cons,
      List.flatten_cons, List.append_assoc]

/-! ## Splicing -/

/-- The fragments of an inner template with those beside its slot. A single one joins both. -/
def enclose (before after : Text) (inner : List Text) : List Text :=
  (inner.modifyHead (before ++ ·)).modifyLast (· ++ after)

/-- The fragments of a template with those of an inner one in slot number `i`, if it has one. -/
def spliceFragments (i : Nat) (outer inner : List Text) : List Text :=
  match outer.drop i with
  | before :: after :: rest => outer.take i ++ (enclose before after inner ++ rest)
  | _ => outer

/-- The placeholders of a template with those of an inner one instead of number `i`. -/
def splicePlaceholders (i : Nat) (outer inner : List Placeholder) : List Placeholder :=
  outer.take i ++ (inner ++ outer.drop (i + 1))

theorem enclose_singleton (before after only : Text) :
    enclose before after [only] = [before ++ (only ++ after)] := by
  have hlast := List.modifyLast_concat (· ++ after) (before ++ only) []
  rwa [List.nil_append, List.nil_append, List.append_assoc] at hlast

theorem enclose_cons_concat (before after first last : Text) (middle : List Text) :
    enclose before after (first :: (middle ++ [last])) =
      (before ++ first) :: (middle ++ [last ++ after]) := by
  rw [enclose, List.modifyHead_cons, ← List.cons_append, List.modifyLast_concat, List.cons_append]

theorem length_enclose (before after : Text) (inner : List Text) :
    (enclose before after inner).length = inner.length := by
  cases inner with
  | nil => rfl
  | cons first more =>
    rcases List.eq_nil_or_concat' more with rfl | ⟨middle, last, rfl⟩
    · rw [enclose_singleton]
      rfl
    · rw [enclose_cons_concat]
      simp

theorem interleave_cons {rest : List Text} (h : rest ≠ []) (fragment : Text) (p : Placeholder)
    (ps : List Placeholder) :
    interleave (fragment :: rest) (p :: ps) = fragment ++ (p.resolve ++ interleave rest ps) := by
  obtain ⟨next, later, rfl⟩ := List.exists_cons_of_ne_nil h
  exact interleave_cons_cons fragment next later p ps

section Cut
variable {fragments : List Text} {placeholders : List Placeholder}
variable (h : fragments.length = placeholders.length)
include h

/-- A template can be cut within any of its fragments. -/
theorem interleave_append (s t : Text) (later : List Text) (ps : List Placeholder) :
    interleave (fragments ++ (s ++ t) :: later) (placeholders ++ ps) =
      interleave (fragments ++ [s]) placeholders ++ interleave (t :: later) ps := by
  induction fragments generalizing placeholders with
  | nil =>
    obtain rfl := List.eq_nil_of_length_eq_zero h.symm
    cases later with
    | nil => simp [interleave]
    | cons next rest =>
      cases ps with
      | nil => simp [interleave]
      | cons p ps => simp [interleave]
  | cons fragment fragments ih =>
    obtain ⟨p, placeholders, rfl⟩ := List.exists_cons_of_length_eq_add_one h.symm
    have hlength : fragments.length = placeholders.length := Nat.succ_inj.mp h
    rw [List.cons_append, List.cons_append, List.cons_append, interleave_cons (by simp),
      interleave_cons (by simp), ih hlength, List.append_assoc, List.append_assoc]

theorem interleave_slot (before after : Text) (rest : List Text) (p : Placeholder)
    (ps : List Placeholder) :
    interleave (fragments ++ before :: after :: rest) (placeholders ++ p :: ps) =
      interleave (fragments ++ [before]) placeholders ++
        (p.resolve ++ interleave (after :: rest) ps) := by
  have hcut := interleave_append h before [] (after :: rest) (p :: ps)
  rwa [List.append_nil, interleave_cons_cons, List.nil_append] at hcut

/-- The fragments beside a slot stand at the two ends of what the inner template is alone. -/
theorem interleave_enclose {inner : List Text} {qs : List Placeholder}
    (hinner : inner.length = qs.length + 1) (before after : Text) (rest : List Text)
    (ps : List Placeholder) :
    interleave (fragments ++ (enclose before after inner ++ rest)) (placeholders ++ (qs ++ ps)) =
      interleave (fragments ++ [before]) placeholders ++
        (interleave inner qs ++ interleave (after :: rest) ps) := by
  obtain ⟨first, more, rfl⟩ := List.exists_cons_of_length_eq_add_one hinner
  rcases List.eq_nil_or_concat' more with rfl | ⟨middle, last, rfl⟩
  · -- One fragment stands between both of its neighbours, so it is cut on each side.
    obtain rfl : qs = [] := List.eq_nil_of_length_eq_zero (Nat.succ_inj.mp hinner).symm
    have hafter : interleave ((first ++ after) :: rest) ps =
        first ++ interleave (after :: rest) ps :=
      @interleave_append [] [] rfl first after rest ps
    rw [enclose_singleton, List.singleton_append, List.nil_append, interleave_append h, hafter]
    rfl
  · have hlength : (first :: middle).length = qs.length := by simpa using hinner
    rw [enclose_cons_concat, List.cons_append, List.append_assoc, List.singleton_append,
      interleave_append h, ← List.cons_append, interleave_append hlength, List.cons_append]

end Cut

section Slot
variable {i : Nat} {fragments : List Text}

theorem drop_eq_cons_cons (h : i + 1 < fragments.length) :
    fragments.drop i = fragments[i] :: fragments[i + 1] :: fragments.drop (i + 2) := by
  rw [List.drop_eq_getElem_cons (Nat.lt_of_succ_lt h), List.drop_eq_getElem_cons h]

theorem spliceFragments_eq (h : i + 1 < fragments.length) (inner : List Text) :
    spliceFragments i fragments inner =
      fragments.take i ++
        (enclose fragments[i] fragments[i + 1] inner ++ fragments.drop (i + 2)) := by
  rw [spliceFragments, drop_eq_cons_cons h]

variable {placeholders : List Placeholder}
variable (hlength : fragments.length = placeholders.length + 1) (hi : i < placeholders.length)
include hlength hi

theorem length_take_eq : (fragments.take i).length = (placeholders.take i).length := by
  rw [List.length_take, List.length_take]
  omega

theorem interleave_set (p : Placeholder) :
    interleave fragments (placeholders.set i p) =
      interleave (fragments.take (i + 1)) (placeholders.take i) ++
        (p.resolve ++ interleave (fragments.drop (i + 1)) (placeholders.drop (i + 1))) := by
  have hafter : i + 1 < fragments.length := by omega
  have hslot := interleave_slot (length_take_eq hlength hi) fragments[i] fragments[i + 1]
    (fragments.drop (i + 2)) p (placeholders.drop (i + 1))
  rw [← drop_eq_cons_cons hafter, List.take_append_drop] at hslot
  rw [List.set_eq_take_append_cons_drop, if_pos hi, hslot,
    List.take_succ_eq_append_getElem (Nat.lt_of_succ_lt hafter), List.drop_eq_getElem_cons hafter]

theorem interleave_splice {inner : List Text} {qs : List Placeholder}
    (hinner : inner.length = qs.length + 1) :
    interleave (spliceFragments i fragments inner) (splicePlaceholders i placeholders qs) =
      interleave (fragments.take (i + 1)) (placeholders.take i) ++
        (interleave inner qs ++
          interleave (fragments.drop (i + 1)) (placeholders.drop (i + 1))) := by
  have hafter : i + 1 < fragments.length := by omega
  rw [spliceFragments_eq hafter, splicePlaceholders,
    interleave_enclose (length_take_eq hlength hi) hinner,
    List.take_succ_eq_append_getElem (Nat.lt_of_succ_lt hafter), List.drop_eq_getElem_cons hafter]

theorem length_spliceFragments {inner : List Text} {qs : List Placeholder}
    (hinner : inner.length = qs.length + 1) :
    (spliceFragments i fragments inner).length =
      (splicePlaceholders i placeholders qs).length + 1 := by
  have hafter : i + 1 < fragments.length := by omega
  rw [spliceFragments_eq hafter, splicePlaceholders]
  simp only [List.length_append, length_enclose, List.length_take, List.length_drop]
  omega

end Slot

/-- The markup of a template in a slot of another one is that of both as one template, with the
fragments of each stripped by itself. Whatever markup stands in the slot stays as it is. -/
theorem compose_nested {outer : List Text} {ps : List Placeholder}
    (houter : outer.length = ps.length + 1) {i : Nat} (hi : i < ps.length) :
    (∀ inner qs, inner.length = qs.length + 1 →
      (spliceFragments i (Indent.strip outer) (Indent.strip inner)).length =
          (splicePlaceholders i ps qs).length + 1 ∧
        (compose outer (ps.set i (.markup (compose inner qs)))).html =
          weave (spliceFragments i (Indent.strip outer) (Indent.strip inner))
            (splicePlaceholders i ps qs)) ∧
      ∃ before after, ∀ m, (compose outer (ps.set i (.markup m))).html =
        before ++ (m.html ++ after) := by
  rw [← Indent.length_strip] at houter
  constructor
  · intro inner qs hinner
    rw [← Indent.length_strip] at hinner
    have hlength := length_spliceFragments houter hi hinner
    refine ⟨hlength, ?_⟩
    rw [← interleave_eq_weave hlength, interleave_splice houter hi hinner]
    exact interleave_set houter hi (.markup (compose inner qs))
  · exact ⟨_, _, fun m => interleave_set houter hi (.markup m)⟩

/-- A list and its item: each is stripped by itself, and the lines of the item's text stay. -/
theorem compose_nested_list :
    (compose ["\n <ul>\n  ".toList, "\n </ul>".toList, "\n".toList]
        [.markup (compose ["\n  <li>".toList, "</li>\n".toList] [.text "\n <".toList]),
          .markup ⟨"\n <br>".toList⟩]).html =
      "<ul>\n <li>\n &lt;</li>\n</ul>\n <br>".toList := by
  have hnested := ((@compose_nested ["\n <ul>\n  ".toList, "\n </ul>".toList, "\n".toList]
    [.absent, .markup ⟨"\n <br>".toList⟩] rfl 0 (by decide)).1
    ["\n  <li>".toList, "</li>\n".toList] [.text "\n <".toList] rfl).2
  exact hnested.trans (by cbv)

end Hypertext
