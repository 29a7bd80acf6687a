import Hypertext.Proofs.Node.Order

/-!
# Implied end tags

Start tags end what they imply for good: no element of a tree stands below one that its start
tag ends, unless something in between stops that. For names with several rules the later rules
end elements that the earlier ones did not look at; what stopped an earlier rule is still there
after that, because no open element around it was left for the later rule to end.
-/

namespace Hypertext

set_option autoImplicit false

namespace Tag

/-- A start tag of the name ends none of the elements around it. -/
def EndsNothing (name : Text) (ancestors : List Text) : Prop :=
  ∀ rule ∈ impliedEnds name, rule.IsBarred ancestors

/-- Open elements, the innermost first, none of which ends one around it. -/
def Nested : List Text → Prop
  | [] => True
  | name :: outer => EndsNothing name outer ∧ Nested outer

theorem Nested.drop {names : List Text} (h : Nested names) (n : Nat) : Nested (names.drop n) := by
  induction names generalizing n with
  | nil => simpa using h
  | cons name outer ih =>
    cases n with
    | zero => exact h
    | succ n => exact ih h.2 n

namespace ImpliedEnd

/-- Whatever stops the rule holds out against the later one, which does not close it and either
stops there too or was in force already when that element was opened. -/
def Withstands (rule later : ImpliedEnd) : Prop :=
  ∀ stop ∈ rule.stopsAt, stop ∉ later.closes ∧ (stop ∈ later.stopsAt ∨ later ∈ impliedEnds stop)

instance (rule later : ImpliedEnd) : Decidable (rule.Withstands later) :=
  inferInstanceAs (Decidable (∀ stop ∈ rule.stopsAt, _))

theorem isBarred_drop_depth {rule : ImpliedEnd}
    (hrule : ∀ closed ∈ rule.closes, closed ∉ rule.stopsAt) (names : List Text) :
    rule.IsBarred (names.drop (rule.depth names)) := by
  induction names with
  | nil => trivial
  | cons name outer ih =>
    rw [depth]
    split_ifs with hcloses hstops
    · exact ih
    · exact .inl hstops
    · cases hdepth : rule.depth outer with
      | zero => exact .inr ⟨hcloses, (depth_eq_zero_iff hrule outer).mp hdepth⟩
      | succ n =>
        rw [hdepth] at ih
        exact ih

theorem Withstands.isBarred_drop_depth {rule later : ImpliedEnd} (h : rule.Withstands later)
    (hlater : ∀ closed ∈ later.closes, closed ∉ later.stopsAt) {names : List Text}
    (hnested : Nested names) (hbarred : rule.IsBarred names) :
    rule.IsBarred (names.drop (later.depth names)) := by
  induction names with
  | nil => trivial
  | cons name outer ih =>
    obtain ⟨hname, houter⟩ := hnested
    rcases hbarred with hstop | ⟨hopen, hbarred⟩
    · -- what stops the rule stays, with all that is around it
      obtain ⟨hnot, hholds⟩ := h name hstop
      have hnone : later.IsBarred (name :: outer) := by
        rcases hholds with hstops | hends
        · exact .inl hstops
        · exact .inr ⟨hnot, hname later hends⟩
      rw [(depth_eq_zero_iff hlater _).mpr hnone]
      exact .inl hstop
    · have hinner := ih houter hbarred
      rw [depth]
      split_ifs with hcloses hstops
      · exact hinner
      · exact .inr ⟨hopen, hbarred⟩
      · cases hdepth : later.depth outer with
        | zero => exact .inr ⟨hopen, hbarred⟩
        | succ n =>
          rw [hdepth] at hinner
          exact hinner

end ImpliedEnd

theorem pairwise_withstands_impliedEnds (name : Text) :
    (impliedEnds name).Pairwise ImpliedEnd.Withstands := by
  apply forall_impliedEnds .nil
  decide +kernel

/-- The open elements that are left by some rules, one rule after the other. -/
def leftBy : List ImpliedEnd → List Text → List Text
  | [], names => names
  | rule :: rules, names => leftBy rules (names.drop (rule.depth names))

theorem Nested.leftBy {names : List Text} (h : Nested names) (rules : List ImpliedEnd) :
    Nested (leftBy rules names) := by
  induction rules generalizing names with
  | nil => exact h
  | cons rule rules ih => exact ih (h.drop _)

section Rules
variable {rules : List ImpliedEnd}
variable (hrules : ∀ rule ∈ rules, ∀ closed ∈ rule.closes, closed ∉ rule.stopsAt)
include hrules

theorem isBarred_leftBy_of_withstands {rule : ImpliedEnd} {names : List Text}
    (hlater : ∀ later ∈ rules, rule.Withstands later) (hnested : Nested names)
    (hbarred : rule.IsBarred names) : rule.IsBarred (leftBy rules names) := by
  induction rules generalizing names with
  | nil => exact hbarred
  | cons later rules ih =>
    rw [List.forall_mem_cons] at hrules hlater
    exact ih hrules.2 hlater.2 (hnested.drop _)
      (hlater.1.isBarred_drop_depth hrules.1 hnested hbarred)

/-- No rule undoes what the rules before it have done. -/
theorem isBarred_leftBy (hpairwise : rules.Pairwise ImpliedEnd.Withstands) {names : List Text}
    (hnested : Nested names) : ∀ rule ∈ rules, rule.IsBarred (leftBy rules names) := by
  induction rules generalizing names with
  | nil => simp
  | cons first rules ih =>
    rw [List.forall_mem_cons] at hrules
    obtain ⟨hlater, hpairwise⟩ := List.pairwise_cons.mp hpairwise
    have hrest := hnested.drop (first.depth names)
    rw [List.forall_mem_cons]
    constructor
    · exact isBarred_leftBy_of_withstands hrules.2 hlater hrest
        (ImpliedEnd.isBarred_drop_depth hrules.1 names)
    · exact ih hrules.2 hpairwise hrest

end Rules

theorem endsNothing_leftBy {names : List Text} (h : Nested names) (name : Text) :
    EndsNothing name (leftBy (impliedEnds name) names) :=
  isBarred_leftBy (fun _ hrule => closes_notMem_stopsAt hrule)
    (pairwise_withstands_impliedEnds name) h

end Tag

/-- A start tag that ends nothing where it stands; texts and comments never do. -/
def Node.Place.EndsNothing (place : Node.Place) : Prop :=
  match place.stop with
  | .element name _ => Tag.EndsNothing name place.ancestors
  | .text _ | .comment _ => True

namespace Builder

@[simp] theorem names_finishImplied (b : Builder) (rules : List Tag.ImpliedEnd) :
    (b.finishImplied rules).names = Tag.leftBy rules b.names := by
  induction rules generalizing b with
  | nil => rfl
  | cons rule rules ih => rw [finishImplied, ih, names_finishMany, Tag.leftBy]

/-- Nothing that is there would be ended by something in it. -/
structure IsSettled (b : Builder) : Prop where
  opened : Tag.Nested b.names
  places : ∀ place ∈ Node.placesAll [] b.nodes, place.EndsNothing

variable {b : Builder}

theorem IsSettled.nested_step (h : b.IsSettled) (token : Token) :
    Tag.Nested (b.step token).names := by
  cases token with
  | doctype body => exact h.opened
  | comment body => simpa [step] using h.opened
  | text run => simpa [step] using h.opened
  | startTag name attributes selfClosing =>
    have hleft := h.opened.leftBy (Tag.impliedEnds name)
    rw [← names_finishImplied] at hleft
    cases selfClosing with
    | true => simpa [step] using hleft
    | false =>
      refine ⟨?_, hleft⟩
      change Tag.EndsNothing name (b.finishImplied (Tag.impliedEnds name)).names
      rw [names_finishImplied]
      exact Tag.endsNothing_leftBy h.opened name
  | endTag name =>
    rw [step]
    split
    · rw [names_finishMany]
      exact h.opened.drop _
    · exact h.opened

theorem IsSettled.step (h : b.IsSettled) (token : Token) : (b.step token).IsSettled := by
  refine ⟨h.nested_step token, ?_⟩
  rw [placesAll_nodes_step, List.forall_mem_append]
  refine ⟨h.places, ?_⟩
  cases token with
  | startTag name attributes selfClosing =>
    have hends := Tag.endsNothing_leftBy h.opened name
    rw [← names_finishImplied] at hends
    simpa [Token.stop?, Node.Place.EndsNothing, namesAround] using hends
  | text run => simp [Token.stop?, Node.Place.EndsNothing]
  | comment body => simp [Token.stop?, Node.Place.EndsNothing]
  | doctype body => simp [Token.stop?]
  | endTag name => simp [Token.stop?]

theorem IsSettled.run (h : b.IsSettled) (tokens : List Token) : (b.run tokens).IsSettled := by
  induction tokens generalizing b with
  | nil => exact h
  | cons token tokens ih => exact ih (h.step token)

theorem isSettled_empty : empty.IsSettled :=
  ⟨trivial, by simp [empty, nodes, finishMany, Node.placesAll]⟩

end Builder

namespace Node

/-- Wherever an element stands in a tree, nothing that its start tag ends is around it before
what stops the rule. -/
theorem isBarred_of_mem_placesAll_parse (s : Text) {ancestors : List Text} {name : Text}
    {attributes : List Attribute}
    (hplace : ⟨ancestors, .element name attributes⟩ ∈ placesAll [] (parse s)) :
    ∀ rule ∈ Tag.impliedEnds name, rule.IsBarred ancestors :=
  (Builder.isSettled_empty.run (Token.readAll s)).places _ hplace

theorem isBarred_of_mem_placesAll_parse_list :
    (⟨["ul".toList, "li".toList], .element "li".toList []⟩ : Place) ∈
        placesAll [] (parse "<li><p><b>one<ul><li>two<p><li></b>three".toList) ∧
      ∀ rule ∈ [Tag.listItemEnd, Tag.paragraphEnd],
        rule.IsBarred ["ul".toList, "li".toList] := by
  have hplace : (⟨["ul".toList, "li".toList], .element "li".toList []⟩ : Place) ∈
      placesAll [] (parse "<li><p><b>one<ul><li>two<p><li></b>three".toList) := by
    decide +kernel
  exact ⟨hplace, isBarred_of_mem_placesAll_parse _ hplace⟩

end Node

end Hypertext
