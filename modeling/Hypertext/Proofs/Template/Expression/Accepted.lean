import Hypertext.Proofs.Template.Expression.Step

/-!
# What is accepted as expressions

The one way through the pieces, with its stack of frames, accepts what the grammar derives and
nothing else. That derivable pieces are accepted is an induction on the derivation. For the
other direction every step keeps a description of what has been read: outside each frame stand
pieces that make an expression as soon as the frame is closed.
-/

namespace Hypertext.CallText

set_option autoImplicit false

/-! ## Expressions are accepted -/

section Accepted
variable {pieces : List Piece} {items : List (List Piece)} {frames : List Frame}

/-- From every place where an operand may begin, the pieces lead to where it may end. -/
def LeadsPast (pieces : List Piece) : Prop :=
  ∀ place : Place, place.progress.MayBegin → ∃ progress : Progress, progress.MayEnd ∧
    pieces.foldlM Place.step place = .ok ⟨place.frames, progress⟩

theorem leadsPast_singleton {piece : Piece} {progress : Progress}
    (h : ∀ place : Place, place.progress.MayBegin → Steps place piece ⟨place.frames, progress⟩)
    (hend : progress.MayEnd) : LeadsPast [piece] := by
  intro place hbegin
  refine ⟨progress, hend, ?_⟩
  rw [List.foldlM_cons, Place.step_of_steps (h place hbegin)]
  rfl

theorem LeadsPast.cons {piece : Piece} {progress : Progress} (hpieces : LeadsPast pieces)
    (h : ∀ place : Place, place.progress.MayBegin → Steps place piece ⟨place.frames, progress⟩)
    (hbegins : progress.MayBegin) : LeadsPast (piece :: pieces) := by
  intro place hbegin
  obtain ⟨last, hend, hrun⟩ := hpieces ⟨place.frames, progress⟩ hbegins
  refine ⟨last, hend, ?_⟩
  rw [List.foldlM_cons, Place.step_of_steps (h place hbegin)]
  exact hrun

theorem Lists.exists_foldlM (h : Lists items pieces) (hitems : ∀ item ∈ items, LeadsPast item)
    (hframe : frames.head? ≠ some .condition) :
    ∃ progress : Progress, (progress = .start ∨ progress.MayEnd) ∧
      pieces.foldlM Place.step ⟨frames, .start⟩ = .ok ⟨frames, progress⟩ := by
  induction h with
  | nil => exact ⟨.start, .inl rfl, rfl⟩
  | last item =>
    obtain ⟨progress, hend, hrun⟩ := hitems item List.mem_cons_self ⟨frames, .start⟩ trivial
    exact ⟨progress, .inr hend, hrun⟩
  | @cons item items pieces _ ih =>
    obtain ⟨hitem, hitems⟩ := List.forall_mem_cons.mp hitems
    obtain ⟨progress, hend, hrun⟩ := hitem ⟨frames, .start⟩ trivial
    obtain ⟨last, hlast, hrest⟩ := ih hitems
    have hcomma : (Place.mk frames progress).step (.mark ',') = .ok ⟨frames, .start⟩ :=
      Place.step_of_steps (.comma hend hframe)
    refine ⟨last, hlast, ?_⟩
    rw [List.foldlM_append, hrun]
    change (Place.mk frames progress).step (.mark ',') >>= pieces.foldlM Place.step = _
    rw [hcomma]
    exact hrest

theorem Lists.foldlM_parentheses (h : Lists items pieces)
    (hitems : ∀ item ∈ items, LeadsPast item) {place : Place}
    (hopen : Steps place (.mark '(') place.opened) :
    (Piece.mark '(' :: (pieces ++ [.mark ')'])).foldlM Place.step place =
      .ok ⟨place.frames, .operand⟩ := by
  have hframe : (Frame.parenthesis :: place.frames).head? ≠ some .condition := by simp
  obtain ⟨progress, hprogress, hrun⟩ := h.exists_foldlM hitems hframe
  have hclose : (Place.mk (.parenthesis :: place.frames) progress).step (.mark ')') =
      .ok ⟨place.frames, .operand⟩ := by
    rcases hprogress with hstart | hend
    · exact Place.step_of_steps (.closeEmpty hstart)
    · exact Place.step_of_steps (.close hend hframe)
  rw [List.foldlM_cons, Place.step_of_steps hopen]
  change (pieces ++ [Piece.mark ')']).foldlM Place.step ⟨.parenthesis :: place.frames, .start⟩ = _
  rw [List.foldlM_append, hrun]
  change (Place.mk _ progress).step (.mark ')') >>= pure = _
  rw [hclose]
  rfl

theorem IsExpression.leadsPast (h : IsExpression pieces) : LeadsPast pieces := by
  induction h with
  | name hrole => exact leadsPast_singleton (fun _ hbegin => .name hbegin hrole) trivial
  | string => exact leadsPast_singleton (fun _ hbegin => .string _ _ hbegin) trivial
  | literal => exact leadsPast_singleton (fun _ hbegin => .literal _ hbegin) trivial
  | jump hrole => exact leadsPast_singleton (fun _ hbegin => .jump hbegin hrole) trivial
  | jumpWith hrole _ ih => exact ih.cons (fun _ hbegin => .jump hbegin hrole) trivial
  | operator hrole _ ih => exact ih.cons (fun _ hbegin => .operator hbegin hrole) trivial
  | leading hleads _ ih => exact ih.cons (fun _ hbegin => .leading hbegin hleads) trivial
  | @joined operator left right hjoins _ _ ihl ihr =>
    intro place hbegin
    obtain ⟨progress, hend, hleft⟩ := ihl place hbegin
    obtain ⟨last, hlast, hright⟩ := ihr ⟨place.frames, .operator⟩ trivial
    refine ⟨last, hlast, ?_⟩
    rw [List.foldlM_append, hleft]
    change (Place.mk place.frames progress).step operator >>= right.foldlM Place.step = _
    rw [Place.step_of_steps (.joining hend hjoins)]
    exact hright
  | tuple _ hlist ih =>
    intro place hbegin
    exact ⟨.operand, trivial, hlist.foldlM_parentheses ih (.openOperand hbegin)⟩
  | call _ _ hlist ihc ih =>
    intro place hbegin
    obtain ⟨progress, hend, hcallee⟩ := ihc place hbegin
    refine ⟨.operand, trivial, ?_⟩
    rw [List.foldlM_append, hcallee]
    exact hlist.foldlM_parentheses ih (.openCall hend)

theorem AreExpressions.checkExpressions_eq_ok (h : AreExpressions pieces) :
    checkExpressions pieces = .ok () := by
  obtain ⟨items, hitems, hlist⟩ := h
  have hframe : ([] : List Frame).head? ≠ some .condition := by simp
  obtain ⟨progress, hprogress, hrun⟩ :=
    hlist.exists_foldlM (fun item hitem => (hitems item hitem).leadsPast) hframe
  have hmissing : (Place.mk [] progress).missing? = none := by
    rcases hprogress with rfl | hend
    · rfl
    · cases progress with
      | start => rfl
      | operator => cases hend
      | operand => rfl
      | jump => rfl
      | block => cases hend
  rw [checkExpressions, hrun]
  dsimp only [bind, Except.bind]
  rw [hmissing]

end Accepted

/-! ## What is accepted are expressions -/

section Contexts
variable {cur pre : List Piece}

/-- An expression behind the pieces makes one of them. -/
def Waits (cur : List Piece) : Prop :=
  ∀ operand, IsExpression operand → IsExpression (cur ++ operand)

/-- Expressions in parentheses behind the pieces make an expression of them. -/
def Opens (cur : List Piece) : Prop :=
  ∀ pieces, AreExpressions pieces → IsExpression (cur ++ .mark '(' :: (pieces ++ [.mark ')']))

/-- The pieces are expressions, each with a comma behind it. -/
def Leads (pre : List Piece) : Prop :=
  ∀ pieces, AreExpressions pieces → AreExpressions (pre ++ pieces)

theorem areExpressions_nil : AreExpressions [] :=
  ⟨[], by simp, .nil⟩

theorem IsExpression.areExpressions (h : IsExpression cur) : AreExpressions cur :=
  ⟨[cur], by simpa using h, .last cur⟩

theorem waits_nil : Waits [] := fun _ h => h

theorem leads_nil : Leads [] := fun _ h => h

theorem Waits.opens (h : Waits cur) : Opens cur := by
  rintro pieces ⟨items, hitems, hlist⟩
  exact h _ (.tuple hitems hlist)

theorem IsExpression.opens (h : IsExpression cur) : Opens cur := by
  rintro pieces ⟨items, hitems, hlist⟩
  exact .call h hitems hlist

theorem Waits.append {piece : Piece} (h : Waits cur)
    (hpiece : ∀ operand, IsExpression operand → IsExpression (piece :: operand)) :
    Waits (cur ++ [piece]) := by
  intro operand hoperand
  rw [List.append_assoc]
  exact h _ (hpiece operand hoperand)

theorem IsExpression.waits_joined {piece : Piece} (h : IsExpression cur)
    (hjoins : joinsOperands piece = true) : Waits (cur ++ [piece]) := by
  intro operand hoperand
  rw [List.append_assoc]
  exact .joined hjoins h hoperand

theorem Leads.comma (hpre : Leads pre) (h : IsExpression cur) :
    Leads (pre ++ (cur ++ [.mark ','])) := by
  rintro pieces ⟨items, hitems, hlist⟩
  rw [List.append_assoc, List.append_assoc]
  exact hpre _ ⟨cur :: items, List.forall_mem_cons.mpr ⟨h, hitems⟩, .cons hlist⟩

end Contexts

/-- What the pieces since the last comma or opening parenthesis are. -/
def Progress.Describes : Progress → List Piece → Prop
  | start, cur => cur = []
  | operator, cur => Waits cur
  | operand, cur => IsExpression cur
  | jump, cur => IsExpression cur ∧ Waits cur
  | block, _ => True

theorem Progress.Describes.waits {progress : Progress} {cur : List Piece}
    (h : progress.Describes cur) (hbegin : progress.MayBegin) : Waits cur := by
  cases progress with
  | start =>
    rw [show cur = [] from h]
    exact waits_nil
  | operator => exact h
  | operand => cases hbegin
  | jump => exact h.2
  | block => cases hbegin

theorem Progress.Describes.isExpression {progress : Progress} {cur : List Piece}
    (h : progress.Describes cur) (hend : progress.MayEnd) : IsExpression cur := by
  cases progress with
  | start => cases hend
  | operator => cases hend
  | operand => exact h
  | jump => exact h.1
  | block => cases hend

/-- The pieces up to the opening of the innermost frame. Nothing is known of them where it is a
condition, since its block never comes. -/
inductive Entered : List Frame → List Piece → Prop where
  | nil : Entered [] []
  | parenthesis {frames : List Frame} {outer pre cur : List Piece} :
      Entered frames outer → Leads pre → Opens cur →
      Entered (.parenthesis :: frames) (outer ++ (pre ++ (cur ++ [.mark '('])))
  | condition {frames : List Frame} (pieces : List Piece) : Entered (.condition :: frames) pieces

/-- The pieces read at a place: those outside its innermost frame, whole expressions with commas
behind them, and what has come since. -/
structure Place.IsReached (place : Place) (pieces : List Piece) : Prop where
  parts : ∃ outer pre cur, pieces = outer ++ (pre ++ cur) ∧ Entered place.frames outer ∧
    Leads pre ∧ place.progress.Describes cur
  start : place.progress = .start → place.frames.head? ≠ some .condition

section Reached
variable {place next : Place} {piece : Piece} {pieces : List Piece}

theorem Place.IsReached.progress (h : place.IsReached pieces) {progress : Progress}
    (hstart : progress ≠ .start)
    (hnext : ∀ cur, place.progress.Describes cur → progress.Describes (cur ++ [piece])) :
    (Place.mk place.frames progress).IsReached (pieces ++ [piece]) := by
  obtain ⟨⟨outer, pre, cur, rfl, houter, hpre, hcur⟩, -⟩ := h
  refine ⟨⟨outer, pre, cur ++ [piece], ?_, houter, hpre, hnext cur hcur⟩, fun h => absurd h hstart⟩
  simp only [List.append_assoc]

theorem Place.IsReached.opened (h : place.IsReached pieces)
    (hopens : ∀ cur, place.progress.Describes cur → Opens cur) :
    place.opened.IsReached (pieces ++ [.mark '(']) := by
  obtain ⟨⟨outer, pre, cur, rfl, houter, hpre, hcur⟩, -⟩ := h
  refine ⟨⟨_, [], [], ?_, .parenthesis houter hpre (hopens cur hcur), leads_nil, rfl⟩, ?_⟩
  · simp only [List.append_assoc, List.append_nil]
  · simp [Place.opened]

theorem Place.IsReached.closed (h : place.IsReached pieces)
    (hparenthesis : .parenthesis ∈ place.frames) (hframe : place.frames.head? ≠ some .condition)
    (hcontent : ∀ cur, place.progress.Describes cur → AreExpressions cur) :
    place.closed.IsReached (pieces ++ [.mark ')']) := by
  obtain ⟨frames, progress⟩ := place
  obtain ⟨⟨outer, pre, cur, rfl, houter, hpre, hcur⟩, -⟩ := h
  cases houter with
  | nil => cases hparenthesis
  | condition => simp at hframe
  | @parenthesis frames outer pre' cur' houter hpre' hopens =>
    have hexpression := hopens (pre ++ cur) (hpre cur (hcontent cur hcur))
    refine ⟨⟨outer, pre', _, ?_, houter, hpre', hexpression⟩, by simp [Place.closed]⟩
    simp only [List.append_assoc, List.cons_append, List.nil_append]

/-- One step keeps the description, as long as only an open parenthesis is closed. -/
theorem Place.IsReached.step (h : place.IsReached pieces) (hstep : Steps place piece next)
    (hclose : piece = .mark ')' → .parenthesis ∈ place.frames) :
    next.IsReached (pieces ++ [piece]) := by
  cases hstep with
  | openOperand hbegin => exact h.opened fun _ hcur => (hcur.waits hbegin).opens
  | openCall hend => exact h.opened fun _ hcur => (hcur.isExpression hend).opens
  | closeEmpty hstart =>
    apply h.closed (hclose rfl) (h.start hstart)
    intro cur hcur
    rw [hstart] at hcur
    rw [show cur = [] from hcur]
    exact areExpressions_nil
  | close hend hframe =>
    exact h.closed (hclose rfl) hframe fun _ hcur => (hcur.isExpression hend).areExpressions
  | name hbegin hrole => exact h.progress nofun fun _ hcur => hcur.waits hbegin _ (.name hrole)
  | string written value hbegin =>
    exact h.progress nofun fun _ hcur => hcur.waits hbegin _ (.string written value)
  | literal written hbegin =>
    exact h.progress nofun fun _ hcur => hcur.waits hbegin _ (.literal written)
  | jump hbegin hrole =>
    exact h.progress nofun fun _ hcur => ⟨hcur.waits hbegin _ (.jump hrole),
      (hcur.waits hbegin).append fun _ => .jumpWith hrole⟩
  | operator hbegin hrole =>
    exact h.progress nofun fun _ hcur => (hcur.waits hbegin).append fun _ => .operator hrole
  | @condition word =>
    refine ⟨⟨pieces ++ [.word word], [], [], ?_, .condition _, leads_nil, waits_nil⟩, nofun⟩
    simp only [List.append_nil]
  | block => exact h.progress nofun fun _ _ => trivial
  | leading hbegin hleads =>
    exact h.progress nofun fun _ hcur => (hcur.waits hbegin).append fun _ => .leading hleads
  | joining hend hjoins =>
    exact h.progress nofun fun _ hcur => (hcur.isExpression hend).waits_joined hjoins
  | comma hend hframe =>
    obtain ⟨⟨outer, pre, cur, rfl, houter, hpre, hcur⟩, -⟩ := h
    refine ⟨⟨outer, _, [], ?_, houter, hpre.comma (hcur.isExpression hend), rfl⟩, fun _ => hframe⟩
    simp only [List.append_assoc, List.append_nil]

end Reached

section Balance
variable {place next : Place} {piece : Piece} {pieces rest : List Piece}

/-- The closing parentheses that are still to come. -/
def Place.awaited (place : Place) : List Char :=
  List.replicate (place.frames.count .parenthesis) ')'

theorem Place.awaited_opened (place : Place) : place.opened.awaited = ')' :: place.awaited := by
  simp [Place.awaited, Place.opened, List.replicate_succ]

theorem isBalanced_closed (hframe : place.frames.head? ≠ some .condition)
    (h : isBalanced place.awaited (.mark ')' :: rest) = true) :
    .parenthesis ∈ place.frames ∧ isBalanced place.closed.awaited rest = true := by
  obtain ⟨frames, progress⟩ := place
  cases frames with
  | nil => cases h
  | cons frame frames =>
    cases frame with
    | parenthesis =>
      rw [isBalanced_close] at h
      refine ⟨List.mem_cons_self, ?_⟩
      simpa [Place.awaited, Place.closed, List.replicate_succ] using h
    | condition => simp at hframe

/-- What a step opens or closes is what the count of brackets opens or closes. -/
theorem isBalanced_step (hstep : Steps place piece next)
    (hstart : place.progress = .start → place.frames.head? ≠ some .condition)
    (h : isBalanced place.awaited (piece :: rest) = true) :
    (piece = .mark ')' → .parenthesis ∈ place.frames) ∧
      isBalanced next.awaited rest = true := by
  cases hstep with
  | openOperand | openCall =>
    rw [Place.awaited_opened]
    exact ⟨by rintro ⟨⟩, h⟩
  | closeEmpty hbegin =>
    obtain ⟨hmem, hrest⟩ := isBalanced_closed (hstart hbegin) h
    exact ⟨fun _ => hmem, hrest⟩
  | close _ hframe =>
    obtain ⟨hmem, hrest⟩ := isBalanced_closed hframe h
    exact ⟨fun _ => hmem, hrest⟩
  | name | string | literal | jump | operator | condition | block => exact ⟨by rintro ⟨⟩, h⟩
  | leading _ hleads =>
    have hbracket := not_isBracket_of_leadsOperand hleads
    rw [isBalanced_cons hbracket] at h
    exact ⟨fun hclose => absurd ⟨')', by simp, hclose⟩ hbracket, h⟩
  | joining _ hjoins =>
    have hbracket := not_isBracket_of_joinsOperands hjoins
    rw [isBalanced_cons hbracket] at h
    exact ⟨fun hclose => absurd ⟨')', by simp, hclose⟩ hbracket, h⟩
  | comma =>
    have hbracket : ¬ (Piece.mark ',').IsBracket := by simp [Piece.IsBracket]
    rw [isBalanced_cons hbracket] at h
    exact ⟨by rintro ⟨⟩, h⟩

theorem Place.IsReached.run (h : place.IsReached pieces)
    (hbalanced : isBalanced place.awaited rest = true)
    (hrun : rest.foldlM Place.step place = .ok next) :
    next.IsReached (pieces ++ rest) ∧ next.awaited = [] := by
  induction rest generalizing place pieces with
  | nil =>
    obtain rfl := Except.ok.inj hrun
    rw [List.append_nil]
    exact ⟨h, List.isEmpty_iff.mp hbalanced⟩
  | cons piece rest ih =>
    rw [List.foldlM_cons] at hrun
    cases hstep : place.step piece with
    | error e =>
      rw [hstep] at hrun
      cases hrun
    | ok middle =>
      rw [hstep] at hrun
      have hsteps := Place.steps_of_step hstep
      -- A closing parenthesis would also pass where none is open: the balance rules it out.
      obtain ⟨hclose, hbalanced⟩ := isBalanced_step hsteps h.start hbalanced
      have hnext := ih (h.step hsteps hclose) hbalanced hrun
      rwa [List.append_assoc] at hnext

theorem Place.IsReached.areExpressions (h : place.IsReached pieces) (hclose : place.awaited = [])
    (hmissing : place.missing? = none) : AreExpressions pieces := by
  obtain ⟨frames, progress⟩ := place
  obtain ⟨⟨outer, pre, cur, rfl, houter, hpre, hcur⟩, -⟩ := h
  cases houter with
  | nil =>
    apply hpre
    cases progress with
    | start =>
      rw [show cur = [] from hcur]
      exact areExpressions_nil
    | operator => cases hmissing
    | operand => exact IsExpression.areExpressions hcur
    | jump => exact IsExpression.areExpressions hcur.1
    | block => cases hmissing
  | parenthesis => simp [Place.awaited] at hclose
  | condition => cases progress <;> cases hmissing

end Balance

/-- The pieces that are accepted are expressions, each but the last with a comma behind it. -/
theorem checkExpressions_eq_ok_iff {pieces : List Piece} :
    isBalanced [] pieces = true ∧ checkExpressions pieces = .ok () ↔ AreExpressions pieces := by
  constructor
  · rintro ⟨hbalanced, hcheck⟩
    unfold checkExpressions at hcheck
    cases hrun : pieces.foldlM Place.step ⟨[], .start⟩ with
    | error e =>
      rw [hrun] at hcheck
      cases hcheck
    | ok place =>
      have hstart : (Place.mk [] .start).IsReached [] :=
        ⟨⟨[], [], [], rfl, .nil, leads_nil, rfl⟩, by simp⟩
      obtain ⟨hreached, hclose⟩ := hstart.run hbalanced hrun
      rw [hrun] at hcheck
      have hmissing : place.missing? = none := by
        cases h : place.missing? with
        | none => rfl
        | some wanted =>
          dsimp only [bind, Except.bind] at hcheck
          rw [h] at hcheck
          cases hcheck
      exact hreached.areExpressions hclose hmissing
  · intro h
    exact ⟨h.isBalanced, h.checkExpressions_eq_ok⟩

end Hypertext.CallText
