import Hypertext.Lexeme.Read
import Hypertext.Proofs.Lexeme.CloseTag
import Hypertext.Proofs.Lexeme.StartTag

/-!
# Lexemes are read apart from what follows

A lexeme is settled when it is read off its own source, whatever text stands behind it. All
markup that is closed is settled; what is not closed was cut off by the end of the text.
Runs of text are different: they go on until markup starts.
-/

namespace Hypertext.Lexeme

set_option autoImplicit false

def Settled (lexeme : Lexeme) : Prop :=
  ∀ t, read? (lexeme.source ++ t) = some (lexeme, t)

def IsClosed : Lexeme → Prop
  | .text _ => False
  | .comment _ ending => ending ≠ []
  | .declaration _ _ closed => closed = true
  | .endTag _ _ closed => closed = true
  | .startTag tag => tag.ending ≠ .missing
  | .rawText _ _ close => close ≠ []

/-- What a comment can hold that ends in `-->`. -/
structure IsCommentBody (body : Text) : Prop where
  not_infix : ¬ "-->".toList <:+: body
  head_ne : body.head? ≠ some '>'
  not_arrow : ¬ "->".toList <+: body

theorem isCommentBody_iff {body : Text} :
    IsCommentBody body ↔
      ¬ "-->".toList <:+: body ∧ body.head? ≠ some '>' ∧ ¬ "->".toList <+: body :=
  ⟨fun h => ⟨h.1, h.2, h.3⟩, fun h => ⟨h.1, h.2.1, h.2.2⟩⟩

instance (body : Text) : Decidable (IsCommentBody body) :=
  decidable_of_iff _ isCommentBody_iff.symm

theorem read?_eq_readMarkup {s : Text} (h : startsMarkup ('<' :: s) = true) :
    read? ('<' :: s) = some (readMarkup s) := by
  rw [read?, if_pos h]

theorem readMarkup_of_isAlpha {c : Char} (h : c.isAlpha = true) (s : Text) :
    readMarkup (c :: s) = readElement (c :: s) := by
  have hne : ∀ d : Char, d.isAlpha = false → c ≠ d := by
    rintro d hd rfl
    rw [h] at hd
    cases hd
  exact readMarkup_eq_readElement (hne '!' (by decide)) (hne '?' (by decide)) (hne '/' (by decide)) s

/-! ## Comments -/

theorem readComment_append {body : Text} (h : IsCommentBody body) (t : Text) :
    readComment (body ++ ("-->".toList ++ t)) = (.comment body "-->", t) := by
  rw [readComment_eq_cut?, Text.cut?_append_commentEnd h.not_infix]
  · rintro rest heq
    cases body with
    | nil => simp at heq
    | cons c body =>
      obtain rfl := (List.cons.inj heq).1
      exact h.head_ne rfl
  · rintro rest heq
    match body with
    | [] => simp at heq
    | [c] => simp at heq
    | c :: d :: body =>
      simp only [List.cons_append, List.cons.injEq] at heq
      obtain ⟨rfl, rfl, -⟩ := heq
      exact h.not_arrow ⟨body, rfl⟩

theorem settled_comment {body : Text} (h : IsCommentBody body) :
    Settled (.comment body "-->") := by
  intro t
  have hread := readComment_append h t
  simp only [source, List.append_assoc]
  exact congrArg some hread

theorem isCommentBody_of_cut? {s body rest : Text} (h : Text.cut? "-->" s = some (body, rest))
    (hhead : ∀ u, s ≠ '>' :: u) (harrow : ∀ u, s ≠ '-' :: '>' :: u) : IsCommentBody body := by
  have hwhole := Text.eq_of_cut?_eq_some h
  refine ⟨Text.not_infix_of_cut?_eq_some h (by simp), ?_, ?_⟩
  · intro hgt
    obtain ⟨u, rfl⟩ := List.head?_eq_some_iff.mp hgt
    exact hhead _ hwhole.symm
  · rintro ⟨u, rfl⟩
    exact harrow _ hwhole.symm

theorem settled_readComment {s : Text} (h : (readComment s).1.IsClosed) :
    (readComment s).1.Settled := by
  unfold readComment at h ⊢
  split at h
  · exact fun _ => rfl
  · exact fun _ => rfl
  · next hhead harrow =>
    split at h
    · next hcut =>
      exact settled_comment (isCommentBody_of_cut? hcut hhead harrow)
    · exact absurd rfl h

/-! ## Declarations and end tags -/

theorem readDeclaration_append {body : Text} (h : '>' ∉ body) (mark : Char) (t : Text) :
    readDeclaration mark (body ++ '>' :: t) = (.declaration mark body true, t) := by
  rw [readDeclaration, Text.upTo_append_cons h]

theorem settled_declaration {mark : Char} {body : Text} (hbody : '>' ∉ body)
    (hread : ∀ s, readMarkup (mark :: (body ++ '>' :: s)) = readDeclaration mark (body ++ '>' :: s))
    (hstart : ∀ s, startsMarkup ('<' :: mark :: s) = true) :
    Settled (.declaration mark body true) := by
  intro t
  have hsource : Lexeme.source (.declaration mark body true) ++ t =
      '<' :: mark :: (body ++ '>' :: t) := by
    simp [source, Text.closing]
  rw [hsource, read?_eq_readMarkup (hstart _), hread, readDeclaration_append hbody]

theorem settled_readDeclaration_bang {s : Text} (h : ∀ u, s ≠ '-' :: '-' :: u)
    (hclosed : (readDeclaration '!' s).1.IsClosed) : (readDeclaration '!' s).1.Settled := by
  have hbody : '>' ∉ (Text.upTo '>' s).1 := Text.notMem_upTo s
  have hwhole := Text.upTo_eq '>' s
  have hfound : (Text.upTo '>' s).2.1 = true := hclosed
  simp only [readDeclaration, hfound, Text.closing] at hwhole ⊢
  apply settled_declaration hbody
  · intro t
    apply readMarkup_bang
    -- the second hyphen would stand before the end of the declaration
    intro u hu
    rcases hb : (Text.upTo '>' s).1 with _ | ⟨c, _ | ⟨d, body⟩⟩
    · simp [hb] at hu
    · simp [hb] at hu
    · rw [hb] at hu hwhole
      simp only [List.cons_append, List.cons.injEq] at hu
      obtain ⟨rfl, rfl, -⟩ := hu
      exact h _ hwhole.symm
  · exact fun _ => rfl

theorem settled_readDeclaration_question {s : Text}
    (hclosed : (readDeclaration '?' s).1.IsClosed) : (readDeclaration '?' s).1.Settled := by
  have hfound : (Text.upTo '>' s).2.1 = true := hclosed
  simp only [readDeclaration, hfound]
  exact settled_declaration (Text.notMem_upTo s) (fun _ => rfl) (fun _ => rfl)

theorem readEndTag_append {name skipped : Text} (hname : ∀ c ∈ name, endsTagName c = false)
    (hskipped : ∀ c ∈ skipped.head?, endsTagName c = true) (hgt : '>' ∉ skipped) (t : Text) :
    readEndTag (name ++ (skipped ++ '>' :: t)) = (.endTag name skipped true, t) := by
  have hinside : ∀ c ∈ name, (!endsTagName c) = true := by simpa using hname
  have hends : ∀ c ∈ (skipped ++ '>' :: t).head?, (!endsTagName c) = false := by
    intro c hc
    cases skipped with
    | nil =>
      obtain rfl : '>' = c := by simpa using hc
      decide
    | cons d skipped =>
      obtain rfl : d = c := by simpa using hc
      simp [hskipped d rfl]
  rw [readEndTag, Text.takeWhile_append_of_head hinside hends,
    Text.dropWhile_append_of_head hinside hends, Text.upTo_append_cons hgt]

theorem settled_endTag {name skipped : Text} (hname : ∀ c ∈ name, endsTagName c = false)
    (hskipped : ∀ c ∈ skipped.head?, endsTagName c = true) (hgt : '>' ∉ skipped) :
    Settled (.endTag name skipped true) := by
  intro t
  have hsource : Lexeme.source (.endTag name skipped true) ++ t =
      '<' :: '/' :: (name ++ (skipped ++ '>' :: t)) := by
    simp [source, Text.closing]
  rw [hsource, read?_eq_readMarkup rfl]
  exact congrArg some (readEndTag_append hname hskipped hgt t)

theorem settled_readEndTag {s : Text} (h : (readEndTag s).1.IsClosed) :
    (readEndTag s).1.Settled := by
  have hfound : (Text.upTo '>' (s.dropWhile fun c => !endsTagName c)).2.1 = true := h
  have hwhole := Text.upTo_eq '>' (s.dropWhile fun c => !endsTagName c)
  simp only [readEndTag, hfound]
  apply settled_endTag
  · intro c hc
    simpa using List.mem_takeWhile_imp hc
  · intro c hc
    obtain ⟨u, hu⟩ := List.head?_eq_some_iff.mp hc
    rw [hu] at hwhole
    have hmem : c ∈ (s.dropWhile fun c => !endsTagName c).head? := by
      rw [← hwhole]
      rfl
    simpa using Text.of_mem_head?_dropWhile hmem
  · exact Text.notMem_upTo _

/-! ## Elements -/

theorem startsMarkup_of_isAlpha {c : Char} (h : c.isAlpha = true) (s : Text) :
    startsMarkup ('<' :: c :: s) = true := by
  simp [startsMarkup, h]

/-- Markup that is no declaration and no end tag is a start tag. -/
theorem exists_isAlpha_of_startsMarkup {s : Text} (hs : startsMarkup ('<' :: s) = true)
    (hbang : ∀ rest, s ≠ '!' :: rest) (hquestion : ∀ rest, s ≠ '?' :: rest)
    (hslash : ∀ rest, s ≠ '/' :: rest) : ∃ c rest, s = c :: rest ∧ c.isAlpha = true := by
  cases s with
  | nil => simp [startsMarkup] at hs
  | cons c rest =>
    simp only [startsMarkup, Bool.or_eq_true, beq_iff_eq] at hs
    rcases hs with ((rfl | rfl) | rfl) | hc
    · exact absurd rfl (hbang rest)
    · exact absurd rfl (hquestion rest)
    · exact absurd rfl (hslash rest)
    · exact ⟨c, rest, rfl, hc⟩

theorem read?_source_append {tag : WrittenTag} (h : tag.Legible) (t : Text) :
    read? (tag.source ++ t) =
      some (readElement (tag.name ++ (TagPiece.writtenAll tag.pieces tag.ending ++ t))) := by
  obtain ⟨c, name, hname⟩ := List.exists_cons_of_ne_nil h.name_ne_nil
  have hc : c.isAlpha = true := h.name_isAlpha c (by rw [hname]; rfl)
  rw [WrittenTag.source_eq, hname]
  simp only [List.cons_append, List.append_assoc]
  rw [read?_eq_readMarkup (startsMarkup_of_isAlpha hc _), readMarkup_of_isAlpha hc]

theorem settled_startTag {tag : WrittenTag} (h : tag.Legible) (hending : tag.ending ≠ .missing)
    (hraw : tag.opensRawText = false) : Settled (.startTag tag) := by
  intro t
  rw [source, read?_source_append h, readElement, WrittenTag.read_append h hending]
  simp [hraw]

theorem settled_rawText {tag : WrittenTag} {raw close : Text} (h : tag.Legible)
    (hending : tag.ending ≠ .missing) (hopens : tag.opensRawText = true)
    (hraw : cutCloseTag? tag.element raw = none)
    (hclose : IsCloseTag tag.element close) :
    Settled (.rawText tag raw close) := by
  have hname : '<' ∉ tag.element := by
    have hmem : Tag.isRawText tag.element = true := by
      rw [WrittenTag.opensRawText, Bool.and_eq_true] at hopens
      exact hopens.2
    intro hlt
    have hnames : ∀ name ∈ Tag.rawTextNames, '<' ∉ name := by decide
    exact hnames _ (of_decide_eq_true hmem) hlt
  intro t
  rw [source, List.append_assoc, read?_source_append h, readElement,
    WrittenTag.read_append h hending]
  simp only [hopens, if_true, List.append_assoc]
  rw [cutCloseTag?_append hname hraw hclose]

theorem not_missing_of_rest_ne_nil {s : Text} (h : (WrittenTag.read s).2 ≠ []) :
    (WrittenTag.read s).1.ending ≠ .missing := by
  intro hmissing
  exact h ((TagPiece.legible_readAll _).2 hmissing)

theorem settled_readElement {c : Char} (hc : c.isAlpha = true) (s : Text)
    (h : (readElement (c :: s)).1.IsClosed) : (readElement (c :: s)).1.Settled := by
  have hlegible := WrittenTag.legible_read hc s
  rw [readElement] at h ⊢
  split at h
  · next hopens =>
    rw [if_pos hopens]
    split at h
    · next raw close rest hcut =>
      obtain ⟨hraw, hclose⟩ := of_cutCloseTag?_eq_some hcut
      have hrest : (WrittenTag.read (c :: s)).2 ≠ [] := by
        intro hnil
        rw [hnil] at hcut
        simp [cutCloseTag?] at hcut
      exact settled_rawText hlegible (not_missing_of_rest_ne_nil hrest) hopens hraw hclose
    · exact absurd rfl h
  · next hopens =>
    rw [if_neg hopens]
    exact settled_startTag hlegible h (by simpa using hopens)

/-- Markup that is closed is read apart from what follows. -/
theorem settled_readMarkup {s : Text} (hs : startsMarkup ('<' :: s) = true)
    (h : (readMarkup s).1.IsClosed) : (readMarkup s).1.Settled := by
  unfold readMarkup at h ⊢
  split at h
  · exact settled_readComment h
  · next hdashes => exact settled_readDeclaration_bang hdashes h
  · exact settled_readDeclaration_question h
  · exact settled_readEndTag h
  · next hbang hquestion hslash =>
    obtain ⟨c, rest, rfl, hc⟩ := exists_isAlpha_of_startsMarkup hs hbang hquestion hslash
    exact settled_readElement hc rest h

/-- Only the end of the text leaves markup without its end. -/
theorem rest_eq_nil_of_not_isClosed {s : Text} (h : ¬ (readMarkup s).1.IsClosed) :
    (readMarkup s).2 = [] := by
  unfold readMarkup at h ⊢
  split at h
  · unfold readComment at h ⊢
    split at h
    · simp [IsClosed] at h
    · simp [IsClosed] at h
    · split at h
      · simp [IsClosed] at h
      · rfl
  · simp only [readDeclaration, IsClosed] at h ⊢
    exact Text.upTo_not_found _ (by simpa using h)
  · simp only [readDeclaration, IsClosed] at h ⊢
    exact Text.upTo_not_found _ (by simpa using h)
  · simp only [readEndTag, IsClosed] at h ⊢
    exact Text.upTo_not_found _ (by simpa using h)
  · rw [readElement] at h ⊢
    split at h
    · next hopens =>
      rw [if_pos hopens]
      split at h
      · next hcut =>
        obtain ⟨-, written, blanks, -, -, rfl⟩ := of_cutCloseTag?_eq_some hcut
        simp [IsClosed] at h
      · rfl
    · next hopens =>
      rw [if_neg hopens]
      by_contra hrest
      exact h (not_missing_of_rest_ne_nil hrest)

/-! ## Runs of text -/

/-- A text in which no markup starts, not even at its last character. -/
def IsRun (s : Text) : Prop :=
  (readRun s).2 = [] ∧ s.getLast? ≠ some '<'

theorem not_startsMarkup {c : Char} (h : c ≠ '<') (s : Text) : startsMarkup (c :: s) = false := by
  by_contra hne
  exact h (eq_of_startsMarkup (by simpa using hne))

theorem startsMarkup_cons_cons (c d : Char) (s t : Text) :
    startsMarkup (c :: d :: (s ++ t)) = startsMarkup (c :: d :: s) := by
  by_cases h : c = '<'
  · subst h
    rfl
  · rw [not_startsMarkup h, not_startsMarkup h]

theorem startsMarkup_append {s : Text} (h : startsMarkup s = true) (t : Text) :
    startsMarkup (s ++ t) = true := by
  match s, h with
  | c :: d :: s, h => rwa [List.cons_append, List.cons_append, startsMarkup_cons_cons]
  | [c], h => simp [startsMarkup] at h

theorem readRun_of_startsMarkup {s : Text} (h : startsMarkup s = true) : readRun s = ([], s) := by
  cases s with
  | nil => rfl
  | cons c s => rw [readRun, if_pos h]

theorem readRun_append {s : Text} (h : IsRun s) (t : Text) :
    readRun (s ++ t) = (s ++ (readRun t).1, (readRun t).2) := by
  obtain ⟨hrun, hlast⟩ := h
  induction s with
  | nil => rfl
  | cons c s ih =>
    rw [readRun] at hrun
    split at hrun
    · simp at hrun
    · next hstart =>
      have hnot : startsMarkup (c :: (s ++ t)) = false := by
        cases s with
        | nil => exact not_startsMarkup (by simpa using hlast) t
        | cons d s => rw [List.cons_append, startsMarkup_cons_cons]; simpa using hstart
      have hs : s.getLast? ≠ some '<' := by
        cases s with
        | nil => simp
        | cons d s => rwa [List.getLast?_cons_cons] at hlast
      rw [List.cons_append, readRun, if_neg (by simp [hnot]), ih hrun hs]
      rfl

theorem readRun_append_of_rest {s : Text} (h : (readRun s).2 ≠ []) (t : Text) :
    readRun (s ++ t) = ((readRun s).1, (readRun s).2 ++ t) := by
  induction s with
  | nil => exact absurd rfl h
  | cons c s ih =>
    rw [readRun] at h ⊢
    split
    · next hstart =>
      exact readRun_of_startsMarkup (startsMarkup_append hstart t)
    · next hstart =>
      rw [if_neg hstart] at h
      cases s with
      | nil => exact absurd rfl h
      | cons d s =>
        have hnot : ¬ startsMarkup (c :: (d :: s ++ t)) = true := by
          rwa [List.cons_append, startsMarkup_cons_cons]
        rw [List.cons_append, readRun, ih h, if_neg hnot]

theorem read?_text_append {c : Char} {s : Text} (hstart : startsMarkup (c :: s) = false)
    (hrest : (readRun s).2 ≠ []) (t : Text) :
    read? (c :: s ++ t) = some (.text (c :: (readRun s).1), (readRun s).2 ++ t) := by
  cases s with
  | nil => exact absurd rfl hrest
  | cons d s =>
    have hnot : startsMarkup (c :: d :: (s ++ t)) = false := by
      rwa [startsMarkup_cons_cons]
    simp only [List.cons_append, read?, hnot]
    rw [← List.cons_append, readRun_append_of_rest hrest]
    rfl

theorem isRun_of_notMem {s : Text} (h : '<' ∉ s) : IsRun s := by
  induction s with
  | nil => exact ⟨rfl, by simp⟩
  | cons c s ih =>
    obtain ⟨hc, hs⟩ := List.ne_and_not_mem_of_not_mem_cons h
    refine ⟨?_, fun hlast => h (List.mem_of_getLast? hlast)⟩
    rw [readRun, if_neg (by simp [not_startsMarkup hc.symm])]
    exact (ih hs).1

/-! ## All lexemes -/

theorem readAll_nil : readAll [] = [] := by
  rw [readAll]
  rfl

theorem readAll_of_read? {s rest : Text} {lexeme : Lexeme} (h : read? s = some (lexeme, rest)) :
    readAll s = lexeme :: readAll rest := by
  rw [readAll]
  split
  · next hnone =>
    rw [h] at hnone
    cases hnone
  · next heq =>
    rw [h] at heq
    cases heq
    rfl

/-- Text in front of markup, or of the end, is a lexeme. -/
theorem readAll_run_append {run : Text} (h : IsRun run) (hne : run ≠ []) {t : Text}
    (ht : t = [] ∨ startsMarkup t = true) : readAll (run ++ t) = .text run :: readAll t := by
  have hread := readRun_append h t
  have hrest : readRun t = ([], t) := by
    rcases ht with rfl | ht
    · rfl
    · exact readRun_of_startsMarkup ht
  rw [hrest, List.append_nil] at hread
  obtain ⟨c, s, rfl⟩ := List.exists_cons_of_ne_nil hne
  apply readAll_of_read?
  rw [List.cons_append] at hread ⊢
  rw [readRun] at hread
  split at hread
  · simp at hread
  · next hstart =>
    simp only [Prod.mk.injEq, List.cons.injEq, true_and] at hread
    rw [read?, if_neg hstart, hread.1, hread.2]

end Hypertext.Lexeme
