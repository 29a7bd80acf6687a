import Hypertext.Token
import Hypertext.Proofs.Lexeme.Read

/-!
# Text position

A text ends in text position when a comment put behind it is read as one and changes nothing
before it. Then its lexemes are the same in front of any text, up to a last run of text, and
reading goes on behind it as if from the start.
-/

namespace Hypertext

set_option autoImplicit false

/-- A `<` at the end would start markup together with what follows. -/
def EndsInText (s : Text) : Prop :=
  s.getLast? ≠ some '<' ∧
    Token.readAll (s ++ "<!-->".toList) = Token.readAll s ++ [.comment []]

instance (s : Text) : Decidable (EndsInText s) :=
  inferInstanceAs (Decidable (_ ∧ _))

namespace Token

theorem readAll_nil : readAll [] = [] := by
  rw [readAll, Lexeme.readAll_nil]
  rfl

theorem readAll_of_read? {s rest : Text} {lexeme : Lexeme}
    (h : Lexeme.read? s = some (lexeme, rest)) :
    readAll s = lexeme.tokens ++ readAll rest := by
  rw [readAll, Lexeme.readAll_of_read? h, List.flatMap_cons, readAll]

theorem readAll_markup {s : Text} (h : Lexeme.startsMarkup ('<' :: s) = true) :
    readAll ('<' :: s) =
      (Lexeme.readMarkup s).1.tokens ++ readAll (Lexeme.readMarkup s).2 := by
  have hread : Lexeme.read? ('<' :: s) = some ((Lexeme.readMarkup s).1, (Lexeme.readMarkup s).2) :=
    Lexeme.read?_eq_readMarkup h
  exact readAll_of_read? hread

/-- A text is its first run and what is read behind that. -/
theorem readAll_eq_readRun (s : Text) :
    readAll s = ofRun (Lexeme.readRun s).1 ++ readAll (Lexeme.readRun s).2 := by
  cases s with
  | nil => rfl
  | cons c s =>
    by_cases hstart : Lexeme.startsMarkup (c :: s) = true
    · rw [Lexeme.readRun_of_startsMarkup hstart]
      rfl
    · have hread : Lexeme.read? (c :: s) =
          some (.text (c :: (Lexeme.readRun s).1), (Lexeme.readRun s).2) := by
        rw [Lexeme.read?, if_neg hstart]
      rw [readAll_of_read? hread, Lexeme.readRun, if_neg hstart]
      rfl

theorem readAll_of_isRun {run : Text} (h : Lexeme.IsRun run) : readAll run = ofRun run := by
  have hwhole := Lexeme.append_readRun run
  rw [h.1, List.append_nil] at hwhole
  rw [readAll_eq_readRun, h.1, hwhole, readAll_nil, List.append_nil]

end Token

namespace Lexeme

/-- Only a comment or a declaration means a comment, and it means nothing else. -/
theorem eq_nil_of_tokens_eq_append_comment {lexeme : Lexeme} {before : List Token}
    {body : Text} (h : lexeme.tokens = before ++ [.comment body]) : before = [] := by
  have hlength := congrArg List.length h
  have hlast := congrArg List.getLast? h
  cases lexeme with
  | rawText tag content close =>
    have hend : (Lexeme.rawText tag content close).tokens =
        (tag.token :: Token.ofRun content) ++ [.endTag tag.element] := rfl
    rw [hend, List.getLast?_concat, List.getLast?_concat] at hlast
    cases hlast
  | declaration mark content closed =>
    rw [Lexeme.tokens] at hlength
    split at hlength <;> simpa using hlength
  | endTag name skipped closed =>
    rw [Lexeme.tokens] at hlength hlast
    split at hlength <;> simp_all
  | text run => simpa [Lexeme.tokens] using hlength
  | comment content ending => simpa [Lexeme.tokens] using hlength
  | startTag tag => simpa [Lexeme.tokens] using hlength

theorem exists_endTag_of_tokens_eq_nil {lexeme : Lexeme} (h : lexeme.tokens = []) :
    ∃ name skipped closed, lexeme = .endTag name skipped closed := by
  cases lexeme with
  | endTag name skipped closed => exact ⟨name, skipped, closed, rfl⟩
  | declaration mark body closed =>
    rw [tokens] at h
    split at h <;> simp at h
  | text run => simp [tokens] at h
  | comment body ending => simp [tokens] at h
  | startTag tag => simp [tokens] at h
  | rawText tag content close => simp [tokens] at h

/-- Markup without its end is not read within the text that it ran to the end of. -/
theorem not_read_within {s t more : Text} (hs : startsMarkup ('<' :: s) = true)
    (hclosed : ¬ (readMarkup s).1.IsClosed) (ht : t ≠ [])
    (hsource : '<' :: s = (readMarkup (s ++ t)).1.source ++ more) :
    (readMarkup (s ++ t)).2 ≠ more ++ t := by
  intro hrest
  by_cases hlonger : (readMarkup (s ++ t)).1.IsClosed
  · have hread := settled_readMarkup (startsMarkup_append hs t) hlonger more
    change read? ((readMarkup (s ++ t)).1.source ++ more) = some ((readMarkup (s ++ t)).1, more)
      at hread
    rw [← hsource, read?_eq_readMarkup hs] at hread
    have heq : readMarkup s = ((readMarkup (s ++ t)).1, more) := Option.some.inj hread
    rw [heq] at hclosed
    exact hclosed hlonger
  · rw [rest_eq_nil_of_not_isClosed hlonger] at hrest
    exact ht (List.append_eq_nil_iff.mp hrest.symm).2

theorem exists_taken_of_not_isClosed {s t : Text} (hs : startsMarkup ('<' :: s) = true)
    (hclosed : ¬ (readMarkup s).1.IsClosed) (ht : t ≠ []) :
    ∃ taken, taken ≠ [] ∧ t = taken ++ (readMarkup (s ++ t)).2 := by
  have hsource := source_readMarkup (s ++ t)
  rw [← List.cons_append] at hsource
  rcases List.append_eq_append_iff.mp hsource with ⟨more, hs', hrest⟩ | ⟨taken, htaken, hrest⟩
  · exact absurd hrest (not_read_within hs hclosed ht hs')
  · refine ⟨taken, ?_, hrest⟩
    rintro rfl
    rw [List.append_nil] at htaken
    refine @not_read_within _ _ [] hs hclosed ht ?_ hrest.symm
    rw [List.append_nil, htaken]

end Lexeme

/-- A comment put behind markup without its end is not read as one. -/
theorem readAll_append_comment_ne {s : Text} (hs : Lexeme.startsMarkup ('<' :: s) = true)
    (hclosed : ¬ (Lexeme.readMarkup s).1.IsClosed) :
    Token.readAll ('<' :: (s ++ "<!-->".toList)) ≠ Token.readAll ('<' :: s) ++ [.comment []] := by
  intro h
  have hlonger : Lexeme.startsMarkup ('<' :: (s ++ "<!-->".toList)) = true :=
    Lexeme.startsMarkup_append hs _
  rw [Token.readAll_markup hs, Token.readAll_markup hlonger,
    Lexeme.rest_eq_nil_of_not_isClosed hclosed, Token.readAll_nil, List.append_nil] at h
  -- what is left of the comment holds no markup
  obtain ⟨taken, htaken, hrest⟩ :=
    Lexeme.exists_taken_of_not_isClosed (t := "<!-->".toList) hs hclosed (by simp)
  have hrun : Lexeme.IsRun (Lexeme.readMarkup (s ++ "<!-->".toList)).2 := by
    obtain ⟨c, taken, rfl⟩ := List.exists_cons_of_ne_nil htaken
    have htail : "!-->".toList = taken ++ (Lexeme.readMarkup (s ++ "<!-->".toList)).2 :=
      (List.cons.inj hrest).2
    apply Lexeme.isRun_of_notMem
    intro hmem
    have hlt : '<' ∈ "!-->".toList := by
      rw [htail]
      exact List.mem_append_right _ hmem
    revert hlt
    decide
  rw [Token.readAll_of_isRun hrun, Token.ofRun] at h
  split at h
  · rw [List.append_nil] at h
    have hnil := Lexeme.eq_nil_of_tokens_eq_append_comment h
    obtain ⟨name, skipped, closed, hend⟩ := Lexeme.exists_endTag_of_tokens_eq_nil hnil
    have hsource := Lexeme.source_readMarkup s
    rw [hend] at hsource
    obtain ⟨u, rfl⟩ : ∃ u, s = '/' :: u := ⟨_, (List.cons.inj hsource).2.symm⟩
    rw [hnil] at h
    simp only [List.cons_append, Lexeme.readMarkup, Lexeme.readEndTag, Lexeme.tokens] at h
    split at h <;> simp at h
  · have hlast := congrArg List.getLast? h
    rw [List.getLast?_concat, List.getLast?_concat] at hlast
    cases hlast

theorem EndsInText.rest {s rest : Text} {lexeme : Lexeme} (h : EndsInText s)
    (hread : Lexeme.read? s = some (lexeme, rest))
    (hmore : ∀ t, Lexeme.read? (s ++ t) = some (lexeme, rest ++ t)) : EndsInText rest := by
  obtain ⟨hlast, htokens⟩ := h
  rw [Token.readAll_of_read? hread, Token.readAll_of_read? (hmore _), List.append_assoc] at htokens
  refine ⟨?_, List.append_cancel_left htokens⟩
  rw [← Lexeme.source_append_of_read?_eq_some hread] at hlast
  intro hrest
  apply hlast
  rw [List.getLast?_append, hrest]
  rfl

/-- A text that ends in text position is a list of lexemes, the same before any text, and a
run of text that goes on behind it. -/
theorem EndsInText.exists_lexemes {s : Text} (h : EndsInText s) :
    ∃ lexemes run, s = lexemes.flatMap Lexeme.source ++ run ∧ Lexeme.IsRun run ∧
      ∀ t, Lexeme.readAll (s ++ t) = lexemes ++ Lexeme.readAll (run ++ t) := by
  induction hn : s.length using Nat.strong_induction_on generalizing s with
  | _ n ih =>
    -- a lexeme that is read in front of any text leaves the rest to the induction
    have hstep : ∀ lexeme rest, Lexeme.read? s = some (lexeme, rest) →
        (∀ t, Lexeme.read? (s ++ t) = some (lexeme, rest ++ t)) →
        ∃ lexemes run, s = lexemes.flatMap Lexeme.source ++ run ∧ Lexeme.IsRun run ∧
          ∀ t, Lexeme.readAll (s ++ t) = lexemes ++ Lexeme.readAll (run ++ t) := by
      intro lexeme rest hread hmore
      have hlength := Lexeme.length_lt_of_read?_eq_some hread
      obtain ⟨lexemes, run, hrest, hrun, hall⟩ :=
        ih rest.length (by omega) (h.rest hread hmore) rfl
      refine ⟨lexeme :: lexemes, run, ?_, hrun, ?_⟩
      · rw [List.flatMap_cons, List.append_assoc, ← hrest]
        exact (Lexeme.source_append_of_read?_eq_some hread).symm
      · intro t
        rw [Lexeme.readAll_of_read? (hmore t), hall t, List.cons_append]
    cases s with
    | nil => exact ⟨[], [], rfl, ⟨rfl, by simp⟩, fun _ => rfl⟩
    | cons c s =>
      by_cases hstart : Lexeme.startsMarkup (c :: s) = true
      · obtain rfl := Lexeme.eq_of_startsMarkup hstart
        by_cases hclosed : (Lexeme.readMarkup s).1.IsClosed
        · have hread := Lexeme.read?_eq_readMarkup hstart
          have hsource := Lexeme.source_readMarkup s
          apply hstep (Lexeme.readMarkup s).1 (Lexeme.readMarkup s).2 hread
          intro t
          rw [← hsource, List.append_assoc]
          exact Lexeme.settled_readMarkup hstart hclosed _
        · exact absurd h.2 (readAll_append_comment_ne hstart hclosed)
      · by_cases hrest : (Lexeme.readRun s).2 = []
        · refine ⟨[], c :: s, rfl, ⟨?_, h.1⟩, fun _ => rfl⟩
          rw [Lexeme.readRun, if_neg hstart]
          exact hrest
        · apply hstep (.text (c :: (Lexeme.readRun s).1)) (Lexeme.readRun s).2
          · rw [Lexeme.read?, if_neg hstart]
          · exact Lexeme.read?_text_append (by simpa using hstart) hrest

/-- What stands behind such a text is read as if it stood behind its last run alone. -/
theorem EndsInText.exists_tokens {s : Text} (h : EndsInText s) :
    ∃ tokens run, Lexeme.IsRun run ∧
      ∀ t, Token.readAll (s ++ t) = tokens ++ Token.readAll (run ++ t) := by
  obtain ⟨lexemes, run, -, hrun, hall⟩ := h.exists_lexemes
  refine ⟨lexemes.flatMap Lexeme.tokens, run, hrun, ?_⟩
  intro t
  rw [Token.readAll, hall t, List.flatMap_append, Token.readAll]

theorem EndsInText.readAll_append {s t : Text} (h : EndsInText s)
    (ht : Lexeme.startsMarkup t = true) :
    Token.readAll (s ++ t) = Token.readAll s ++ Token.readAll t := by
  obtain ⟨tokens, run, hrun, hread⟩ := h.exists_tokens
  have hself := hread []
  rw [List.append_nil, List.append_nil, Token.readAll_of_isRun hrun] at hself
  rw [hread t, hself, Token.readAll_eq_readRun (run ++ t), Lexeme.readRun_append hrun,
    Lexeme.readRun_of_startsMarkup ht, List.append_nil, List.append_assoc]

end Hypertext
