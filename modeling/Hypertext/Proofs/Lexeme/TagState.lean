import Hypertext.Proofs.Lexeme.StartTag

/-!
# Start tags read character by character

Up to its `>`, reading a start tag is the run of a machine with six states. How the tag ends
and what follows it depends on the state alone, so a text inside a tag can be judged by the
state that it leaves behind.
-/

namespace Hypertext

set_option autoImplicit false

/-- Where reading stands within a start tag. Blanks change nothing behind a name or a sign. -/
inductive TagState where
  | between
  | slash
  | named
  | signed
  | quoted (quote : Char)
  | bare
  deriving DecidableEq, Repr

namespace TagState

def step : TagState → Char → TagState
  | between, c | slash, c => if c = '/' then slash else if isBlank c then between else named
  | named, c => if c = '=' then signed else if c = '/' then slash else named
  | signed, c => if isQuote c then quoted c else if isBlank c then signed else bare
  | quoted quote, c => if c = quote then between else quoted quote
  | bare, c => if isBlank c then between else bare

def run (s : TagState) (t : Text) : TagState :=
  t.foldl step s

@[simp] theorem run_nil (s : TagState) : s.run [] = s := rfl

@[simp] theorem run_cons (s : TagState) (c : Char) (t : Text) :
    s.run (c :: t) = (s.step c).run t := rfl

theorem run_append (s : TagState) (t u : Text) : s.run (t ++ u) = (s.run t).run u :=
  List.foldl_append

theorem run_concat (s : TagState) (t : Text) (c : Char) : s.run (t ++ [c]) = (s.run t).step c :=
  run_append s t [c]

/-- How the tag ends that reading stands in, and what follows it. The name of an attribute may
start with any character. -/
def finish : TagState → Text → TagEnding × Text
  | between, t => (TagPiece.readAll t).2
  | slash, t => (TagPiece.readAll ('/' :: t)).2
  | named, t => (TagPiece.readAll (WrittenAttribute.read 'a' t).2).2
  | signed, t => (TagPiece.readAll (WrittenValue.read (t.dropWhile isBlank)).2).2
  | quoted quote, t => (TagPiece.readAll (Text.upTo quote t).2.2).2
  | bare, t => (TagPiece.readAll (t.dropWhile fun c => !endsBareValue c)).2

theorem finish_bare (t : Text) :
    finish bare t = (TagPiece.readAll (t.dropWhile fun c => !endsBareValue c)).2 := rfl

/-! ## One character -/

section Attribute
variable {c : Char} {t : Text}

theorem read_snd_eq (c d : Char) (t : Text) :
    (WrittenAttribute.read c t).2 = (WrittenAttribute.read d t).2 := by
  rw [WrittenAttribute.read, WrittenAttribute.read]
  dsimp only
  split <;> rfl

theorem read_snd_cons (h : endsAttributeName c = false) (d : Char) (t : Text) :
    (WrittenAttribute.read d (c :: t)).2 = (WrittenAttribute.read d t).2 := by
  rw [WrittenAttribute.read, WrittenAttribute.read, List.dropWhile_cons_of_pos (by simp [h])]
  dsimp only
  split <;> rfl

theorem read_snd_of_sign {u : Text} (hends : ∀ d ∈ t.head?, endsAttributeName d = true)
    (hsign : t.dropWhile isBlank = '=' :: u) (c : Char) :
    (WrittenAttribute.read c t).2 = (WrittenValue.read (u.dropWhile isBlank)).2 := by
  have hrest : t.dropWhile (fun d => !endsAttributeName d) = t :=
    Text.dropWhile_append_of_head (s := []) (by simp) (by simpa using hends)
  rw [WrittenAttribute.read, hrest]
  dsimp only
  rw [hsign]
  rfl

theorem read_snd_of_not_sign (hends : ∀ d ∈ t.head?, endsAttributeName d = true)
    (hsign : (t.dropWhile isBlank).head? ≠ some '=') (c : Char) :
    (WrittenAttribute.read c t).2 = t := by
  have hrest : t.dropWhile (fun d => !endsAttributeName d) = t :=
    Text.dropWhile_append_of_head (s := []) (by simp) (by simpa using hends)
  rw [WrittenAttribute.read, hrest]
  dsimp only
  split
  · next heq => simp [heq] at hsign
  · rfl

end Attribute

variable {c : Char} {s : TagState} {t : Text}

theorem finish_between_cons (hc : c ≠ '>') (t : Text) :
    finish between (c :: t) = finish (step between c) t := by
  by_cases hslash : c = '/'
  · subst hslash
    rfl
  · by_cases hblank : isBlank c = true
    · rw [step, if_neg hslash, if_pos hblank, finish, TagPiece.readAll_blank hblank, finish]
    · have hname : endsTagName c = false := by simp [endsTagName, hc, hslash, hblank]
      rw [step, if_neg hslash, if_neg hblank, finish, TagPiece.readAll_attr hname, finish,
        read_snd_eq c 'a']

theorem finish_slash_cons (hc : c ≠ '>') (t : Text) :
    finish slash (c :: t) = finish (step slash c) t := by
  have hnext : finish slash (c :: t) = finish between (c :: t) := by
    change (TagPiece.readAll ('/' :: c :: t)).2 = (TagPiece.readAll (c :: t)).2
    rw [TagPiece.readAll_slash (by simpa using hc)]
  rw [hnext]
  exact finish_between_cons hc t

/-- A name that gets no value is left as if nothing stood before. -/
theorem finish_named_of_not_sign (h : (t.dropWhile isBlank).head? ≠ some '=') :
    finish named t = finish between t := by
  rw [finish, finish]
  cases t with
  | nil => rfl
  | cons c t =>
    by_cases hends : endsTagName c = true
    · rw [read_snd_of_not_sign (by simp [endsAttributeName, hends]) h]
    · have hname : endsTagName c = false := by simpa using hends
      obtain ⟨hblank, -, -⟩ := not_isBlank_of_not_endsTagName hname
      have hsign : c ≠ '=' := by simpa [hblank] using h
      rw [read_snd_cons (by simp [endsAttributeName, hname, hsign]),
        TagPiece.readAll_attr hname, read_snd_eq c 'a']

theorem finish_named_blank (hc : isBlank c = true) (t : Text) :
    finish named (c :: t) = finish named t := by
  have hskip : (c :: t).dropWhile isBlank = t.dropWhile isBlank := List.dropWhile_cons_of_pos hc
  have hcends : endsAttributeName c = true := by simp [endsAttributeName, endsTagName, hc]
  by_cases hsign : (t.dropWhile isBlank).head? = some '='
  · obtain ⟨u, hu⟩ := List.head?_eq_some_iff.mp hsign
    have hends : ∀ d ∈ t.head?, endsAttributeName d = true := by
      intro d hd
      obtain ⟨v, rfl⟩ := List.head?_eq_some_iff.mp hd
      by_cases hblank : isBlank d = true
      · simp [endsAttributeName, endsTagName, hblank]
      · obtain rfl : d = '=' := by simpa [hblank] using hsign
        decide
    rw [finish, finish, read_snd_of_sign (by simpa using hcends) (hskip.trans hu),
      read_snd_of_sign hends hu]
  · rw [finish_named_of_not_sign (by rwa [hskip]), finish_named_of_not_sign hsign, finish, finish,
      TagPiece.readAll_blank hc]

theorem finish_named_cons (hc : c ≠ '>') (t : Text) :
    finish named (c :: t) = finish (step named c) t := by
  by_cases hsign : c = '='
  · subst hsign
    rw [step, if_pos rfl, finish, read_snd_of_sign (u := t) (by simp [endsAttributeName])
      (List.dropWhile_cons_of_neg (by decide)), finish]
  · rw [step, if_neg hsign]
    by_cases hslash : c = '/'
    · subst hslash
      rw [if_pos rfl, finish_named_of_not_sign (by simp [isBlank])]
      rfl
    · rw [if_neg hslash]
      by_cases hblank : isBlank c = true
      · exact finish_named_blank hblank t
      · rw [finish, finish, read_snd_cons]
        simp [endsAttributeName, endsTagName, hblank, hslash, hc, hsign]

theorem finish_signed_cons (hc : c ≠ '>') (t : Text) :
    finish signed (c :: t) = finish (step signed c) t := by
  rw [step]
  by_cases hquote : isQuote c = true
  · have hq : c = '"' ∨ c = '\'' := by simpa [isQuote] using hquote
    rw [if_pos hquote, finish, List.dropWhile_cons_of_neg (by simp [isBlank_of_isQuote hquote]),
      WrittenValue.read, if_pos hq]
    rfl
  · have hq : ¬ (c = '"' ∨ c = '\'') := by simpa [isQuote] using hquote
    rw [if_neg hquote]
    by_cases hblank : isBlank c = true
    · rw [if_pos hblank, finish, List.dropWhile_cons_of_pos hblank, finish]
    · rw [if_neg hblank, finish, List.dropWhile_cons_of_neg hblank, WrittenValue.read, if_neg hq,
        List.dropWhile_cons_of_pos (by simp [hblank, hc])]
      rfl

theorem finish_quoted_cons (quote c : Char) (t : Text) :
    finish (quoted quote) (c :: t) = finish (step (quoted quote) c) t := by
  rw [finish, Text.upTo, step]
  split_ifs
  · rfl
  · rfl

theorem finish_bare_cons (hc : c ≠ '>') (t : Text) :
    finish bare (c :: t) = finish (step bare c) t := by
  rw [step]
  by_cases hblank : isBlank c = true
  · have hstop : (c :: t).dropWhile (fun c => !endsBareValue c) = c :: t :=
      List.dropWhile_cons_of_neg (by simp [endsBareValue, hblank])
    rw [if_pos hblank, finish_bare, hstop, TagPiece.readAll_blank hblank, finish]
  · have hskip : (c :: t).dropWhile (fun c => !endsBareValue c) =
        t.dropWhile (fun c => !endsBareValue c) :=
      List.dropWhile_cons_of_pos (by simp [endsBareValue, hblank, hc])
    rw [if_neg hblank, finish, hskip, finish]

/-- The machine steps as a tag is read. -/
theorem finish_cons (s : TagState) (hc : c ≠ '>') (t : Text) :
    s.finish (c :: t) = (s.step c).finish t := by
  cases s with
  | between => exact finish_between_cons hc t
  | slash => exact finish_slash_cons hc t
  | named => exact finish_named_cons hc t
  | signed => exact finish_signed_cons hc t
  | quoted quote => exact finish_quoted_cons quote c t
  | bare => exact finish_bare_cons hc t

theorem finish_append (s : TagState) {t : Text} (ht : '>' ∉ t) (u : Text) :
    s.finish (t ++ u) = (s.run t).finish u := by
  induction t generalizing s with
  | nil => rfl
  | cons c t ih =>
    obtain ⟨hc, ht⟩ := List.ne_and_not_mem_of_not_mem_cons ht
    rw [List.cons_append, finish_cons s hc.symm, ih _ ht, run_cons]

/-! ## The end of the tag -/

def IsUnquoted : TagState → Prop
  | quoted _ => False
  | _ => True

/-- Whether a `>` ends the tag here, and nothing but ends it. -/
def IsPlain : TagState → Prop
  | quoted _ | slash => False
  | _ => True

theorem finish_close_of_isPlain {s : TagState} (h : s.IsPlain) (t : Text) :
    s.finish ('>' :: t) = (.plain, t) := by
  cases s with
  | slash => cases h
  | quoted quote => cases h
  | between => rw [finish, TagPiece.readAll]
  | named =>
    rw [finish_named_of_not_sign (by simp [isBlank]), finish, TagPiece.readAll]
  | signed =>
    rw [finish, List.dropWhile_cons_of_neg (by decide), WrittenValue.read, if_neg (by decide),
      List.dropWhile_cons_of_neg (by decide), TagPiece.readAll]
  | bare => rw [finish, List.dropWhile_cons_of_neg (by decide), TagPiece.readAll]

theorem finish_slash_close (t : Text) : finish slash ('>' :: t) = (.selfClosing, t) := by
  rw [finish, TagPiece.readAll]

theorem finish_quoted_of_notMem {quote : Char} {t : Text} (h : quote ∉ t) :
    finish (quoted quote) t = (.missing, []) := by
  have hupTo := Text.upTo_append h []
  rw [List.append_nil] at hupTo
  rw [finish, hupTo, Text.upTo, TagPiece.readAll]

theorem finish_close (s : TagState) (t : Text) :
    (s.finish ('>' :: t)).2 = t ∨ ∃ later, s.finish ('>' :: t) = finish later t := by
  cases s with
  | slash => exact .inl (congrArg Prod.snd (finish_slash_close t))
  | between | named | signed | bare =>
    refine .inl (congrArg Prod.snd (finish_close_of_isPlain ?_ t))
    trivial
  | quoted quote => exact .inr ⟨_, finish_quoted_cons quote '>' t⟩

/-- What follows the tag stands at the end of the text. -/
theorem finish_snd_suffix (s : TagState) (t : Text) : (s.finish t).2 <:+ t := by
  induction t generalizing s with
  | nil =>
    cases s <;>
      simp [finish, TagPiece.readAll, WrittenAttribute.read, WrittenValue.read, Text.upTo]
  | cons c t ih =>
    by_cases hc : c = '>'
    · subst hc
      rcases finish_close s t with hrest | ⟨later, hlater⟩
      · rw [hrest]
        exact List.suffix_cons _ _
      · rw [hlater]
        exact (ih later).trans (List.suffix_cons _ _)
    · rw [finish_cons s hc]
      exact (ih _).trans (List.suffix_cons _ _)

/-- The tag ends with the next `>` at the earliest. -/
theorem finish_close_snd_suffix (s : TagState) (t : Text) : (s.finish ('>' :: t)).2 <:+ t := by
  rcases finish_close s t with hrest | ⟨later, hlater⟩
  · rw [hrest]
  · rw [hlater]
    exact finish_snd_suffix later t

theorem isQuote_of_run_eq_quoted {s : TagState} {t : Text} {quote : Char}
    (hs : ∀ q, s = quoted q → isQuote q = true) (h : s.run t = quoted quote) :
    isQuote quote = true := by
  induction t generalizing s with
  | nil => exact hs quote h
  | cons c t ih =>
    refine ih ?_ h
    intro q hq
    cases s with
    | signed =>
      rw [step] at hq
      split_ifs at hq with hquote
      obtain rfl := quoted.inj hq
      exact hquote
    | quoted q' =>
      rw [step] at hq
      split_ifs at hq
      obtain rfl := quoted.inj hq
      exact hs _ rfl
    | between | slash | named | bare =>
      rw [step] at hq
      split_ifs at hq

/-! ## What a text leaves behind -/

/-- Whether a name goes on or can start here. -/
def IsNaming : TagState → Prop
  | between | slash | named => True
  | _ => False

theorem run_quoted {quote : Char} (h : quote ∉ t) : (quoted quote).run t = quoted quote := by
  induction t with
  | nil => rfl
  | cons c t ih =>
    obtain ⟨hc, ht⟩ := List.ne_and_not_mem_of_not_mem_cons h
    rw [run_cons, step, if_neg hc.symm, ih ht]

theorem isUnquoted_step (hs : s.IsUnquoted) (hc : isQuote c = false) : (s.step c).IsUnquoted := by
  cases s with
  | quoted quote => cases hs
  | signed =>
    rw [step, if_neg (by simp [hc])]
    split_ifs <;> trivial
  | between | slash | named | bare =>
    rw [step]
    split_ifs <;> trivial

theorem isUnquoted_run (hs : s.IsUnquoted) (ht : ∀ c ∈ t, isQuote c = false) :
    (s.run t).IsUnquoted := by
  induction t generalizing s with
  | nil => exact hs
  | cons c t ih =>
    rw [List.forall_mem_cons] at ht
    exact ih (isUnquoted_step hs ht.1) ht.2

theorem isNaming_step (hs : s.IsNaming) (hc : c ≠ '=') : (s.step c).IsNaming := by
  cases s with
  | between | slash =>
    rw [step]
    split_ifs <;> trivial
  | named =>
    rw [step, if_neg hc]
    split_ifs <;> trivial
  | signed | quoted | bare => cases hs

theorem isNaming_run (hs : s.IsNaming) (ht : '=' ∉ t) : (s.run t).IsNaming := by
  induction t generalizing s with
  | nil => exact hs
  | cons c t ih =>
    obtain ⟨hc, ht⟩ := List.ne_and_not_mem_of_not_mem_cons ht
    exact ih (isNaming_step hs hc.symm) ht

/-- A text without `=` is the name of an attribute from its last blanks on. -/
theorem run_eq_named (hs : s.IsNaming) (ht : '=' ∉ t) (hnone : t.lastNonblank? ≠ none)
    (hslash : t.lastNonblank? ≠ some '/') : s.run t = named := by
  induction t using List.reverseRecOn with
  | nil => exact absurd rfl hnone
  | append_singleton t c ih =>
    obtain ⟨ht, hsign⟩ : '=' ∉ t ∧ '=' ≠ c := by simpa using ht
    have hnaming := isNaming_run hs ht
    rw [run_concat]
    by_cases hblank : isBlank c = true
    · rw [Text.lastNonblank?_concat_blank hblank] at hnone hslash
      have hne : c ≠ '/' := by
        rintro rfl
        cases hblank
      rw [ih ht hnone hslash, step, if_neg hsign.symm, if_neg hne]
    · rw [Text.lastNonblank?_concat (by simpa using hblank)] at hslash
      have hne : c ≠ '/' := fun hc => hslash (congrArg some hc)
      cases hstate : s.run t with
      | between | slash => rw [step, if_neg hne, if_neg hblank]
      | named => rw [step, if_neg hsign.symm, if_neg hne]
      | signed | quoted | bare =>
        rw [hstate] at hnaming
        cases hnaming

theorem step_eq_signed (h : s.step c = signed) :
    c = '=' ∨ s = signed ∧ isBlank c = true := by
  cases s with
  | signed =>
    rw [step] at h
    split_ifs at h with _ hblank
    exact .inr ⟨rfl, hblank⟩
  | named =>
    rw [step] at h
    split_ifs at h with hsign
    exact .inl hsign
  | between | slash | quoted | bare =>
    rw [step] at h
    split_ifs at h

theorem step_eq_slash (h : s.step c = slash) : c = '/' := by
  cases s with
  | between | slash =>
    rw [step] at h
    split_ifs at h with hslash
    exact hslash
  | named =>
    rw [step] at h
    split_ifs at h with _ hslash
    exact hslash
  | signed | quoted | bare =>
    rw [step] at h
    split_ifs at h

/-- A value is awaited only right behind a `=`, blanks aside. -/
theorem of_run_eq_signed (h : s.run t = signed) :
    t.lastNonblank? = some '=' ∨ t.lastNonblank? = none ∧ s = signed := by
  induction t using List.reverseRecOn with
  | nil => exact .inr ⟨rfl, h⟩
  | append_singleton t c ih =>
    rw [run_concat] at h
    rcases step_eq_signed h with rfl | ⟨hstate, hblank⟩
    · exact .inl (Text.lastNonblank?_concat (by decide) t)
    · rw [Text.lastNonblank?_concat_blank hblank]
      exact ih hstate

theorem getLast?_of_run_eq_slash (h : s.run t = slash) (hne : t ≠ []) : t.getLast? = some '/' := by
  rcases List.eq_nil_or_concat t with rfl | ⟨t, c, rfl⟩
  · exact absurd rfl hne
  · rw [List.concat_eq_append] at h ⊢
    rw [run_concat] at h
    rw [List.getLast?_concat, step_eq_slash h]

end TagState

end Hypertext
