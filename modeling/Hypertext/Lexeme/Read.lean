import Hypertext.Lexeme.StartTag
import Hypertext.Lexeme.CloseTag

/-!
# Reading lexemes

Every text is read to its end and nothing is refused: what has no meaning as markup is
text, and what is not closed runs to the end. The main statement is that the lexemes of a
text put together are the text.

Character references are not decoded here, and no error recovery beyond this is done.
-/

namespace Hypertext

set_option autoImplicit false

namespace Lexeme

/-- Whether markup starts here. A `<` before anything else is text. -/
def startsMarkup : Text → Bool
  | '<' :: c :: _ => c == '!' || c == '?' || c == '/' || c.isAlpha
  | _ => false

/-- The text up to the next place where markup starts, and the rest. -/
def readRun : Text → Text × Text
  | [] => ([], [])
  | c :: rest =>
    if startsMarkup (c :: rest) then ([], c :: rest)
    else
      let (run, after) := readRun rest
      (c :: run, after)

/-- A comment behind its `<!--`. A `>` or `->` right there ends it at once. -/
def readComment : Text → Lexeme × Text
  | '>' :: rest => (.comment [] ['>'], rest)
  | '-' :: '>' :: rest => (.comment [] ['-', '>'], rest)
  | s =>
    match Text.cut? "-->" s with
    | some (body, rest) => (.comment body "-->", rest)
    | none => (.comment s [], [])

/-- A declaration behind its `<` and its mark, up to the next `>`. -/
def readDeclaration (mark : Char) (s : Text) : Lexeme × Text :=
  let (body, closed, rest) := Text.upTo '>' s
  (.declaration mark body closed, rest)

/-- An end tag behind its `</`. What follows the name is skipped. -/
def readEndTag (s : Text) : Lexeme × Text :=
  let (skipped, closed, rest) := Text.upTo '>' (s.dropWhile fun c => !endsTagName c)
  (.endTag (s.takeWhile fun c => !endsTagName c) skipped closed, rest)

/-- A start tag behind its `<`, together with its content if that is raw. -/
def readElement (s : Text) : Lexeme × Text :=
  let read := WrittenTag.read s
  if read.1.opensRawText then
    match cutCloseTag? read.1.element read.2 with
    | some (content, close, after) => (.rawText read.1 content close, after)
    | none => (.rawText read.1 read.2 [], [])
  else (.startTag read.1, read.2)

def readMarkup : Text → Lexeme × Text
  | '!' :: '-' :: '-' :: s => readComment s
  | '!' :: s => readDeclaration '!' s
  | '?' :: s => readDeclaration '?' s
  | '/' :: s => readEndTag s
  | s => readElement s

/-- The first lexeme of a text and the rest; only the empty text has none. -/
def read? : Text → Option (Lexeme × Text)
  | [] => none
  | c :: s =>
    if startsMarkup (c :: s) then some (readMarkup s)
    else some (.text (c :: (readRun s).1), (readRun s).2)

theorem readComment_eq_cut? {s : Text} (hclose : ∀ rest, s ≠ '>' :: rest)
    (harrow : ∀ rest, s ≠ '-' :: '>' :: rest) :
    readComment s =
      match Text.cut? "-->" s with
      | some (body, rest) => (.comment body "-->", rest)
      | none => (.comment s [], []) := by
  rw [readComment]
  · exact hclose
  · exact harrow

theorem readMarkup_bang {s : Text} (h : ∀ rest, s ≠ '-' :: '-' :: rest) :
    readMarkup ('!' :: s) = readDeclaration '!' s := by
  rw [readMarkup]
  exact h

theorem readMarkup_eq_readElement {c : Char} (hbang : c ≠ '!') (hquery : c ≠ '?')
    (hslash : c ≠ '/') (s : Text) : readMarkup (c :: s) = readElement (c :: s) := by
  unfold readMarkup
  split
  · next heq => exact absurd (List.cons.inj heq).1 hbang
  · next heq => exact absurd (List.cons.inj heq).1 hbang
  · next heq => exact absurd (List.cons.inj heq).1 hquery
  · next heq => exact absurd (List.cons.inj heq).1 hslash
  · rfl

theorem read?_eq_none_iff {s : Text} : read? s = none ↔ s = [] := by
  constructor
  · intro h
    cases s with
    | nil => rfl
    | cons c s =>
      rw [read?] at h
      split at h
      · cases h
      · cases h
  · rintro rfl
    rfl

theorem append_readRun (s : Text) : (readRun s).1 ++ (readRun s).2 = s := by
  induction s with
  | nil => rfl
  | cons c rest ih =>
    rw [readRun]
    split
    · rfl
    · simp [ih]

theorem source_readComment (s : Text) :
    (readComment s).1.source ++ (readComment s).2 = '<' :: '!' :: '-' :: '-' :: s := by
  unfold readComment
  split
  · simp [source]
  · simp [source]
  · split
    · next body rest hcut =>
      have := Text.eq_of_cut?_eq_some hcut
      simp_all [source]
    · simp [source]

theorem source_readDeclaration (mark : Char) (s : Text) :
    (readDeclaration mark s).1.source ++ (readDeclaration mark s).2 = '<' :: mark :: s := by
  simp [readDeclaration, source, Text.upTo_eq]

theorem source_readEndTag (s : Text) :
    (readEndTag s).1.source ++ (readEndTag s).2 = '<' :: '/' :: s := by
  simp [readEndTag, source, Text.upTo_eq]

theorem source_readElement (s : Text) :
    (readElement s).1.source ++ (readElement s).2 = '<' :: s := by
  have htag := WrittenTag.source_read s
  rw [readElement]
  split
  · split
    · next content close after hcut =>
      have := eq_of_cutCloseTag?_eq_some hcut
      simp only [source, List.append_assoc, this, htag]
    · simp only [source, List.append_nil, htag]
  · simpa only [source] using htag

theorem source_readMarkup (s : Text) :
    (readMarkup s).1.source ++ (readMarkup s).2 = '<' :: s := by
  unfold readMarkup
  split
  · exact source_readComment _
  · exact source_readDeclaration '!' _
  · exact source_readDeclaration '?' _
  · exact source_readEndTag _
  · exact source_readElement _

theorem source_readMarkup_ne_nil (s : Text) : (readMarkup s).1.source ≠ [] := by
  unfold readMarkup
  split
  · unfold readComment
    split
    · simp [source]
    · simp [source]
    · split <;> simp [source]
  · simp [readDeclaration, source]
  · simp [readDeclaration, source]
  · simp [readEndTag, source]
  · rw [readElement]
    split
    · split <;> simp [source, WrittenTag.source]
    · simp [source, WrittenTag.source]

theorem eq_of_startsMarkup {c : Char} {s : Text} (h : startsMarkup (c :: s) = true) : c = '<' := by
  unfold startsMarkup at h
  split at h
  · next heq => exact (List.cons.inj heq).1
  · simp at h

/-- Nothing is lost and nothing is made up. -/
theorem source_append_of_read?_eq_some {s rest : Text} {lexeme : Lexeme}
    (h : read? s = some (lexeme, rest)) : lexeme.source ++ rest = s := by
  unfold read? at h
  split at h
  · simp at h
  · next c s =>
    split at h
    · next hstart =>
      obtain rfl := eq_of_startsMarkup hstart
      have hsource := source_readMarkup s
      rw [Option.some.inj h] at hsource
      exact hsource
    · have happend := append_readRun s
      simp only [Option.some.injEq, Prod.mk.injEq] at h
      obtain ⟨rfl, rfl⟩ := h
      simp [source, happend]

theorem source_ne_nil_of_read?_eq_some {s rest : Text} {lexeme : Lexeme}
    (h : read? s = some (lexeme, rest)) : lexeme.source ≠ [] := by
  unfold read? at h
  split at h
  · simp at h
  · next c s =>
    split at h
    · have hsource := source_readMarkup_ne_nil s
      rw [Option.some.inj h] at hsource
      exact hsource
    · simp only [Option.some.injEq, Prod.mk.injEq] at h
      simp [← h.1, source]

theorem length_lt_of_read?_eq_some {s rest : Text} {lexeme : Lexeme}
    (h : read? s = some (lexeme, rest)) : rest.length < s.length := by
  have hlength := congrArg List.length (source_append_of_read?_eq_some h)
  have hpos := List.length_pos_iff.mpr (source_ne_nil_of_read?_eq_some h)
  rw [List.length_append] at hlength
  omega

def readAll (s : Text) : List Lexeme :=
  match _h : read? s with
  | none => []
  | some (lexeme, rest) => lexeme :: readAll rest
termination_by s.length
decreasing_by exact length_lt_of_read?_eq_some _h

theorem flatMap_source_readAll (s : Text) : (readAll s).flatMap source = s := by
  fun_induction readAll s with
  | case1 s h => rw [read?_eq_none_iff.mp h, List.flatMap_nil]
  | case2 s lexeme rest h ih =>
    rw [List.flatMap_cons, ih]
    exact source_append_of_read?_eq_some h

end Lexeme

end Hypertext
