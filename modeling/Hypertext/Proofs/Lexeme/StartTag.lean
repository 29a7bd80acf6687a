import Hypertext.Lexeme.StartTag
import Hypertext.Proofs.Text.Basic

/-!
# Start tags are read as written

A written start tag is legible when each of its pieces is what reading makes of its text
before the text behind it. Whatever is read is legible, and a legible tag with an end is
read back in front of any text.
-/

namespace Hypertext

set_option autoImplicit false

def endsBareValue (c : Char) : Bool :=
  isBlank c || c == '>'

def isQuote (c : Char) : Bool :=
  c == '"' || c == '\''

/-- A quoted value without its closing quote runs to the end of the text, and an empty bare
value stands right before the end of its tag. -/
def WrittenValue.LegibleBefore (following : Text) : WrittenValue → Prop
  | .quoted quote body closed =>
    isQuote quote = true ∧ quote ∉ body ∧ (closed = false → following = [])
  | .bare body =>
    (∀ c ∈ body, endsBareValue c = false) ∧ (∀ c ∈ body.head?, isQuote c = false) ∧
      (∀ c ∈ following.head?, endsBareValue c = true) ∧
      (body = [] → ∀ c ∈ following.head?, c = '>')

def Assignment.LegibleBefore (following : Text) (a : Assignment) : Prop :=
  (∀ c ∈ a.before, isBlank c = true) ∧ (∀ c ∈ a.after, isBlank c = true) ∧
    a.value.LegibleBefore following

/-- The first character of a name may be `=`, the later ones may not. Behind a name without a
value no `=` follows, not even after blanks. -/
def WrittenAttribute.LegibleBefore (following : Text) (a : WrittenAttribute) : Prop :=
  (∃ c rest, a.name = c :: rest ∧ endsTagName c = false ∧
    ∀ d ∈ rest, endsAttributeName d = false) ∧
  match a.assignment with
  | none => (∀ c ∈ following.head?, endsAttributeName c = true) ∧
      (following.dropWhile isBlank).head? ≠ some '='
  | some assignment => assignment.LegibleBefore following

namespace TagPiece

def writtenAll (pieces : List TagPiece) (ending : TagEnding) : Text :=
  pieces.flatMap source ++ ending.source

def Legible (ending : TagEnding) : List TagPiece → Prop
  | [] => True
  | .blank c :: rest => isBlank c = true ∧ Legible ending rest
  | .slash :: rest => (writtenAll rest ending).head? ≠ some '>' ∧ Legible ending rest
  | .attr a :: rest => a.LegibleBefore (writtenAll rest ending) ∧ Legible ending rest

end TagPiece

structure WrittenTag.Legible (tag : WrittenTag) : Prop where
  name_isAlpha : ∀ c ∈ tag.name.head?, c.isAlpha = true
  name_ne_nil : tag.name ≠ []
  not_endsTagName : ∀ c ∈ tag.name, endsTagName c = false
  name_ends : ∀ c ∈ (TagPiece.writtenAll tag.pieces tag.ending).head?, endsTagName c = true
  pieces : TagPiece.Legible tag.ending tag.pieces

/-! ## Attributes -/

theorem not_isBlank_of_not_endsTagName {c : Char} (h : endsTagName c = false) :
    isBlank c = false ∧ c ≠ '/' ∧ c ≠ '>' := by
  simpa [endsTagName, and_assoc] using h

theorem isBlank_of_isQuote {c : Char} (h : isQuote c = true) : isBlank c = false := by
  simp only [isQuote, Bool.or_eq_true, beq_iff_eq] at h
  rcases h with rfl | rfl <;> decide

theorem WrittenValue.read_source_append {v : WrittenValue} {following : Text}
    (h : v.LegibleBefore following) : read (v.source ++ following) = (v, following) := by
  cases v with
  | quoted quote body closed =>
    obtain ⟨hquote, hbody, hclosed⟩ := h
    have hq : quote = '"' ∨ quote = '\'' := by simpa [isQuote] using hquote
    cases closed with
    | true =>
      simp [source, Text.closing, read, hq, Text.upTo_append_cons hbody]
    | false =>
      have hupTo := Text.upTo_append hbody []
      simp only [List.append_nil, Text.upTo] at hupTo
      simp [source, Text.closing, read, hq, hclosed rfl, hupTo]
  | bare body =>
    obtain ⟨hbody, hquote, hends, -⟩ := h
    have hstart : ∀ c ∈ (body ++ following).head?, ¬ (c = '"' ∨ c = '\'') := by
      intro c hc
      cases body with
      | nil =>
        have hend := hends c hc
        rintro (rfl | rfl) <;> revert hend <;> decide
      | cons d body =>
        have hd := hquote d rfl
        obtain rfl : d = c := by simpa using hc
        simpa [isQuote] using hd
    have htake := Text.takeWhile_append_of_head (p := fun d => !endsBareValue d) (s := body)
      (t := following) (by simpa using hbody) (by simpa using hends)
    have hdrop := Text.dropWhile_append_of_head (p := fun d => !endsBareValue d) (s := body)
      (t := following) (by simpa using hbody) (by simpa using hends)
    rw [source]
    cases hwhole : body ++ following with
    | nil =>
      obtain ⟨rfl, rfl⟩ := List.append_eq_nil_iff.mp hwhole
      rfl
    | cons c rest =>
      rw [hwhole] at htake hdrop hstart
      rw [read, if_neg (hstart c rfl)]
      exact Prod.ext (congrArg bare htake) hdrop

theorem WrittenValue.legibleBefore_read {text : Text}
    (h : ∀ c ∈ text.head?, isBlank c = false) :
    (read text).1.LegibleBefore (read text).2 := by
  cases text with
  | nil => simp [read, LegibleBefore]
  | cons c rest =>
    rw [read]
    split
    · next hq =>
      refine ⟨by simpa [isQuote] using hq, Text.notMem_upTo rest, ?_⟩
      exact Text.upTo_not_found rest
    · next hq =>
      change LegibleBefore ((c :: rest).dropWhile fun d => !endsBareValue d)
        (.bare ((c :: rest).takeWhile fun d => !endsBareValue d))
      refine ⟨?_, ?_, ?_, ?_⟩
      · intro d hd
        simpa using List.mem_takeWhile_imp hd
      · intro d hd
        by_cases hc : endsBareValue c = true
        · simp [hc] at hd
        · rw [List.takeWhile_cons_of_pos (by simpa using hc)] at hd
          obtain rfl : c = d := by simpa using hd
          simpa [isQuote] using hq
      · intro d hd
        simpa using Text.of_mem_head?_dropWhile hd
      · intro hnil d hd
        have hc : endsBareValue c = true := by
          by_cases hc : endsBareValue c = true
          · exact hc
          · rw [List.takeWhile_cons_of_pos (by simpa using hc)] at hnil
            cases hnil
        rw [List.dropWhile_cons_of_neg (by simpa using hc)] at hd
        obtain rfl : c = d := by simpa using hd
        simpa [endsBareValue, h c rfl] using hc

/-- Text put behind what follows makes no difference, unless that is blank throughout. -/
theorem WrittenValue.legibleBefore_append {v : WrittenValue} {x : Text} (hx : x ≠ []) (t : Text) :
    v.LegibleBefore (x ++ t) ↔ v.LegibleBefore x := by
  obtain ⟨c, rest, rfl⟩ := List.exists_cons_of_ne_nil hx
  cases v <;> simp [LegibleBefore]

theorem WrittenAttribute.legibleBefore_append {a : WrittenAttribute} {x : Text}
    (hx : ∃ c ∈ x, isBlank c = false) (t : Text) :
    a.LegibleBefore (x ++ t) ↔ a.LegibleBefore x := by
  have hhead := Text.head?_dropWhile_append (t := t) hx
  obtain ⟨c, hc, -⟩ := hx
  have hne := List.ne_nil_of_mem hc
  cases ha : a.assignment with
  | none =>
    obtain ⟨d, rest, rfl⟩ := List.exists_cons_of_ne_nil hne
    simp only [LegibleBefore, ha, hhead]
    rfl
  | some assignment =>
    simp only [LegibleBefore, ha, Assignment.LegibleBefore,
      WrittenValue.legibleBefore_append hne t]

theorem WrittenAttribute.source_ne_nil {a : WrittenAttribute} {following : Text}
    (h : a.LegibleBefore following) : a.source ≠ [] := by
  obtain ⟨⟨c, rest, hname, -⟩, -⟩ := h
  simp [source, hname]

theorem WrittenValue.head?_source_append {v : WrittenValue} {following : Text}
    (h : v.LegibleBefore following) : ∀ c ∈ (v.source ++ following).head?, isBlank c = false := by
  intro c hc
  cases v with
  | quoted quote body closed =>
    obtain rfl : quote = c := by simpa [source] using hc
    exact isBlank_of_isQuote h.1
  | bare body =>
    obtain ⟨hbody, -, -, hnil⟩ := h
    cases body with
    | nil =>
      obtain rfl := hnil rfl c hc
      decide
    | cons d body =>
      obtain rfl : d = c := by simpa [source] using hc
      have := hbody d List.mem_cons_self
      simp_all [endsBareValue]

theorem of_not_endsAttributeName {c : Char} (h : endsAttributeName c = false) :
    endsTagName c = false ∧ c ≠ '=' := by
  simpa [endsAttributeName] using h

theorem WrittenAttribute.read_source_append {a : WrittenAttribute} {following : Text} {c : Char}
    {rest : Text} (h : a.LegibleBefore following) (hsource : a.source = c :: rest) :
    read c (rest ++ following) = (a, following) := by
  obtain ⟨⟨first, name, hname, -, hlater⟩, hvalue⟩ := h
  obtain ⟨written, assignment⟩ := a
  simp only at hname hvalue
  subst hname
  cases assignment with
  | none =>
    obtain ⟨hends, hsign⟩ := hvalue
    obtain ⟨rfl, rfl⟩ : first = c ∧ name = rest := by simpa [source] using hsource
    have htake := Text.takeWhile_append_of_head (p := fun c => !endsAttributeName c) (s := name)
      (t := following) (by simpa using hlater) (by simpa using hends)
    have hdrop := Text.dropWhile_append_of_head (p := fun c => !endsAttributeName c) (s := name)
      (t := following) (by simpa using hlater) (by simpa using hends)
    rw [read]
    dsimp only
    rw [htake, hdrop]
    split
    · next heq => simp [heq] at hsign
    · rfl
  | some assignment =>
    obtain ⟨before, after, value⟩ := assignment
    obtain ⟨hbefore, hafter, hvalue⟩ := hvalue
    simp only at hbefore hafter hvalue
    obtain ⟨rfl, rfl⟩ : first = c ∧
        name ++ (before ++ '=' :: (after ++ value.source)) = rest := by
      simpa [source, Assignment.source] using hsource
    have hends : ∀ d ∈ (before ++ '=' :: (after ++ (value.source ++ following))).head?,
        endsAttributeName d = true := by
      intro d hd
      cases before with
      | nil =>
        obtain rfl : '=' = d := by simpa using hd
        decide
      | cons b before =>
        obtain rfl : b = d := by simpa using hd
        simp [endsAttributeName, endsTagName, hbefore b List.mem_cons_self]
    have hname : ∀ d ∈ name, (!endsAttributeName d) = true := by simpa using hlater
    have hend : ∀ d ∈ (before ++ '=' :: (after ++ (value.source ++ following))).head?,
        (!endsAttributeName d) = false := fun d hd => by simp [hends d hd]
    have hsign : ∀ d ∈ ('=' :: (after ++ (value.source ++ following))).head?,
        isBlank d = false := by
      intro d hd
      obtain rfl : '=' = d := by simpa using hd
      decide
    have hstart := WrittenValue.head?_source_append hvalue
    simp only [List.append_assoc, List.cons_append]
    rw [read]
    dsimp only
    rw [Text.takeWhile_append_of_head hname hend, Text.dropWhile_append_of_head hname hend,
      Text.dropWhile_append_of_head hbefore hsign,
      Text.takeWhile_append_of_head hbefore hsign]
    simp only [Text.dropWhile_append_of_head hafter hstart,
      Text.takeWhile_append_of_head hafter hstart, WrittenValue.read_source_append hvalue]

theorem WrittenAttribute.legibleBefore_read {c : Char} (h : endsTagName c = false) (text : Text) :
    (read c text).1.LegibleBefore (read c text).2 := by
  have hname : ∃ d rest, (c :: text.takeWhile fun c => !endsAttributeName c) = d :: rest ∧
      endsTagName d = false ∧ ∀ e ∈ rest, endsAttributeName e = false := by
    refine ⟨c, _, rfl, h, ?_⟩
    intro e he
    simpa using List.mem_takeWhile_imp he
  rw [read]
  dsimp only
  split
  · refine ⟨hname, ?_, ?_, ?_⟩
    · exact fun d hd => List.mem_takeWhile_imp hd
    · exact fun d hd => List.mem_takeWhile_imp hd
    · exact WrittenValue.legibleBefore_read fun d hd => Text.of_mem_head?_dropWhile hd
  · next hsign =>
    refine ⟨hname, ?_, ?_⟩
    · intro d hd
      simpa using Text.of_mem_head?_dropWhile hd
    · intro hhead
      obtain ⟨rest, hrest⟩ := List.head?_eq_some_iff.mp hhead
      exact hsign rest hrest

/-! ## Pieces -/

namespace TagPiece

theorem readAll_slash {text : Text} (h : text.head? ≠ some '>') :
    readAll ('/' :: text) = (.slash :: (readAll text).1, (readAll text).2) := by
  rw [readAll_cons (by decide) fun _ => h, if_pos rfl]

theorem readAll_blank {c : Char} (h : isBlank c = true) (text : Text) :
    readAll (c :: text) = (.blank c :: (readAll text).1, (readAll text).2) := by
  have hslash : c ≠ '/' := by
    rintro rfl
    revert h
    decide
  have hend : c ≠ '>' := by
    rintro rfl
    revert h
    decide
  rw [readAll_cons hend fun hc => absurd hc hslash, if_neg hslash, if_pos h]

theorem readAll_attr {c : Char} (h : endsTagName c = false) (text : Text) :
    readAll (c :: text) = (.attr (WrittenAttribute.read c text).1 ::
      (readAll (WrittenAttribute.read c text).2).1,
      (readAll (WrittenAttribute.read c text).2).2) := by
  obtain ⟨hblank, hslash, hend⟩ := not_isBlank_of_not_endsTagName h
  rw [readAll_cons hend fun hc => absurd hc hslash, if_neg hslash,
    if_neg (Bool.eq_false_iff.mp hblank)]

theorem exists_not_blank (pieces : List TagPiece) {ending : TagEnding} (h : ending ≠ .missing) :
    ∃ c ∈ writtenAll pieces ending, isBlank c = false := by
  cases ending with
  | plain => exact ⟨'>', by simp [writtenAll, TagEnding.source], by decide⟩
  | selfClosing => exact ⟨'>', by simp [writtenAll, TagEnding.source], by decide⟩
  | missing => exact absurd rfl h

theorem writtenAll_cons (piece : TagPiece) (pieces : List TagPiece) (ending : TagEnding) :
    writtenAll (piece :: pieces) ending = piece.source ++ writtenAll pieces ending := by
  simp [writtenAll]

theorem head?_writtenAll_append (pieces : List TagPiece) {ending : TagEnding}
    (h : ending ≠ .missing) (t : Text) :
    (writtenAll pieces ending ++ t).head? = (writtenAll pieces ending).head? := by
  obtain ⟨c, hc, -⟩ := exists_not_blank pieces h
  obtain ⟨d, rest, hd⟩ := List.exists_cons_of_ne_nil (List.ne_nil_of_mem hc)
  simp [hd]

/-- Legible pieces are read back, whatever stands behind the end of their tag. -/
theorem readAll_writtenAll_append {pieces : List TagPiece} {ending : TagEnding}
    (hending : ending ≠ .missing) (h : Legible ending pieces) (t : Text) :
    readAll (writtenAll pieces ending ++ t) = (pieces, ending, t) := by
  induction pieces with
  | nil =>
    cases ending with
    | plain => simp [writtenAll, TagEnding.source, readAll]
    | selfClosing => simp [writtenAll, TagEnding.source, readAll]
    | missing => exact absurd rfl hending
  | cons piece rest ih =>
    rw [writtenAll_cons, List.append_assoc]
    cases piece with
    | blank c =>
      obtain ⟨hblank, hrest⟩ := h
      simp only [source, List.singleton_append, readAll_blank hblank, ih hrest]
    | slash =>
      obtain ⟨hnext, hrest⟩ := h
      rw [← head?_writtenAll_append rest hending t] at hnext
      simp only [source, List.singleton_append, readAll_slash hnext, ih hrest]
    | attr a =>
      obtain ⟨ha, hrest⟩ := h
      have hbefore : a.LegibleBefore (writtenAll rest ending ++ t) :=
        (WrittenAttribute.legibleBefore_append (exists_not_blank rest hending) t).mpr ha
      obtain ⟨c, name, hsource⟩ := List.exists_cons_of_ne_nil (WrittenAttribute.source_ne_nil ha)
      obtain ⟨⟨d, later, hname, hd, -⟩, -⟩ := ha
      obtain rfl : c = d := by
        rw [WrittenAttribute.source, hname] at hsource
        exact (List.cons.inj hsource).1.symm
      simp only [source, hsource, List.cons_append, readAll_attr hd,
        WrittenAttribute.read_source_append hbefore hsource, ih hrest]

/-- What is read is legible, and only at the end of the text an end is missing. -/
theorem legible_readAll (text : Text) :
    Legible (readAll text).2.1 (readAll text).1 ∧
      ((readAll text).2.1 = .missing → (readAll text).2.2 = []) := by
  fun_induction readAll text with
  | case1 => simp [Legible]
  | case2 => simp [Legible]
  | case3 => simp [Legible]
  | case4 rest pieces ending after heq hend hnext ih =>
    have hrest := source_readAll rest
    simp only [heq] at ih hrest
    obtain ⟨hlegible, hmissing⟩ := ih
    refine ⟨⟨?_, hlegible⟩, hmissing⟩
    intro hhead
    obtain ⟨tail, htail⟩ := List.head?_eq_some_iff.mp hhead
    rw [writtenAll] at htail
    apply hnext (tail ++ after) rfl
    rw [← hrest, ← List.append_assoc, htail]
    rfl
  | case5 c rest hend hnext hslash hblank pieces ending after heq ih =>
    have hrest := source_readAll rest
    simp only [heq] at ih hrest
    obtain ⟨hlegible, hmissing⟩ := ih
    exact ⟨⟨hblank, hlegible⟩, hmissing⟩
  | case6 c rest hend hnext hslash hblank pieces ending after heq ih =>
    have hrest := source_readAll (WrittenAttribute.read c rest).2
    simp only [heq] at ih hrest
    obtain ⟨hlegible, hmissing⟩ := ih
    have hgt : c ≠ '>' := hend
    have hname : endsTagName c = false := by simp [endsTagName, hgt, hslash, hblank]
    have ha := WrittenAttribute.legibleBefore_read hname rest
    refine ⟨⟨?_, hlegible⟩, hmissing⟩
    rw [← hrest, ← List.append_assoc] at ha
    by_cases hending : ending = .missing
    · simpa [writtenAll, hmissing hending] using ha
    · exact (WrittenAttribute.legibleBefore_append (exists_not_blank pieces hending) after).mp ha

end TagPiece

/-! ## Tags -/

theorem WrittenTag.source_eq (tag : WrittenTag) :
    tag.source = '<' :: (tag.name ++ TagPiece.writtenAll tag.pieces tag.ending) := rfl

theorem WrittenTag.read_append {tag : WrittenTag} (h : tag.Legible)
    (hending : tag.ending ≠ .missing) (t : Text) :
    read (tag.name ++ (TagPiece.writtenAll tag.pieces tag.ending ++ t)) = (tag, t) := by
  have hname : ∀ c ∈ tag.name, (!endsTagName c) = true := by
    simpa using h.not_endsTagName
  have hends : ∀ c ∈ (TagPiece.writtenAll tag.pieces tag.ending ++ t).head?,
      (!endsTagName c) = false := by
    rw [TagPiece.head?_writtenAll_append _ hending]
    simpa using h.name_ends
  rw [read, Text.takeWhile_append_of_head hname hends, Text.dropWhile_append_of_head hname hends,
    TagPiece.readAll_writtenAll_append hending h.pieces]

theorem not_endsTagName_of_isAlpha {c : Char} (h : c.isAlpha = true) : endsTagName c = false := by
  by_contra hne
  have hends : endsTagName c = true := by simpa using hne
  simp only [endsTagName, isBlank, Bool.or_eq_true, beq_iff_eq] at hends
  rcases hends with (((((rfl | rfl) | rfl) | rfl) | rfl) | rfl) | rfl <;> revert h <;> decide

theorem WrittenTag.legible_read {c : Char} (h : c.isAlpha = true) (text : Text) :
    (read (c :: text)).1.Legible := by
  have hc := not_endsTagName_of_isAlpha h
  have hlegible := TagPiece.legible_readAll ((c :: text).dropWhile fun c => !endsTagName c)
  have hsource := TagPiece.source_readAll ((c :: text).dropWhile fun c => !endsTagName c)
  have hname : ((c :: text).takeWhile fun c => !endsTagName c) =
      c :: text.takeWhile fun c => !endsTagName c :=
    List.takeWhile_cons_of_pos (by simp [hc])
  constructor
  · intro d hd
    rw [read, hname] at hd
    obtain rfl : c = d := by simpa using hd
    exact h
  · rw [read, hname]
    exact List.cons_ne_nil _ _
  · intro d hd
    simpa using List.mem_takeWhile_imp hd
  · intro d hd
    obtain ⟨tail, htail⟩ := List.head?_eq_some_iff.mp hd
    rw [← List.append_assoc] at hsource
    have hmem : d ∈ ((c :: text).dropWhile fun c => !endsTagName c).head? := by
      rw [← hsource]
      change (_ ++ _ : Text).head? = some d
      simp only [read] at htail
      rw [TagPiece.writtenAll] at htail
      rw [htail]
      rfl
    simpa using Text.of_mem_head?_dropWhile hmem
  · exact hlegible.1

end Hypertext
