import Hypertext.Indent
import Hypertext.Proofs.Text.Words

/-!
# Lines without their indentation

Stripping replaces the indentation of a template together with the newline before it. It works
line by line: an indentation has no newline of its own, so it is found at the start of a line or
not at all, and what is left of the line is not looked at again.
-/

namespace Hypertext

set_option autoImplicit false

namespace Text

section Replace
variable {first : Char} {later replacement : Text}

theorem replace_append {s : Text} (hs : first ∉ s) (t : Text) :
    replace (first :: later) replacement (s ++ t) =
      s ++ replace (first :: later) replacement t := by
  induction s with
  | nil => rfl
  | cons c s ih =>
    obtain ⟨hc, hs⟩ := List.ne_and_not_mem_of_not_mem_cons hs
    have hnot : ¬ first :: later <+: c :: (s ++ t) := by
      rw [List.cons_prefix_cons]
      exact fun hbegins => hc hbegins.1
    rw [List.cons_append, replace]
    have hstep := @substitute_concat_cons [] _ replacement _ _ rfl hnot
    rw [List.nil_append] at hstep
    rw [hstep, ← replace, ih hs, List.cons_append]

theorem replace_pattern_append (t : Text) :
    replace (first :: later) replacement (first :: (later ++ t)) =
      replacement ++ replace (first :: later) replacement t :=
  @substitute_concat_append [] _ replacement t (List.cons_ne_nil first later) rfl

theorem replace_cons {t : Text} (h : ¬ later <+: t) :
    replace (first :: later) replacement (first :: t) =
      first :: replace (first :: later) replacement t := by
  have hnot : ¬ first :: later <+: first :: t := by
    rw [List.cons_prefix_cons]
    exact fun hbegins => h hbegins.2
  exact @substitute_concat_cons [] _ replacement _ _ rfl hnot

end Replace

/-- The lines of a text, without their newlines; always one more than there are of these. -/
def lines (t : Text) : List Text :=
  t.pieces fun c => c == '\n'

theorem lines_of_notMem {t : Text} (h : '\n' ∉ t) : t.lines = [t] := by
  rw [lines, pieces_eq_splitOnP]
  apply List.splitOnP_eq_singleton
  intro c hc
  rw [beq_eq_false_iff_ne]
  rintro rfl
  exact h hc

theorem lines_append_cons {s : Text} (h : '\n' ∉ s) (t : Text) :
    lines (s ++ '\n' :: t) = s :: t.lines := by
  have hs := lines_of_notMem h
  rw [lines, pieces_eq_splitOnP] at hs ⊢
  rw [List.splitOnP_append_cons s t rfl, hs, lines, pieces_eq_splitOnP, List.singleton_append]

/-- A text is one line, or a line and a text behind its newline. -/
theorem notMem_or_exists_line (t : Text) :
    '\n' ∉ t ∨ ∃ line rest, t = line ++ '\n' :: rest ∧ '\n' ∉ line := by
  by_cases h : '\n' ∈ t
  · exact .inr (List.eq_append_cons_of_mem h)
  · exact .inl h

/-- What has no newline stands on the first line if it stands at the start. -/
theorem lines_append {s : Text} (h : '\n' ∉ s) (t : Text) :
    ∃ line later, t.lines = line :: later ∧ lines (s ++ t) = (s ++ line) :: later := by
  rcases notMem_or_exists_line t with ht | ⟨line, rest, rfl, hline⟩
  · refine ⟨t, [], lines_of_notMem ht, lines_of_notMem ?_⟩
    exact List.not_mem_append h ht
  · refine ⟨line, lines rest, lines_append_cons hline rest, ?_⟩
    rw [← List.append_assoc]
    exact lines_append_cons (List.not_mem_append h hline) rest

theorem prefix_line_iff {s t line : Text} {later : List Text} (h : '\n' ∉ s)
    (ht : t.lines = line :: later) : s <+: line ↔ s <+: t := by
  rcases notMem_or_exists_line t with hone | ⟨first, rest, rfl, hfirst⟩
  · rw [lines_of_notMem hone] at ht
    rw [(List.cons.inj ht).1]
  · rw [lines_append_cons hfirst] at ht
    rw [← (List.cons.inj ht).1, prefix_append_cons_iff h]

end Text

namespace Indent

/-- A line without the indentation, if that is there as a whole. -/
def dedentLine (indent line : Text) : Text :=
  if indent.isPrefixOf line then line.drop indent.length else line

/-- A text in which each line but the first, which began before the text, loses the indentation. -/
def dedent (indent t : Text) : Text :=
  match t.lines with
  | [] => []
  | first :: later => Text.joinWith ['\n'] (first :: later.map (dedentLine indent))

theorem dedentLine_append (indent line : Text) : dedentLine indent (indent ++ line) = line := by
  rw [dedentLine, if_pos (List.isPrefixOf_iff_prefix.mpr (List.prefix_append _ _)), List.drop_left]

theorem dedentLine_eq_self {indent line : Text} (h : ¬ indent <+: line) :
    dedentLine indent line = line := by
  rw [dedentLine, if_neg (mt List.isPrefixOf_iff_prefix.mp h)]

section Dedent
variable {indent : Text}

theorem dedent_of_notMem {t : Text} (h : '\n' ∉ t) : dedent indent t = t := by
  rw [dedent, Text.lines_of_notMem h]
  exact Text.joinWith_singleton ['\n'] t

theorem dedent_append_cons {line : Text} (h : '\n' ∉ line) (rest : Text) :
    dedent indent (line ++ '\n' :: rest) =
      line ++ '\n' :: Text.joinWith ['\n'] (rest.lines.map (dedentLine indent)) := by
  obtain ⟨next, later, hnext, -⟩ := Text.lines_append (List.not_mem_nil (a := '\n')) rest
  rw [dedent, Text.lines_append_cons h, hnext]
  exact Text.joinWith_cons ['\n'] line (List.cons_ne_nil _ _)

variable (hindent : '\n' ∉ indent)
include hindent

/-- Behind a newline the indentation goes, and the rest of its line stays as it is. -/
theorem joinWith_map_dedentLine_append (t : Text) :
    Text.joinWith ['\n'] ((indent ++ t).lines.map (dedentLine indent)) = dedent indent t := by
  obtain ⟨line, later, ht, hwhole⟩ := Text.lines_append hindent t
  rw [hwhole, List.map_cons, dedentLine_append, dedent, ht]

theorem joinWith_map_dedentLine {t : Text} (h : ¬ indent <+: t) :
    Text.joinWith ['\n'] (t.lines.map (dedentLine indent)) = dedent indent t := by
  obtain ⟨line, later, ht, -⟩ := Text.lines_append (List.not_mem_nil (a := '\n')) t
  have hline : ¬ indent <+: line := mt (Text.prefix_line_iff hindent ht).mp h
  rw [dedent, ht, List.map_cons, dedentLine_eq_self hline]

/-- Replacing an indentation and the newline before it everywhere dedents every line. -/
theorem replace_eq_dedent (t : Text) :
    Text.replace ('\n' :: indent) ['\n'] t = dedent indent t := by
  induction hn : t.length using Nat.strong_induction_on generalizing t with
  | _ n ih =>
    rcases Text.notMem_or_exists_line t with hone | ⟨line, rest, rfl, hline⟩
    · have hkept := @Text.replace_append _ indent ['\n'] _ hone []
      rw [List.append_nil] at hkept
      rw [hkept, Text.replace, Text.substitute_nil, List.append_nil, dedent_of_notMem hone]
    · rw [Text.replace_append hline, dedent_append_cons hline]
      rw [List.length_append, List.length_cons] at hn
      by_cases hbegins : indent <+: rest
      · obtain ⟨after, rfl⟩ := hbegins
        rw [List.length_append] at hn
        rw [Text.replace_pattern_append, ih after.length (by omega) after rfl,
          joinWith_map_dedentLine_append hindent, List.singleton_append]
      · rw [Text.replace_cons hbegins, ih rest.length (by omega) rest rfl,
          joinWith_map_dedentLine hindent hbegins]

end Dedent

theorem base?_of_indent {indent r : Text} (hspace : ∀ c ∈ indent, isSpace c = true)
    (hr : ∀ c ∈ r.head?, isSpace c = false) (rest : List Text) :
    base? (('\n' :: (indent ++ r)) :: rest) = some ('\n' :: indent) := by
  rw [base?, Text.takeWhile_append_of_head hspace hr]

theorem trimLast_concat (fragments : List Text) (last : Text) :
    trimLast (fragments ++ [last]) = fragments ++ [last.trimEnd] := by
  induction fragments with
  | nil => rfl
  | cons fragment rest ih =>
    have hne : rest ++ [last] ≠ [] := by simp
    obtain ⟨next, later, hnext⟩ := List.exists_cons_of_ne_nil hne
    rw [List.cons_append, hnext, trimLast, ← hnext, ih, List.cons_append]

/-- Stripping dedents every fragment line by line and then trims the two outer ends, which may
be ends of one fragment. -/
theorem strip_eq_dedent (indent r : Text) (hspace : ∀ c ∈ indent, isSpace c = true)
    (hline : '\n' ∉ indent) (hr : ∀ c ∈ r.head?, isSpace c = false) :
    strip ['\n' :: (indent ++ r)] = [(dedent indent ('\n' :: (indent ++ r))).trimStart.trimEnd] ∧
      ∀ (middle : List Text) (last : Text),
        strip (('\n' :: (indent ++ r)) :: (middle ++ [last])) =
          (dedent indent ('\n' :: (indent ++ r))).trimStart ::
            (middle.map (dedent indent) ++ [(dedent indent last).trimEnd]) := by
  have hreplace : Text.replace ('\n' :: indent) ['\n'] = dedent indent :=
    funext (replace_eq_dedent hline)
  constructor
  · rw [strip, base?_of_indent hspace hr]
    dsimp only
    rw [hreplace]
    rfl
  · intro middle last
    rw [strip, base?_of_indent hspace hr]
    dsimp only
    rw [hreplace, List.map_cons, List.map_append, trimEnds, List.map_singleton, ← List.cons_append,
      trimLast_concat, List.cons_append]

/-- Slots cut two lines, one line is indented less, and one by a no-break space instead. -/
theorem strip_eq_dedent_list :
    strip ["\n  <ul>\n    <li>".toList, "  \n </li>\n\u00a0 \n  ".toList, "</ul>\n  ".toList] =
      ["<ul>\n  <li>".toList, "  \n </li>\n\u00a0 \n".toList, "</ul>".toList] := by
  have hspace : ∀ c ∈ "  ".toList, isSpace c = true := by
    simp [isSpace, isWithin, spaceRanges]
  have hr : ∀ c ∈ "<ul>\n    <li>".toList.head?, isSpace c = false := by
    simp [isSpace, isWithin, spaceRanges]
  have hstrip := (strip_eq_dedent "  ".toList "<ul>\n    <li>".toList hspace (by decide) hr).2
    ["  \n </li>\n\u00a0 \n  ".toList] "</ul>\n  ".toList
  exact hstrip.trans (by cbv)

end Indent

end Hypertext
