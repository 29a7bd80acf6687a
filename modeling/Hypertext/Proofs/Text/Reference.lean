import Hypertext.Text.Reference
import Hypertext.Proofs.Text.Basic

/-!
# Laws of character references

Decoding one reference after the other is one pass over the text: what a reference means
occurs in no later one, so no pass completes or breaks a match of the next. Read in one
pass, an escaped text is the text again.
-/

namespace Hypertext.Text

set_option autoImplicit false

/-! ## One pass -/

/-- A pattern starts with `&` and has none behind it, so occurrences never overlap. -/
def IsPattern (pattern : Text) : Prop :=
  pattern.head? = some '&' ∧ '&' ∉ pattern.tail

instance (pattern : Text) : Decidable (IsPattern pattern) :=
  inferInstanceAs (Decidable (_ ∧ _))

/-- What is written for the first entry neither begins nor continues the pattern of the second. -/
def Apart (entry later : Text × Text) : Prop :=
  entry.2.length = 1 ∧ '&' ∉ entry.2 ∧ ∀ c ∈ entry.2, c ∉ later.1

instance (entry later : Text × Text) : Decidable (Apart entry later) :=
  inferInstanceAs (Decidable (_ ∧ _ ∧ _))

theorem IsPattern.exists_name {pattern : Text} (h : IsPattern pattern) :
    ∃ name, pattern = '&' :: name ∧ '&' ∉ name := by
  obtain ⟨name, rfl⟩ := List.head?_eq_some_iff.mp h.1
  exact ⟨name, rfl, h.2⟩

theorem prefix_append_cons_iff {word : Text} {c : Char} (h : c ∉ word) (s t : Text) :
    word <+: s ++ c :: t ↔ word <+: s := by
  induction s generalizing word with
  | nil =>
    cases word with
    | nil => simp
    | cons d word =>
      obtain ⟨hd, -⟩ := List.ne_and_not_mem_of_not_mem_cons h
      simp [hd.symm]
  | cons e s ih =>
    cases word with
    | nil => simp
    | cons d word =>
      obtain ⟨-, hrest⟩ := List.ne_and_not_mem_of_not_mem_cons h
      rw [List.cons_append, List.cons_prefix_cons, List.cons_prefix_cons, ih hrest]

section Pass
variable {table : List (Text × Text)}

theorem substitute_nil : substitute table [] = [] := by
  rw [substitute]

theorem substitute_empty (t : Text) : substitute [] t = t := by
  induction t with
  | nil => rw [substitute]
  | cons c t ih => rw [substitute, List.find?_nil, ih]

theorem substitute_of_find? {c : Char} {rest pattern replacement : Text}
    (h : table.find? (fun entry => entry.1.isPrefixOf (c :: rest)) = some (pattern, replacement)) :
    substitute table (c :: rest) =
      replacement ++ substitute table (rest.drop (pattern.length - 1)) := by
  rw [substitute, h]

theorem substitute_of_find?_eq_none {c : Char} {rest : Text}
    (h : table.find? (fun entry => entry.1.isPrefixOf (c :: rest)) = none) :
    substitute table (c :: rest) = c :: substitute table rest := by
  rw [substitute, h]

theorem append_drop_of_find? {c : Char} {rest pattern replacement : Text} (hne : pattern ≠ [])
    (h : table.find? (fun entry => entry.1.isPrefixOf (c :: rest)) = some (pattern, replacement)) :
    pattern ++ rest.drop (pattern.length - 1) = c :: rest := by
  obtain ⟨d, name, rfl⟩ := List.exists_cons_of_ne_nil hne
  have hbegins := List.find?_some h
  obtain ⟨tail, htail⟩ := List.isPrefixOf_iff_prefix.mp hbegins
  obtain ⟨-, hrest⟩ := List.cons.inj htail
  rw [← htail, ← hrest, List.length_cons, Nat.add_sub_cancel]
  exact congrArg (d :: name ++ ·) List.drop_left

section Last
variable {pattern replacement : Text}

/-- Where no other entry of a table is found, its last one is decisive. -/
theorem substitute_concat_append {t : Text} (hne : pattern ≠ [])
    (h : table.find? (fun entry => entry.1.isPrefixOf (pattern ++ t)) = none) :
    substitute (table ++ [(pattern, replacement)]) (pattern ++ t) =
      replacement ++ substitute (table ++ [(pattern, replacement)]) t := by
  obtain ⟨c, name, rfl⟩ := List.exists_cons_of_ne_nil hne
  have hfind : (table ++ [(c :: name, replacement)]).find?
      (fun entry => entry.1.isPrefixOf (c :: (name ++ t))) = some (c :: name, replacement) := by
    rw [List.find?_append, ← List.cons_append, h]
    simp
  rw [List.cons_append, substitute_of_find? hfind, List.length_cons, Nat.add_sub_cancel,
    List.drop_left]

theorem substitute_concat_cons {c : Char} {rest : Text}
    (h : table.find? (fun entry => entry.1.isPrefixOf (c :: rest)) = none)
    (hnot : ¬ pattern <+: c :: rest) :
    substitute (table ++ [(pattern, replacement)]) (c :: rest) =
      c :: substitute (table ++ [(pattern, replacement)]) rest := by
  have hfind : (table ++ [(pattern, replacement)]).find?
      (fun entry => entry.1.isPrefixOf (c :: rest)) = none := by
    rw [List.find?_append, h]
    simpa using hnot
  exact substitute_of_find?_eq_none hfind

end Last

variable (hpattern : ∀ entry ∈ table, IsPattern entry.1)
include hpattern

theorem find?_eq_none_of_ne {c : Char} (hc : c ≠ '&') (rest : Text) :
    table.find? (fun entry => entry.1.isPrefixOf (c :: rest)) = none := by
  apply List.find?_eq_none.mpr
  intro entry hentry hbegins
  obtain ⟨name, hname, -⟩ := (hpattern entry hentry).exists_name
  rw [hname, List.isPrefixOf_iff_prefix, List.cons_prefix_cons] at hbegins
  exact hc hbegins.1.symm

theorem substitute_append {s : Text} (hs : '&' ∉ s) (t : Text) :
    substitute table (s ++ t) = s ++ substitute table t := by
  induction s with
  | nil => rfl
  | cons c s ih =>
    obtain ⟨hc, hs⟩ := List.ne_and_not_mem_of_not_mem_cons hs
    rw [List.cons_append, substitute_of_find?_eq_none (find?_eq_none_of_ne hpattern hc.symm _),
      ih hs, List.cons_append]

/-- Replacing starts afresh behind a character that no pattern has. -/
theorem substitute_append_cons {c : Char} (hc : ∀ entry ∈ table, c ∉ entry.1) (s t : Text) :
    substitute table (s ++ c :: t) = substitute table s ++ c :: substitute table t := by
  have hfind : ∀ d u, table.find? (fun entry => entry.1.isPrefixOf (d :: (u ++ c :: t))) =
      table.find? (fun entry => entry.1.isPrefixOf (d :: u)) := by
    intro d u
    apply List.find?_congr
    intro entry hentry
    rw [Bool.eq_iff_iff, List.isPrefixOf_iff_prefix, List.isPrefixOf_iff_prefix]
    exact prefix_append_cons_iff (hc entry hentry) (d :: u) t
  fun_induction substitute table s with
  | case1 =>
    have hnone : table.find? (fun entry => entry.1.isPrefixOf (c :: t)) = none := by
      apply List.find?_eq_none.mpr
      intro entry hentry hbegins
      obtain ⟨name, hname, -⟩ := (hpattern entry hentry).exists_name
      rw [hname, List.isPrefixOf_iff_prefix, List.cons_prefix_cons] at hbegins
      apply hc entry hentry
      rw [hname, hbegins.1]
      exact List.mem_cons_self
    rw [List.nil_append, List.nil_append, substitute_of_find?_eq_none hnone]
  | case2 d rest pattern replacement hhere ih =>
    have hbegins := List.find?_some hhere
    rw [List.isPrefixOf_iff_prefix] at hbegins
    have hlength : pattern.length ≤ rest.length + 1 := hbegins.length_le
    rw [List.cons_append, substitute_of_find? ((hfind d rest).trans hhere),
      List.drop_append_of_le_length (by omega), ih, List.append_assoc]
  | case3 d rest hhere ih =>
    rw [List.cons_append, substitute_of_find?_eq_none ((hfind d rest).trans hhere), ih,
      List.cons_append]

/-- A word that no replacement occurs in is found behind the pass where it stood before. -/
theorem prefix_substitute_iff {word : Text} (hword : '&' ∉ word)
    (hout : ∀ entry ∈ table, entry.2.length = 1 ∧ ∀ c ∈ entry.2, c ∉ word) (s : Text) :
    word <+: substitute table s ↔ word <+: s := by
  induction word generalizing s with
  | nil => simp
  | cons d word ih =>
    obtain ⟨hd, hrest⟩ := List.ne_and_not_mem_of_not_mem_cons hword
    cases s with
    | nil => rw [substitute_nil]
    | cons c s =>
      cases hfind : table.find? (fun entry => entry.1.isPrefixOf (c :: s)) with
      | none =>
        have hout' : ∀ entry ∈ table, entry.2.length = 1 ∧ ∀ c ∈ entry.2, c ∉ word := by
          intro entry hentry
          obtain ⟨hlength, hnot⟩ := hout entry hentry
          refine ⟨hlength, ?_⟩
          intro c hc hmem
          exact hnot c hc (List.mem_cons_of_mem d hmem)
        rw [substitute_of_find?_eq_none hfind, List.cons_prefix_cons, List.cons_prefix_cons,
          ih hrest hout']
      | some entry =>
        obtain ⟨pattern, meant⟩ := entry
        have hentry := List.mem_of_find?_eq_some hfind
        have hbegins := List.find?_some hfind
        obtain ⟨name, rfl, -⟩ := (hpattern _ hentry).exists_name
        obtain ⟨hlength, hnot⟩ := hout _ hentry
        obtain ⟨m, rfl⟩ := List.length_eq_one_iff.mp hlength
        rw [List.isPrefixOf_iff_prefix, List.cons_prefix_cons] at hbegins
        rw [substitute_of_find? hfind, List.singleton_append, List.cons_prefix_cons,
          List.cons_prefix_cons]
        constructor
        · rintro ⟨rfl, -⟩
          exact absurd List.mem_cons_self (hnot d (by simp))
        · rintro ⟨rfl, -⟩
          exact absurd hbegins.1 hd

/-- A pass for one more pattern behind a pass is one pass for all of them. -/
theorem replace_substitute {pattern replacement : Text} (hnew : IsPattern pattern)
    (hapart : ∀ entry ∈ table, Apart entry (pattern, replacement)) (s : Text) :
    replace pattern replacement (substitute table s) =
      substitute (table ++ [(pattern, replacement)]) s := by
  have hone : ∀ entry ∈ [(pattern, replacement)], IsPattern entry.1 := by simpa using hnew
  have hall : ∀ entry ∈ table ++ [(pattern, replacement)], IsPattern entry.1 := by
    intro entry hentry
    rcases List.mem_append.mp hentry with hentry | hentry
    · exact hpattern entry hentry
    · exact hone entry hentry
  obtain ⟨name, rfl, hname⟩ := hnew.exists_name
  unfold replace
  fun_induction substitute table s with
  | case1 => rw [substitute_nil, substitute_nil]
  | case2 c rest p r hfind ih =>
    obtain ⟨hlength, hamp, -⟩ := hapart (p, r) (List.mem_of_find?_eq_some hfind)
    have hwhole : (table ++ [('&' :: name, replacement)]).find?
        (fun entry => entry.1.isPrefixOf (c :: rest)) = some (p, r) := by
      rw [List.find?_append, hfind, Option.some_or]
    rw [substitute_append hone hamp, ih, substitute_of_find? hwhole]
  | case3 c rest hfind ih =>
    have hout : ∀ entry ∈ table, entry.2.length = 1 ∧ ∀ d ∈ entry.2, d ∉ name := by
      intro entry hentry
      obtain ⟨hlength, -, hnot⟩ := hapart entry hentry
      refine ⟨hlength, ?_⟩
      intro d hd hmem
      exact hnot d hd (List.mem_cons_of_mem _ hmem)
    have hsame : '&' :: name <+: c :: substitute table rest ↔ '&' :: name <+: c :: rest := by
      rw [List.cons_prefix_cons, List.cons_prefix_cons,
        prefix_substitute_iff hpattern hname hout]
    by_cases hbegins : '&' :: name <+: c :: rest
    · obtain ⟨t, ht⟩ := hbegins
      obtain ⟨rfl, hrest⟩ : '&' = c ∧ name ++ t = rest := List.cons.inj ht
      subst hrest
      rw [substitute_append hpattern hname, substitute_append hone hname,
        substitute_append hall hname] at ih
      have hleft := @substitute_concat_append [] _ replacement (substitute table t)
        (List.cons_ne_nil '&' name) rfl
      have hright := @substitute_concat_append table _ replacement t
        (List.cons_ne_nil '&' name) hfind
      rw [substitute_append hpattern hname]
      calc substitute [('&' :: name, replacement)] ('&' :: (name ++ substitute table t))
        _ = replacement ++ substitute [('&' :: name, replacement)] (substitute table t) := hleft
        _ = replacement ++ substitute (table ++ [('&' :: name, replacement)]) t := by
          rw [List.append_cancel_left ih]
        _ = substitute (table ++ [('&' :: name, replacement)]) ('&' :: (name ++ t)) := hright.symm
    · have hleft := @substitute_concat_cons [] _ replacement _ _ rfl (mt hsame.mp hbegins)
      rw [substitute_concat_cons hfind hbegins, ← ih]
      exact hleft

end Pass

/-- Passes for the entries of a table in their order are one pass for the table. -/
theorem foldl_replace_substitute {table more : List (Text × Text)}
    (hpattern : ∀ entry ∈ table ++ more, IsPattern entry.1)
    (hapart : (table ++ more).Pairwise Apart) (s : Text) :
    more.foldl (fun text (written, meant) => replace written meant text) (substitute table s) =
      substitute (table ++ more) s := by
  induction more generalizing table with
  | nil => rw [List.append_nil, List.foldl_nil]
  | cons entry more ih =>
    obtain ⟨written, meant⟩ := entry
    have hsplit : table ++ (written, meant) :: more = (table ++ [(written, meant)]) ++ more := by
      simp
    have hbefore : ∀ entry ∈ table, Apart entry (written, meant) := by
      intro entry hentry
      exact (List.pairwise_append.mp hapart).2.2 entry hentry _ List.mem_cons_self
    have hpass : replace written meant (substitute table s) =
        substitute (table ++ [(written, meant)]) s := by
      apply replace_substitute
      · intro entry hentry
        exact hpattern entry (List.mem_append_left _ hentry)
      · exact hpattern (written, meant) (by simp)
      · exact hbefore
    rw [hsplit] at hpattern hapart
    rw [List.foldl_cons]
    dsimp only
    rw [hpass, hsplit]
    exact ih hpattern hapart

theorem isPattern_of_mem_references : ∀ entry ∈ references, IsPattern entry.1 := by
  simp [references, IsPattern]

theorem pairwise_apart_references : references.Pairwise Apart := by
  simp [references, Apart]

theorem decode_eq_substitute (t : Text) : t.decode = substitute references t := by
  have hfold := @foldl_replace_substitute [] references isPattern_of_mem_references
    pairwise_apart_references t
  rw [substitute_empty] at hfold
  exact hfold

theorem notMem_of_mem_references {c : Char} (h : isBlank c = true) :
    ∀ entry ∈ references, c ∉ entry.1 := by
  have hnot : ∀ entry ∈ references, ∀ d ∈ entry.1, isBlank d = false := by
    simp [references, isBlank]
  intro entry hentry hmem
  rw [hnot entry hentry c hmem] at h
  cases h

/-- No reference reaches over a blank. -/
theorem decode_append_cons {c : Char} (h : isBlank c = true) (s t : Text) :
    (s ++ c :: t).decode = s.decode ++ c :: t.decode := by
  simp only [decode_eq_substitute]
  exact substitute_append_cons isPattern_of_mem_references (notMem_of_mem_references h) s t

/-! ## Escaped texts -/

@[simp] theorem escape_append (s t : Text) : (s ++ t).escape = s.escape ++ t.escape :=
  List.flatMap_append

theorem escape_cons (c : Char) (t : Text) : escape (c :: t) = escapeChar c ++ t.escape := by
  rw [escape, List.flatMap_cons, escape]

theorem escape_joinWith {separator : Text} (h : separator.escape = separator) (ts : List Text) :
    (joinWith separator ts).escape = joinWith separator (ts.map escape) := by
  induction ts with
  | nil => rfl
  | cons t ts ih =>
    rw [List.map_cons]
    by_cases hts : ts = []
    · subst hts
      rw [joinWith_singleton, List.map_nil, joinWith_singleton]
    · rw [joinWith_cons separator t hts, joinWith_cons separator _ (mt List.map_eq_nil_iff.mp hts),
        escape_append, escape_append, h, ih]

def referenceChars : Text :=
  ['&', 'a', 'm', 'p', 'l', 't', 'g', 'q', 'u', 'o', '#', '3', '9', ';']

theorem mem_escapeChar {c d : Char} (h : d ∈ escapeChar c) :
    d ∈ referenceChars ∨ d = c ∧ d ≠ '<' ∧ d ≠ '>' ∧ d ≠ '"' ∧ d ≠ '\'' := by
  unfold escapeChar at h
  split_ifs at h with hamp hlt hgt hquote happos
  · exact .inl ((by simp [referenceChars] : "&amp;".toList ⊆ referenceChars) h)
  · exact .inl ((by simp [referenceChars] : "&lt;".toList ⊆ referenceChars) h)
  · exact .inl ((by simp [referenceChars] : "&gt;".toList ⊆ referenceChars) h)
  · exact .inl ((by simp [referenceChars] : "&quot;".toList ⊆ referenceChars) h)
  · exact .inl ((by simp [referenceChars] : "&#39;".toList ⊆ referenceChars) h)
  · obtain rfl := List.mem_singleton.mp h
    exact .inr ⟨rfl, hlt, hgt, hquote, happos⟩

theorem mem_escape {t : Text} {d : Char} (h : d ∈ t.escape) :
    d ∈ referenceChars ∨ d ∈ t ∧ d ≠ '<' ∧ d ≠ '>' ∧ d ≠ '"' ∧ d ≠ '\'' := by
  obtain ⟨c, hc, hd⟩ := List.mem_flatMap.mp h
  rcases mem_escapeChar hd with hd | ⟨rfl, hmarks⟩
  · exact .inl hd
  · exact .inr ⟨hc, hmarks⟩

/-- No character that is escaped is left, `&` apart. -/
theorem notMem_escape {d : Char} (hd : d ∈ ['<', '>', '"', '\'']) (t : Text) : d ∉ t.escape := by
  intro h
  have hnot : d ∉ referenceChars := by
    simp only [List.mem_cons, List.not_mem_nil, or_false] at hd
    rcases hd with rfl | rfl | rfl | rfl <;> simp [referenceChars]
  rcases mem_escape h with hmem | ⟨-, hlt, hgt, hquote, happos⟩
  · exact hnot hmem
  · simp [hlt, hgt, hquote, happos] at hd

theorem escape_ne_nil {t : Text} (h : t ≠ []) : t.escape ≠ [] := by
  obtain ⟨c, t, rfl⟩ := List.exists_cons_of_ne_nil h
  intro hnil
  have hc := (List.append_eq_nil_iff.mp ((escape_cons c t).symm.trans hnil)).1
  unfold escapeChar at hc
  split_ifs at hc <;> simp at hc

/-- At a reference of the table the pass writes what it means. -/
theorem substitute_written_append (written meant : Text) (h : (written, meant) ∈ references)
    (t : Text) : substitute references (written ++ t) = meant ++ substitute references t := by
  simp only [references, List.mem_cons, Prod.mk.injEq, List.not_mem_nil, or_false] at h
  rcases h with ⟨rfl, rfl⟩ | ⟨rfl, rfl⟩ | ⟨rfl, rfl⟩ | ⟨rfl, rfl⟩ | ⟨rfl, rfl⟩ | ⟨rfl, rfl⟩ |
    ⟨rfl, rfl⟩
  all_goals
    simp only [String.reduceToList, List.cons_append, List.nil_append]
    rw [substitute]
    simp [references, List.isPrefixOf]

theorem substitute_escapeChar_append (c : Char) (t : Text) :
    substitute references (escapeChar c ++ t) = c :: substitute references t := by
  unfold escapeChar
  split_ifs with hamp hlt hgt hquote happos
  · rw [hamp]
    exact substitute_written_append "&amp;".toList ['&'] (by simp [references]) t
  · rw [hlt]
    exact substitute_written_append "&lt;".toList ['<'] (by simp [references]) t
  · rw [hgt]
    exact substitute_written_append "&gt;".toList ['>'] (by simp [references]) t
  · rw [hquote]
    exact substitute_written_append "&quot;".toList ['"'] (by simp [references]) t
  · rw [happos]
    exact substitute_written_append "&#39;".toList ['\''] (by simp [references]) t
  · exact substitute_of_find?_eq_none (find?_eq_none_of_ne isPattern_of_mem_references hamp t)

/-- An escaped text means the text. -/
theorem decode_escape (t : Text) : t.escape.decode = t := by
  rw [decode_eq_substitute]
  induction t with
  | nil => exact substitute_nil
  | cons c t ih => rw [escape_cons, substitute_escapeChar_append, ih]

/-! ## Reading from the left -/

/-- The character that a reference stands for. -/
inductive StandsFor : Text → Char → Prop where
  | lt : StandsFor "&lt;".toList '<'
  | gt : StandsFor "&gt;".toList '>'
  | quot : StandsFor "&quot;".toList '"'
  | apos : StandsFor "&apos;".toList '\''
  | number : StandsFor "&#39;".toList '\''
  | nbsp : StandsFor "&nbsp;".toList ' '
  | amp : StandsFor "&amp;".toList '&'

/-- A text is read once from the left: a reference as the character that it stands for, and a
character where no reference starts as itself. What was read is not looked at again. -/
inductive DecodesTo : Text → Text → Prop where
  | nil : DecodesTo [] []
  | reference {written s t : Text} {c : Char} :
      StandsFor written c → DecodesTo s t → DecodesTo (written ++ s) (c :: t)
  | char {s t : Text} {c : Char} :
      (∀ written d, StandsFor written d → ¬ written <+: c :: s) → DecodesTo s t →
        DecodesTo (c :: s) (c :: t)

theorem StandsFor.mem_references {written : Text} {c : Char} (h : StandsFor written c) :
    (written, [c]) ∈ references := by
  cases h <;> simp [references]

theorem exists_standsFor {written meant : Text} (h : (written, meant) ∈ references) :
    ∃ c, meant = [c] ∧ StandsFor written c := by
  simp only [references, List.mem_cons, Prod.mk.injEq, List.not_mem_nil, or_false] at h
  rcases h with ⟨rfl, rfl⟩ | ⟨rfl, rfl⟩ | ⟨rfl, rfl⟩ | ⟨rfl, rfl⟩ | ⟨rfl, rfl⟩ | ⟨rfl, rfl⟩ |
    ⟨rfl, rfl⟩
  · exact ⟨'<', rfl, .lt⟩
  · exact ⟨'>', rfl, .gt⟩
  · exact ⟨'"', rfl, .quot⟩
  · exact ⟨'\'', rfl, .apos⟩
  · exact ⟨'\'', rfl, .number⟩
  · exact ⟨' ', rfl, .nbsp⟩
  · exact ⟨'&', rfl, .amp⟩

theorem find?_references_eq_none_iff {s : Text} :
    references.find? (fun entry => entry.1.isPrefixOf s) = none ↔
      ∀ written c, StandsFor written c → ¬ written <+: s := by
  rw [List.find?_eq_none]
  constructor
  · intro h written c hstands hbegins
    exact h _ hstands.mem_references (List.isPrefixOf_iff_prefix.mpr hbegins)
  · rintro h ⟨written, meant⟩ hentry hbegins
    obtain ⟨c, -, hstands⟩ := exists_standsFor hentry
    exact h written c hstands (List.isPrefixOf_iff_prefix.mp hbegins)

theorem decodesTo_substitute (s : Text) : DecodesTo s (substitute references s) := by
  fun_induction substitute references s with
  | case1 => exact .nil
  | case2 c rest written meant hfind ih =>
    have hentry := List.mem_of_find?_eq_some hfind
    have hpattern : IsPattern written := isPattern_of_mem_references _ hentry
    obtain ⟨name, rfl, -⟩ := hpattern.exists_name
    obtain ⟨d, rfl, hstands⟩ := exists_standsFor hentry
    rw [← append_drop_of_find? (List.cons_ne_nil '&' name) hfind]
    exact .reference hstands ih
  | case3 c rest hfind ih => exact .char (find?_references_eq_none_iff.mp hfind) ih

theorem DecodesTo.substitute_eq {s t : Text} (h : DecodesTo s t) :
    substitute references s = t := by
  induction h with
  | nil => exact substitute_nil
  | @reference written s t c hstands _ ih =>
    rw [substitute_written_append written [c] hstands.mem_references, ih]
    rfl
  | char hnone _ ih =>
    rw [substitute_of_find?_eq_none (find?_references_eq_none_iff.mpr hnone), ih]

/-- Decoding one reference after the other in the whole text is reading the text once. -/
theorem decode_eq_iff_decodesTo (s t : Text) : s.decode = t ↔ DecodesTo s t := by
  rw [decode_eq_substitute]
  constructor
  · rintro rfl
    exact decodesTo_substitute s
  · intro h
    exact h.substitute_eq

/-- A reference that decoding completes stays as it is, and so does one without its end. -/
example : decode "&amp;lt; &&lt;&#39".toList = "&lt; &<&#39".toList := by cbv

end Hypertext.Text
