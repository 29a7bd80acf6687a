import Hypertext.Proofs.Indent

/-!
# What stripping takes away

Stripping leaves white space out of the fragments and nothing else, and no fragment is lost.
What it leaves does not start on a new line any more, so it is not stripped again.
-/

namespace Hypertext

set_option autoImplicit false

namespace Text

/-- The characters of a text that are no white space, in their order. -/
def nonspaces (t : Text) : Text :=
  t.filter fun c => !isSpace c

theorem nonspaces_append (s t : Text) : nonspaces (s ++ t) = s.nonspaces ++ t.nonspaces :=
  List.filter_append s t

theorem nonspaces_eq_nil {t : Text} (h : ∀ c ∈ t, isSpace c = true) : t.nonspaces = [] := by
  apply List.filter_eq_nil_iff.mpr
  intro c hc
  simp [h c hc]

/-- The second text is the first one without some of its white space. -/
structure LosesSpace (s t : Text) : Prop where
  sublist : List.Sublist t s
  nonspaces_eq : t.nonspaces = s.nonspaces

namespace LosesSpace
variable {s t u v : Text}

theorem refl (t : Text) : LosesSpace t t :=
  ⟨List.Sublist.refl t, rfl⟩

theorem trans (hst : LosesSpace s t) (htu : LosesSpace t u) : LosesSpace s u :=
  ⟨htu.sublist.trans hst.sublist, htu.nonspaces_eq.trans hst.nonspaces_eq⟩

theorem append (hst : LosesSpace s t) (huv : LosesSpace u v) : LosesSpace (s ++ u) (t ++ v) := by
  refine ⟨hst.sublist.append huv.sublist, ?_⟩
  rw [nonspaces_append, nonspaces_append, hst.nonspaces_eq, huv.nonspaces_eq]

theorem reverse (h : LosesSpace s t) : LosesSpace s.reverse t.reverse := by
  refine ⟨h.sublist.reverse, ?_⟩
  have hkept := congrArg List.reverse h.nonspaces_eq
  rwa [nonspaces, nonspaces, ← List.filter_reverse, ← List.filter_reverse] at hkept

theorem of_space (hs : ∀ c ∈ s, isSpace c = true) (h : List.Sublist t s) : LosesSpace s t := by
  have ht : ∀ c ∈ t, isSpace c = true := by
    intro c hc
    exact hs c (h.subset hc)
  exact ⟨h, (nonspaces_eq_nil ht).trans (nonspaces_eq_nil hs).symm⟩

theorem trimStart (t : Text) : LosesSpace t t.trimStart := by
  have hlost : LosesSpace (t.takeWhile isSpace) [] := by
    apply of_space _ (List.nil_sublist _)
    intro c hc
    exact List.mem_takeWhile_imp hc
  have hwhole := hlost.append (refl (t.dropWhile isSpace))
  rwa [List.takeWhile_append_dropWhile] at hwhole

theorem trimEnd (t : Text) : LosesSpace t t.trimEnd := by
  have hreverse := (trimStart t.reverse).reverse
  rwa [List.reverse_reverse] at hreverse

/-- Where white space is replaced by a part of it, nothing else is lost. -/
theorem replace {first : Char} {later replacement : Text}
    (hspace : ∀ c ∈ first :: later, isSpace c = true)
    (hpart : List.Sublist replacement (first :: later)) (t : Text) :
    LosesSpace t (Text.replace (first :: later) replacement t) := by
  rw [Text.replace]
  fun_induction substitute [(first :: later, replacement)] t with
  | case1 => exact refl []
  | case2 c rest pattern meant hfind ih =>
    obtain ⟨rfl, rfl⟩ := Prod.mk.inj (List.mem_singleton.mp (List.mem_of_find?_eq_some hfind))
    rw [← append_drop_of_find? (List.cons_ne_nil first later) hfind]
    exact (of_space hspace hpart).append ih
  | case3 c rest hfind ih => exact (refl [c]).append ih

end LosesSpace

end Text

namespace Indent

/-- Whether the first fragment of a template starts with a newline. -/
def StartsOnNewLine (fragments : List Text) : Prop :=
  ∃ first rest, fragments = ('\n' :: first) :: rest

theorem base?_eq_none {fragments : List Text} (h : ¬ StartsOnNewLine fragments) :
    base? fragments = none := by
  unfold base?
  split
  · next first rest => exact absurd ⟨first, rest, rfl⟩ h
  · rfl

theorem strip_eq_self {fragments : List Text} (h : ¬ StartsOnNewLine fragments) :
    strip fragments = fragments := by
  rw [strip, base?_eq_none h]

/-- A stripped template replaces its indentation, the newline included, and trims its ends. -/
theorem strip_of_startsOnNewLine {fragments : List Text} (h : StartsOnNewLine fragments) :
    ∃ indent, (∀ c ∈ '\n' :: indent, isSpace c = true) ∧
      strip fragments = trimEnds (fragments.map (Text.replace ('\n' :: indent) ['\n'])) := by
  obtain ⟨first, rest, rfl⟩ := h
  refine ⟨first.takeWhile isSpace, ?_, rfl⟩
  rw [List.forall_mem_cons]
  constructor
  · simp [isSpace, isWithin, spaceRanges]
  · intro c hc
    exact List.mem_takeWhile_imp hc

section Losses
variable {fragments texts : List Text}

theorem forall₂_trimLast (h : List.Forall₂ Text.LosesSpace fragments texts) :
    List.Forall₂ Text.LosesSpace fragments (trimLast texts) := by
  induction h with
  | nil => exact .nil
  | @cons s t ss ts hst hrest ih =>
    cases hrest with
    | nil => exact .cons (hst.trans (.trimEnd t)) .nil
    | cons hnext hlater => exact .cons hst ih

theorem forall₂_trimEnds (h : List.Forall₂ Text.LosesSpace fragments texts) :
    List.Forall₂ Text.LosesSpace fragments (trimEnds texts) := by
  cases h with
  | nil => exact .nil
  | @cons s t ss ts hst hrest => exact forall₂_trimLast (.cons (hst.trans (.trimStart t)) hrest)

end Losses

theorem forall₂_strip (fragments : List Text) :
    List.Forall₂ Text.LosesSpace fragments (strip fragments) := by
  by_cases h : StartsOnNewLine fragments
  · obtain ⟨indent, hspace, hstrip⟩ := strip_of_startsOnNewLine h
    rw [hstrip]
    apply forall₂_trimEnds
    apply List.forall₂_map_right_iff.mpr
    apply List.forall₂_same.mpr
    intro fragment _
    apply Text.LosesSpace.replace hspace
    exact List.Sublist.cons_cons '\n' (List.nil_sublist indent)
  · rw [strip_eq_self h]
    apply List.forall₂_same.mpr
    intro fragment _
    exact Text.LosesSpace.refl fragment

theorem length_strip (fragments : List Text) : (strip fragments).length = fragments.length :=
  (forall₂_strip fragments).length_eq.symm

theorem trimStart_ne_newline (t rest : Text) : t.trimStart ≠ '\n' :: rest := by
  intro h
  have hhead : '\n' ∈ (t.dropWhile isSpace).head? := by
    rw [Text.trimStart] at h
    rw [h]
    rfl
  have hspace := Text.of_mem_head?_dropWhile hhead
  simp [isSpace, isWithin, spaceRanges] at hspace

theorem trimEnd_prefix (t : Text) : t.trimEnd <+: t :=
  List.rdropWhile_prefix isSpace t

/-- The first fragment is trimmed, and trimming its end as well leaves its start as it is. -/
theorem not_startsOnNewLine_trimEnds (fragments : List Text) :
    ¬ StartsOnNewLine (trimEnds fragments) := by
  rintro ⟨line, later, h⟩
  match fragments with
  | [] => cases h
  | [first] =>
    rw [trimEnds, trimLast] at h
    have hline := (List.cons.inj h).1
    obtain ⟨tail, htail⟩ := trimEnd_prefix first.trimStart
    rw [hline] at htail
    exact trimStart_ne_newline first (line ++ tail) htail.symm
  | first :: next :: rest =>
    rw [trimEnds, trimLast] at h
    exact trimStart_ne_newline first line (List.cons.inj h).1

theorem not_startsOnNewLine_strip (fragments : List Text) :
    ¬ StartsOnNewLine (strip fragments) := by
  by_cases h : StartsOnNewLine fragments
  · obtain ⟨indent, -, hstrip⟩ := strip_of_startsOnNewLine h
    rw [hstrip]
    exact not_startsOnNewLine_trimEnds _
  · rwa [strip_eq_self h]

/-- Stripping takes only white space away, nothing at all from a template that does not start on
a new line, and nothing more from what it has stripped. -/
theorem strip_loses_space (fragments : List Text) :
    (strip fragments).length = fragments.length ∧
      List.Forall₂ Text.LosesSpace fragments (strip fragments) ∧
      (¬ StartsOnNewLine fragments → strip fragments = fragments) ∧
      strip (strip fragments) = strip fragments := by
  refine ⟨length_strip fragments, forall₂_strip fragments, ?_, ?_⟩
  · intro h
    exact strip_eq_self h
  · exact strip_eq_self (not_startsOnNewLine_strip fragments)

/-- The indentation is of several lines and has a no-break space, and a template that starts with
a blank keeps all it has. -/
theorem strip_loses_space_blank_lines :
    (strip (strip ["\n\u00a0\n <p>".toList, "\n\u00a0\n </p>\r".toList, " \n".toList]) =
        ["<p>".toList, "\n</p>\r".toList, []] ∧
      List.Forall₂ Text.LosesSpace
        ["\n\u00a0\n <p>".toList, "\n\u00a0\n </p>\r".toList, " \n".toList]
        ["<p>".toList, "\n</p>\r".toList, []]) ∧
      ¬ StartsOnNewLine [" \n <p> ".toList] ∧ strip [" \n <p> ".toList] = [" \n <p> ".toList] := by
  have hstrip : strip ["\n\u00a0\n <p>".toList, "\n\u00a0\n </p>\r".toList, " \n".toList] =
      ["<p>".toList, "\n</p>\r".toList, []] := by cbv
  have hnot : ¬ StartsOnNewLine [" \n <p> ".toList] := by
    rintro ⟨first, rest, h⟩
    simp at h
  obtain ⟨-, hloses, -, hagain⟩ := strip_loses_space
    ["\n\u00a0\n <p>".toList, "\n\u00a0\n </p>\r".toList, " \n".toList]
  rw [hstrip] at hloses hagain
  rw [hstrip]
  exact ⟨⟨hagain, hloses⟩, hnot, (strip_loses_space [" \n <p> ".toList]).2.2.1 hnot⟩

end Indent

end Hypertext
