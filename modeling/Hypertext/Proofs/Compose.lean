import Hypertext.Compose
import Hypertext.Proofs.Placeholder
import Hypertext.Proofs.Token.TextPosition

/-!
# Values in element content

The marks of a text are its tokens other than texts. Where a template is in text position,
values without markup leave its marks as they are: the marks of the composed text are those
of the fragments alone.
-/

namespace Hypertext

set_option autoImplicit false

namespace Token

def isText : Token → Bool
  | .text _ => true
  | _ => false

/-- The tokens of a text that are no texts, in their order. -/
def marks (s : Text) : List Token :=
  (readAll s).filter fun token => !token.isText

theorem marks_nil : marks [] = [] := by
  rw [marks, readAll_nil, List.filter_nil]

theorem marks_readRun (s : Text) : marks (Lexeme.readRun s).2 = marks s := by
  have hrun : (ofRun (Lexeme.readRun s).1).filter (fun token => !token.isText) = [] := by
    unfold ofRun
    split_ifs <;> rfl
  rw [marks, marks, readAll_eq_readRun s, List.filter_append, hrun, List.nil_append]

theorem marks_run_append {run : Text} (h : Lexeme.IsRun run) (t : Text) :
    marks (run ++ t) = marks t := by
  rw [← marks_readRun (run ++ t), Lexeme.readRun_append h, marks_readRun]

/-- A text after which reading goes on as if from the start. -/
def Transparent (s : Text) : Prop :=
  ∀ t, marks (s ++ t) = marks s ++ marks t

theorem transparent_of_endsInText {s : Text} (h : EndsInText s) : Transparent s := by
  obtain ⟨tokens, run, hrun, hread⟩ := h.exists_tokens
  have hmarks : ∀ t, marks (s ++ t) =
      tokens.filter (fun token => !token.isText) ++ marks t := by
    intro t
    rw [marks, hread, List.filter_append, ← marks_run_append hrun t]
    rfl
  intro t
  have hself := hmarks []
  rw [List.append_nil, marks_nil, List.append_nil] at hself
  rw [hmarks t, hself]

theorem Transparent.of_append {s t : Text} (hs : Transparent s) (hst : Transparent (s ++ t)) :
    Transparent t := by
  intro u
  have hwhole := hst u
  rw [List.append_assoc, hs, hs, List.append_assoc] at hwhole
  exact List.append_cancel_left hwhole

theorem marks_flatten {texts : List Text} (h : ∀ s ∈ texts.dropLast, Transparent s) :
    marks texts.flatten = texts.flatMap marks := by
  induction texts with
  | nil => exact marks_nil
  | cons s rest ih =>
    cases rest with
    | nil => simp
    | cons next rest =>
      rw [List.dropLast_cons_cons, List.forall_mem_cons] at h
      obtain ⟨hs, hrest⟩ := h
      rw [List.flatten_cons, hs, List.flatMap_cons, ih hrest]

end Token

theorem interleave_cons_nil (fragment next : Text) (rest : List Text) :
    interleave (fragment :: next :: rest) [] = fragment ++ interleave (next :: rest) [] := by
  rw [interleave]
  simp

theorem interleave_cons_cons (fragment next : Text) (rest : List Text) (p : Placeholder)
    (ps : List Placeholder) :
    interleave (fragment :: next :: rest) (p :: ps) =
      fragment ++ (p.resolve ++ interleave (next :: rest) ps) := by
  rw [interleave]
  simp

/-- Fragments that reading passes over one by one are met by no value between them. -/
theorem marks_interleave {fragments : List Text} {placeholders : List Placeholder}
    (htransparent : ∀ s ∈ fragments.dropLast, Token.Transparent s)
    (hfree : ∀ p ∈ placeholders, p.IsMarkupFree) :
    Token.marks (interleave fragments placeholders) = fragments.flatMap Token.marks := by
  induction fragments generalizing placeholders with
  | nil => exact Token.marks_nil
  | cons fragment rest ih =>
    cases rest with
    | nil => simp [interleave]
    | cons next rest =>
      rw [List.dropLast_cons_cons, List.forall_mem_cons] at htransparent
      obtain ⟨hfragment, hrest⟩ := htransparent
      rw [List.flatMap_cons]
      cases placeholders with
      | nil => rw [interleave_cons_nil, hfragment, ih hrest hfree]
      | cons p ps =>
        rw [List.forall_mem_cons] at hfree
        obtain ⟨hp, hps⟩ := hfree
        have hrun : Lexeme.IsRun p.resolve :=
          Lexeme.isRun_of_notMem (Placeholder.notMem_resolve hp)
        rw [interleave_cons_cons, hfragment, Token.marks_run_append hrun, ih hrest hps]

/-- Each proper prefix ends in text position, so each fragment but the last is passed over. -/
theorem transparent_of_endsInText_take {fragments : List Text}
    (h : ∀ i, 0 < i → i < fragments.length → EndsInText (fragments.take i).flatten) :
    ∀ s ∈ fragments.dropLast, Token.Transparent s := by
  intro s hs
  obtain ⟨i, hi, rfl⟩ := List.mem_iff_getElem.mp hs
  rw [List.length_dropLast] at hi
  rw [List.getElem_dropLast]
  have hbefore : Token.Transparent (fragments.take i).flatten := by
    cases i with
    | zero => exact fun t => by simp [Token.marks_nil]
    | succ i => exact Token.transparent_of_endsInText (h (i + 1) (by omega) (by omega))
  have hthrough := Token.transparent_of_endsInText (h (i + 1) (by omega) (by omega))
  rw [List.take_succ_eq_append_getElem (by omega), List.flatten_append] at hthrough
  simpa using hbefore.of_append (by simpa using hthrough)

/-- Values in element content cannot be told from the marks: with a template in text position
at every slot, the marks are those of its fragments alone, whatever the values are. -/
theorem marks_compose (fragments : List Text) (placeholders : List Placeholder)
    (htext : ∀ i, 0 < i → i < (Indent.strip fragments).length →
      EndsInText ((Indent.strip fragments).take i).flatten)
    (hfree : ∀ p ∈ placeholders, p.IsMarkupFree) :
    Token.marks (compose fragments placeholders).html =
      Token.marks (Indent.strip fragments).flatten := by
  have htransparent := transparent_of_endsInText_take htext
  rw [compose, marks_interleave htransparent hfree, Token.marks_flatten htransparent]

theorem marks_compose_script_in_paragraph :
    Token.marks (compose ["\n <p>".toList, "<br>".toList, "</p>\n".toList]
        [.text "<script>".toList, .sequence [.absent, .text "\"".toList]]).html =
      [.startTag "p".toList [] false, .startTag "br".toList [] true, .endTag "p".toList] := by
  have hstrip : Indent.strip ["\n <p>".toList, "<br>".toList, "</p>\n".toList] =
      ["<p>".toList, "<br>".toList, "</p>".toList] := by cbv
  have htext : ∀ i, 0 < i → i < 3 → EndsInText
      (["<p>".toList, "<br>".toList, "</p>".toList].take i).flatten := by
    intro i hpos hlt
    have hi : i = 1 ∨ i = 2 := by omega
    rcases hi with rfl | rfl
    · decide +kernel
    · decide +kernel
  have hmarks := marks_compose ["\n <p>".toList, "<br>".toList, "</p>\n".toList]
    [.text "<script>".toList, .sequence [.absent, .text "\"".toList]] (by rwa [hstrip])
    (by simp [Placeholder.IsMarkupFree, Placeholder.leaves, Placeholder.leavesAll])
  rw [hmarks, hstrip]
  decide +kernel

end Hypertext
