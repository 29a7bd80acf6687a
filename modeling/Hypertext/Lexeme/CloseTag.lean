import Hypertext.Lexeme.Basic

/-!
# End tags of raw text

Raw text runs up to the first end tag of its own element. The name may be in any letter case
there, but only blanks may stand between it and `>`.
-/

namespace Hypertext

set_option autoImplicit false

/-- The end tag of a raw-text element at the start of a text, as written, and the rest: `</`,
the name in any letter case, blanks and `>`. -/
def readCloseTag? (name : Text) : Text → Option (Text × Text)
  | '<' :: '/' :: text =>
    if Text.lowercase (text.take name.length) = Text.lowercase name then
      match (text.drop name.length).dropWhile isBlank with
      | '>' :: rest =>
        some ('<' :: '/' :: (text.take name.length ++
          ((text.drop name.length).takeWhile isBlank ++ ['>'])), rest)
      | _ => none
    else none
  | _ => none

/-- The text before the first end tag of a raw-text element, that tag, and the rest. -/
def cutCloseTag? (name : Text) : Text → Option (Text × Text × Text)
  | [] => none
  | c :: text =>
    match readCloseTag? name (c :: text) with
    | some (tag, rest) => some ([], tag, rest)
    | none => (cutCloseTag? name text).map fun (before, tag, rest) => (c :: before, tag, rest)

/-- Where the first end tag of a raw-text element starts and where it is over, in bytes. -/
def closeTagRange? (name text : Text) : Option (Nat × Nat) :=
  (cutCloseTag? name text).map fun (before, tag, _) =>
    (Text.size before, Text.size before + Text.size tag)

theorem eq_of_readCloseTag?_eq_some {name text tag rest : Text}
    (h : readCloseTag? name text = some (tag, rest)) : tag ++ rest = text := by
  unfold readCloseTag? at h
  split at h
  · next text =>
    split at h
    · split at h
      · next after heq =>
        simp only [Option.some.injEq, Prod.mk.injEq] at h
        obtain ⟨rfl, rfl⟩ := h
        have hdrop := List.takeWhile_append_dropWhile (p := isBlank) (l := text.drop name.length)
        rw [heq] at hdrop
        simp [hdrop]
      · simp at h
    · simp at h
  · simp at h

theorem eq_of_cutCloseTag?_eq_some {name text before tag rest : Text}
    (h : cutCloseTag? name text = some (before, tag, rest)) : before ++ (tag ++ rest) = text := by
  induction text generalizing before tag rest with
  | nil => simp [cutCloseTag?] at h
  | cons c text ih =>
    rw [cutCloseTag?] at h
    split at h
    · next heq =>
      simp only [Option.some.injEq, Prod.mk.injEq] at h
      obtain ⟨rfl, rfl, rfl⟩ := h
      simpa using eq_of_readCloseTag?_eq_some heq
    · obtain ⟨⟨b, t, r⟩, hcut, heq⟩ := Option.map_eq_some_iff.mp h
      simp only [Prod.mk.injEq] at heq
      obtain ⟨rfl, rfl, rfl⟩ := heq
      simp [ih hcut]

end Hypertext
