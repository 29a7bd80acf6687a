import Hypertext.Lexeme.Basic

/-!
# Reading start tags

A start tag is read from its name to its `>`. Whatever stands there is taken as an attribute,
a blank or a stray slash, so every text has a reading; a tag that is not closed runs to the
end. Nothing is lost: what was read and the rest together are the text.
-/

namespace Hypertext

set_option autoImplicit false

def endsTagName (c : Char) : Bool :=
  isBlank c || c == '/' || c == '>'

/-- Where the name of an attribute ends, its first character apart. -/
def endsAttributeName (c : Char) : Bool :=
  endsTagName c || c == '='

/-- A value after `=` and its blanks: to the closing quote, or to a blank or `>`. -/
def WrittenValue.read : Text → WrittenValue × Text
  | [] => (.bare [], [])
  | c :: rest =>
    if c = '"' ∨ c = '\'' then
      let (body, closed, after) := Text.upTo c rest
      (.quoted c body closed, after)
    else
      (.bare ((c :: rest).takeWhile fun d => !(isBlank d || d == '>')),
        (c :: rest).dropWhile fun d => !(isBlank d || d == '>'))

/-- An attribute whose first character is given; that one belongs to the name even if it is
`=`. Blanks before `=` belong to the attribute, blanks before anything else do not. -/
def WrittenAttribute.read (first : Char) (text : Text) : WrittenAttribute × Text :=
  let name := first :: text.takeWhile fun c => !endsAttributeName c
  let rest := text.dropWhile fun c => !endsAttributeName c
  match rest.dropWhile isBlank with
  | '=' :: afterSign =>
    let (value, after) := WrittenValue.read (afterSign.dropWhile isBlank)
    (⟨name, some ⟨rest.takeWhile isBlank, afterSign.takeWhile isBlank, value⟩⟩, after)
  | _ => (⟨name, none⟩, rest)

theorem WrittenValue.source_read (text : Text) :
    (WrittenValue.read text).1.source ++ (WrittenValue.read text).2 = text := by
  cases text with
  | nil => rfl
  | cons c rest =>
    rw [WrittenValue.read]
    split
    · simp [WrittenValue.source, Text.upTo_eq]
    · simp [WrittenValue.source]

theorem WrittenAttribute.source_read (first : Char) (text : Text) :
    (WrittenAttribute.read first text).1.source ++ (WrittenAttribute.read first text).2 =
      first :: text := by
  rw [WrittenAttribute.read]
  dsimp only
  split
  · next afterSign h =>
    have hrest := List.takeWhile_append_dropWhile (p := isBlank)
      (l := text.dropWhile fun c => !endsAttributeName c)
    rw [h] at hrest
    simp only [WrittenAttribute.source, Assignment.source, Option.map_some, Option.getD_some,
      List.cons_append, List.append_assoc, WrittenValue.source_read,
      List.takeWhile_append_dropWhile, hrest]
  · simp [WrittenAttribute.source]

theorem WrittenAttribute.length_read_le (first : Char) (text : Text) :
    (WrittenAttribute.read first text).2.length ≤ text.length := by
  have h := congrArg List.length (WrittenAttribute.source_read first text)
  have hname : 1 ≤ (WrittenAttribute.read first text).1.source.length := by
    rw [WrittenAttribute.read]
    dsimp only
    split <;> simp only [WrittenAttribute.source, List.length_append, List.length_cons] <;> omega
  simp only [List.length_append, List.length_cons] at h
  omega

/-- What stands between the name of a start tag and its end, how it ends, and the rest. -/
def TagPiece.readAll : Text → List TagPiece × TagEnding × Text
  | [] => ([], .missing, [])
  | '>' :: rest => ([], .plain, rest)
  | '/' :: '>' :: rest => ([], .selfClosing, rest)
  | c :: rest =>
    if c = '/' then
      let (pieces, ending, after) := readAll rest
      (.slash :: pieces, ending, after)
    else if isBlank c then
      let (pieces, ending, after) := readAll rest
      (.blank c :: pieces, ending, after)
    else
      let (pieces, ending, after) := readAll (WrittenAttribute.read c rest).2
      (.attr (WrittenAttribute.read c rest).1 :: pieces, ending, after)
termination_by text => text.length
decreasing_by
  · simp
  · simp
  · have := WrittenAttribute.length_read_le c rest
    simp only [List.length_cons]
    omega

theorem TagPiece.readAll_cons {c : Char} {text : Text} (hclose : c ≠ '>')
    (hself : c = '/' → text.head? ≠ some '>') :
    readAll (c :: text) =
      if c = '/' then (.slash :: (readAll text).1, (readAll text).2)
      else if isBlank c then (.blank c :: (readAll text).1, (readAll text).2)
      else
        (.attr (WrittenAttribute.read c text).1 :: (readAll (WrittenAttribute.read c text).2).1,
          (readAll (WrittenAttribute.read c text).2).2) := by
  rw [readAll]
  · exact hclose
  · rintro rest hslash rfl
    exact hself hslash rfl

/-- A start tag without its `<`, and the rest. -/
def WrittenTag.read (text : Text) : WrittenTag × Text :=
  let (pieces, ending, after) := TagPiece.readAll (text.dropWhile fun c => !endsTagName c)
  (⟨text.takeWhile fun c => !endsTagName c, pieces, ending⟩, after)

theorem TagPiece.source_readAll (text : Text) :
    (TagPiece.readAll text).1.flatMap TagPiece.source ++
      ((TagPiece.readAll text).2.1.source ++ (TagPiece.readAll text).2.2) = text := by
  fun_induction TagPiece.readAll text with
  | case1 => rfl
  | case2 => rfl
  | case3 => rfl
  | case4 _ _ _ _ heq _ _ ih =>
    rw [heq] at ih
    simpa [TagPiece.source] using ih
  | case5 _ _ _ _ _ _ _ _ _ heq ih =>
    rw [heq] at ih
    simpa [TagPiece.source] using ih
  | case6 _ _ _ _ _ _ _ _ _ heq ih =>
    rw [heq] at ih
    simp only [List.flatMap_cons, TagPiece.source, List.append_assoc, ih,
      WrittenAttribute.source_read]

theorem WrittenTag.source_read (text : Text) :
    (WrittenTag.read text).1.source ++ (WrittenTag.read text).2 = '<' :: text := by
  have h := TagPiece.source_readAll (text.dropWhile fun c => !endsTagName c)
  simp only [WrittenTag.read, WrittenTag.source, List.cons_append, List.append_assoc, h,
    List.takeWhile_append_dropWhile]

end Hypertext
