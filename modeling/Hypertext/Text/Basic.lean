/-!
# Texts

A text is a list of characters, read from the left. This module holds the two classes of
white space that the rest of the library tells apart, letter case, the length in UTF-8
bytes, trimming, and the ways of cutting a text at a character or at a mark.

Letter case and `isBlank` know ASCII only; `isSpace` is the Unicode property.
-/

namespace Hypertext

set_option autoImplicit false

/-- A sequence of Unicode scalar values. -/
abbrev Text := List Char

instance : Coe String Text := ⟨String.toList⟩

/-- White space of markup: space, tab, newline, form feed and carriage return. -/
def isBlank (c : Char) : Bool :=
  c == ' ' || c == '\t' || c == '\n' || c == '\x0c' || c == '\r'

/-- Whether the code point of a character is in one of some ranges, their ends included. -/
def isWithin (ranges : List (Nat × Nat)) (c : Char) : Bool :=
  ranges.any fun range => range.1 ≤ c.toNat && c.toNat ≤ range.2

/-- The ranges of code points with the Unicode property White_Space. -/
def spaceRanges : List (Nat × Nat) :=
  [(0x09, 0x0d), (0x20, 0x20), (0x85, 0x85), (0xa0, 0xa0), (0x1680, 0x1680), (0x2000, 0x200a),
    (0x2028, 0x2029), (0x202f, 0x202f), (0x205f, 0x205f), (0x3000, 0x3000)]

/-- White space of templates: the Unicode property White_Space. -/
def isSpace (c : Char) : Bool :=
  isWithin spaceRanges c

namespace Text

/-- ASCII letters in lower case, every other character as it is. -/
def lowercase (t : Text) : Text :=
  t.map Char.toLower

/-- The number of bytes of the UTF-8 form. -/
def size : Text → Nat
  | [] => 0
  | c :: rest => c.utf8Size + size rest

@[simp] theorem size_nil : size [] = 0 := rfl

@[simp] theorem size_cons (c : Char) (t : Text) : size (c :: t) = c.utf8Size + size t := rfl

@[simp] theorem size_append (s t : Text) : size (s ++ t) = size s + size t := by
  induction s with
  | nil => simp
  | cons c rest ih => simp only [List.cons_append, size_cons, ih, Nat.add_assoc]

/-- Without the white space at its start. -/
def trimStart (t : Text) : Text :=
  t.dropWhile isSpace

/-- Without the white space at its end. -/
def trimEnd (t : Text) : Text :=
  (t.reverse.dropWhile isSpace).reverse

/-- The runs between the characters that `p` picks; always one more than there are of these. -/
def pieces (p : Char → Bool) : Text → List Text
  | [] => [[]]
  | c :: rest =>
    if p c then [] :: pieces p rest
    else match pieces p rest with
      | [] => [[c]]
      | run :: runs => (c :: run) :: runs

def joinWith (separator : Text) (ts : List Text) : Text :=
  separator.intercalate ts

/-- What stands before the first `stop`, whether there is one, and what follows it. -/
def upTo (stop : Char) : Text → Text × Bool × Text
  | [] => ([], false, [])
  | c :: rest =>
    if c = stop then ([], true, rest)
    else
      let (before, found, after) := upTo stop rest
      (c :: before, found, after)

/-- The character that ended a run, or nothing when the text ended first. -/
def closing (stop : Char) (found : Bool) : Text :=
  if found then [stop] else []

theorem upTo_eq (stop : Char) (t : Text) :
    (upTo stop t).1 ++ (closing stop (upTo stop t).2.1 ++ (upTo stop t).2.2) = t := by
  induction t with
  | nil => rfl
  | cons c rest ih =>
    by_cases h : c = stop
    · simp [upTo, closing, h]
    · simp [upTo, h, ih]

theorem length_le_of_upTo_eq {stop : Char} {t before after : Text} {found : Bool}
    (h : upTo stop t = (before, found, after)) : after.length ≤ t.length := by
  have hlength := congrArg List.length (upTo_eq stop t)
  rw [h] at hlength
  simp only [List.length_append] at hlength
  omega

/-- What stands before and after the first occurrence of a mark. -/
def cut? (mark : Text) : Text → Option (Text × Text)
  | [] => none
  | c :: rest =>
    if mark.isPrefixOf (c :: rest) then some ([], (c :: rest).drop mark.length)
    else (cut? mark rest).map fun (before, after) => (c :: before, after)

theorem eq_of_cut?_eq_some {mark t before after : Text} (h : cut? mark t = some (before, after)) :
    before ++ (mark ++ after) = t := by
  induction t generalizing before after with
  | nil => simp [cut?] at h
  | cons c rest ih =>
    rw [cut?] at h
    split at h
    · next hp =>
      obtain ⟨tail, ht⟩ := List.isPrefixOf_iff_prefix.mp hp
      simp only [Option.some.injEq, Prod.mk.injEq] at h
      obtain ⟨rfl, rfl⟩ := h
      simp [← ht]
    · obtain ⟨⟨b, a⟩, hcut, heq⟩ := Option.map_eq_some_iff.mp h
      simp only [Prod.mk.injEq] at heq
      obtain ⟨rfl, rfl⟩ := heq
      simp [ih hcut]

end Text

end Hypertext
