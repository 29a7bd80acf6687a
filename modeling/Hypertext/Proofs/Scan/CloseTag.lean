import Hypertext.Proofs.Scan.Search

/-!
# The first end tag of raw text

An end tag is described by the bytes of a text alone: `</`, the bytes of the name in any letter
case, bytes of blanks, and `>`. All of these are ASCII, so it is made of whole characters wherever
it stands. What the search finds is the leftmost such stretch of bytes, and it finds nothing only
if there is none.
-/

namespace Hypertext.Scan

set_option autoImplicit false

variable {s name : Text} {start stop : Nat}

/-- The bytes from one offset to another are those of an end tag of the name. -/
def SpansCloseTag (s name : Text) (start stop : Nat) : Prop :=
  ∃ before written blanks after : List UInt8,
    s.bytes = before ++ '<'.toUInt8 :: '/'.toUInt8 ::
      (written ++ (blanks ++ '>'.toUInt8 :: after)) ∧
    written.map lowerByte = name.bytes.map lowerByte ∧
    (∀ b ∈ blanks, isBlankByte b = true) ∧
    start = before.length ∧ stop = start + (2 + (written.length + (blanks.length + 1)))

/-! ## Characters by their bytes -/

/-- Where the byte of an ASCII character stands, the character stands. -/
theorem exists_of_bytes_eq {c : Char} (hc : IsAscii c) {t : Text} {before after : List UInt8}
    (h : t.bytes = before ++ c.toUInt8 :: after) :
    ∃ u v : Text, t = u ++ c :: v ∧ u.bytes = before ∧ v.bytes = after := by
  induction t generalizing before with
  | nil => simp [Text.bytes] at h
  | cons d t ih =>
    have hlater : ∀ later, before = String.utf8EncodeChar d ++ later →
        Text.bytes t = later ++ c.toUInt8 :: after →
        ∃ u v : Text, d :: t = u ++ c :: v ∧ u.bytes = before ∧ v.bytes = after := by
      rintro later rfl ht
      obtain ⟨u, v, rfl, hu, hv⟩ := ih ht
      refine ⟨d :: u, v, rfl, ?_, hv⟩
      rw [Text.bytes_cons, hu]
    rw [Text.bytes_cons] at h
    rcases List.append_eq_append_iff.mp h with ⟨later, hbefore, ht⟩ | ⟨own, hown, hrest⟩
    · exact hlater later hbefore ht
    rcases List.cons_eq_append_iff.mp hrest with ⟨rfl, ht⟩ | ⟨others, rfl, hafter⟩
    · rw [List.append_nil] at hown
      exact hlater [] (by rw [List.append_nil, hown]) ht
    · -- the byte belongs to `d`, which then has no other byte
      have hbyte : c.toUInt8 ∈ String.utf8EncodeChar d := by simp [hown]
      have hd := beq_toUInt8 hc hbyte
      rw [beq_self_eq_true] at hd
      obtain rfl : d = c := eq_of_beq hd.symm
      rw [utf8EncodeChar_of_isAscii hc, eq_comm] at hown
      rcases List.append_eq_singleton_iff.mp hown with ⟨rfl, hone⟩ | ⟨-, hnil⟩
      · obtain rfl := (List.cons.inj hone).2
        exact ⟨[], t, rfl, rfl, hafter.symm⟩
      · cases hnil

theorem isBlank_of_bytes {t : Text} (h : ∀ b ∈ t.bytes, isBlankByte b = true) :
    ∀ c ∈ t, isBlank c = true := by
  intro c hc
  obtain ⟨b, later, -, hb⟩ := bytes_cons_eq c t
  have hmem : b ∈ String.utf8EncodeChar c := by simp [hb]
  rw [← tells_isBlankByte c b hmem]
  exact h b (List.mem_flatMap.mpr ⟨c, hc, hmem⟩)

theorem bytes_eq_nil_iff {t : Text} : t.bytes = [] ↔ t = [] := by
  constructor
  · intro h
    cases t with
    | nil => rfl
    | cons c t =>
      obtain ⟨b, later, hbytes, -⟩ := bytes_cons_eq c t
      rw [hbytes] at h
      cases h
  · rintro rfl
    rfl

/-! ## End tags by their bytes -/

theorem bytes_closeTag (written blanks : Text) :
    Text.bytes ('<' :: '/' :: (written ++ (blanks ++ ['>']))) =
      '<'.toUInt8 :: '/'.toUInt8 :: (written.bytes ++ (blanks.bytes ++ ['>'.toUInt8])) := by
  rw [Text.bytes_cons, Text.bytes_cons, Text.bytes_append, Text.bytes_append]
  rfl

theorem size_closeTag (written blanks : Text) :
    Text.size ('<' :: '/' :: (written ++ (blanks ++ ['>']))) =
      2 + (written.bytes.length + (blanks.bytes.length + 1)) := by
  rw [← Text.length_bytes, bytes_closeTag]
  simp only [List.length_cons, List.length_append, List.length_nil]
  omega

section Ascii
variable (hname : ∀ c ∈ name, IsAscii c)
include hname

theorem map_lowerByte_bytes_eq {written : Text} (h : written.lowercase = name.lowercase) :
    written.bytes.map lowerByte = name.bytes.map lowerByte := by
  have hlength := Text.length_eq_of_lowercase_eq h
  have hbytes := ((map_lowerByte_take_bytes_iff hname written).mpr
    (by rwa [List.take_of_length_le hlength.le])).2
  rwa [List.take_of_length_le (by rw [Text.length_bytes, size_eq_of_lowercase_eq hname h])] at hbytes

/-- A text whose bytes begin with those of the name begins with the name. -/
theorem exists_of_map_lowerByte_eq {t : Text} {written rest : List UInt8}
    (h : t.bytes = written ++ rest) (hwritten : written.map lowerByte = name.bytes.map lowerByte) :
    ∃ u v : Text, t = u ++ v ∧ u.lowercase = name.lowercase ∧ u.bytes = written ∧
      v.bytes = rest := by
  have hlength : written.length = name.size := by
    simpa using congrArg List.length hwritten
  have hle : name.size ≤ t.size := by
    rw [← Text.length_bytes t, h, List.length_append]
    omega
  have hlower : Text.lowercase (t.take name.length) = name.lowercase := by
    apply (map_lowerByte_take_bytes_iff hname t).mp
    rw [h, ← hlength, List.take_left]
    exact ⟨hlength ▸ hle, hwritten⟩
  have hsize := size_eq_of_lowercase_eq hname hlower
  have hsplit : Text.bytes (t.take name.length) ++ Text.bytes (t.drop name.length) =
      written ++ rest := by
    rw [← Text.bytes_append, List.take_append_drop, h]
  obtain ⟨hu, hv⟩ := List.append_inj hsplit (by rw [Text.length_bytes, hsize, hlength])
  exact ⟨_, _, (List.take_append_drop name.length t).symm, hlower, hu, hv⟩

theorem spansCloseTag_iff :
    SpansCloseTag s name start stop ↔ ∃ before tag rest : Text,
      s = before ++ (tag ++ rest) ∧ IsCloseTag name tag ∧
        start = before.size ∧ stop = before.size + tag.size := by
  constructor
  · rintro ⟨before, written, blanks, after, hbytes, hwritten, hblanks, rfl, rfl⟩
    obtain ⟨u, v, rfl, rfl, hv⟩ := exists_of_bytes_eq (by decide) hbytes
    obtain ⟨w, t, rfl, hw, ht⟩ := @exists_of_bytes_eq '/' (by decide) v [] _ hv
    obtain rfl := bytes_eq_nil_iff.mp hw
    obtain ⟨letters, r, rfl, hletters, rfl, hr⟩ := exists_of_map_lowerByte_eq hname ht hwritten
    obtain ⟨gap, rest, rfl, rfl, -⟩ := exists_of_bytes_eq (by decide) hr
    refine ⟨u, '<' :: '/' :: (letters ++ (gap ++ ['>'])), rest, by simp, ?_, ?_, ?_⟩
    · exact ⟨letters, gap, hletters, isBlank_of_bytes hblanks, rfl⟩
    · exact Text.length_bytes u
    · rw [size_closeTag, Text.length_bytes u]
  · rintro ⟨before, tag, rest, rfl, ⟨letters, gap, hletters, hgap, rfl⟩, rfl, rfl⟩
    refine ⟨before.bytes, letters.bytes, gap.bytes, rest.bytes, ?_, ?_, ?_, ?_, ?_⟩
    · rw [Text.bytes_append, Text.bytes_append, bytes_closeTag]
      simp only [List.cons_append, List.append_assoc, List.nil_append]
    · exact map_lowerByte_bytes_eq hname hletters
    · exact tells_isBlankByte.forall_bytes hgap
    · exact (Text.length_bytes before).symm
    · rw [size_closeTag]

/-- Where an end tag starts decides where it is over. -/
theorem SpansCloseTag.stop_unique {stop' : Nat} (h : SpansCloseTag s name start stop)
    (h' : SpansCloseTag s name start stop') : stop = stop' := by
  obtain ⟨before, tag, rest, hs, htag, hstart, rfl⟩ := (spansCloseTag_iff hname).mp h
  obtain ⟨before', tag', rest', rfl, htag', hstart', rfl⟩ := (spansCloseTag_iff hname).mp h'
  have hcut := cutAt?_size_append before (tag ++ rest)
  rw [← hs, ← hstart, hstart', cutAt?_size_append] at hcut
  obtain ⟨rfl, hrest⟩ := Prod.mk.inj (Option.some.inj hcut)
  have hread := htag.readCloseTag?_append rest
  rw [← hrest, htag'.readCloseTag?_append] at hread
  obtain ⟨rfl, -⟩ := Prod.mk.inj (Option.some.inj hread)
  rfl

theorem spansCloseTag_of_closeTagRange? (h : closeTagRange? name s = some (start, stop)) :
    SpansCloseTag s name start stop := by
  obtain ⟨⟨before, tag, rest⟩, hcut, hrange⟩ := Option.map_eq_some_iff.mp h
  obtain ⟨rfl, rfl⟩ := Prod.mk.inj hrange
  apply (spansCloseTag_iff hname).mpr
  exact ⟨before, tag, rest, (eq_of_cutCloseTag?_eq_some hcut).symm, (of_cutCloseTag?_eq_some hcut).2,
    rfl, rfl⟩

/-- No end tag starts before the one that is found. -/
theorem SpansCloseTag.exists_closeTagRange? (h : SpansCloseTag s name start stop) :
    ∃ first last, closeTagRange? name s = some (first, last) ∧ first ≤ start := by
  obtain ⟨before, tag, rest, rfl, htag, rfl, -⟩ := (spansCloseTag_iff hname).mp h
  obtain ⟨found, hcut, later, rfl⟩ := exists_cutCloseTag?_eq_some htag before rest
  refine ⟨found.1.size, found.1.size + found.2.1.size, ?_, ?_⟩
  · rw [closeTagRange?, hcut]
    rfl
  · rw [Text.size_append]
    exact Nat.le_add_right _ _

theorem isLeast_of_closeTagRange? (h : closeTagRange? name s = some (start, stop)) :
    IsLeast {k | ∃ l, SpansCloseTag s name k l} start := by
  constructor
  · exact ⟨stop, spansCloseTag_of_closeTagRange? hname h⟩
  · rintro k ⟨l, hspans⟩
    obtain ⟨first, last, hfirst, hle⟩ := hspans.exists_closeTagRange? hname
    rw [h] at hfirst
    obtain ⟨rfl, -⟩ := Prod.mk.inj (Option.some.inj hfirst)
    exact hle

end Ascii

/-! ## The search -/

theorem map_closeTagOffsets (s name : Text) :
    (cutCloseTag? name s).map (closeTagOffsets s) = closeTagRange? name s := by
  apply Option.map_congr
  rintro ⟨before, tag, rest⟩ hcut
  obtain rfl := eq_of_cutCloseTag?_eq_some hcut
  rw [closeTagOffsets, offset_append, ← List.append_assoc, offset_append, Text.size_append]

/-- The search for an end tag comes to an end without a fault. It finds the leftmost one, wherever
it failed before, and it finds nothing exactly if there is none. -/
theorem findCloseTag_leftmost (hname : ∀ c ∈ name, IsAscii c) (s : Text) :
    findCloseTag s name = .ok (closeTagRange? name s) ∧
      (∀ start stop, closeTagRange? name s = some (start, stop) ↔
        IsLeast {k | ∃ l, SpansCloseTag s name k l} start ∧ SpansCloseTag s name start stop) ∧
      (closeTagRange? name s = none ↔ ∀ start stop, ¬ SpansCloseTag s name start stop) := by
  refine ⟨?_, ?_, ?_⟩
  · rw [findCloseTag_eq hname, map_closeTagOffsets]
  · intro start stop
    constructor
    · intro h
      exact ⟨isLeast_of_closeTagRange? hname h, spansCloseTag_of_closeTagRange? hname h⟩
    · rintro ⟨hleast, hspans⟩
      obtain ⟨first, last, hfound, -⟩ := hspans.exists_closeTagRange? hname
      obtain rfl := (isLeast_of_closeTagRange? hname hfound).unique hleast
      have hfirst := spansCloseTag_of_closeTagRange? hname hfound
      rwa [hspans.stop_unique hname hfirst]
  · constructor
    · intro h start stop hspans
      obtain ⟨first, last, hfound, -⟩ := hspans.exists_closeTagRange? hname
      rw [h] at hfound
      cases hfound
    · intro h
      rw [Option.eq_none_iff_forall_ne_some]
      rintro ⟨start, stop⟩ hfound
      exact h start stop (spansCloseTag_of_closeTagRange? hname hfound)

/-- Two stretches are no end tags, one for a character behind the blank and one for its name. -/
theorem findCloseTag_leftmost_nested :
    (∀ c ∈ "script".toList, IsAscii c) ∧
    findCloseTag "é</</script x></scr</SCRIPT\n >a</script>".toList "script".toList =
      .ok (some (20, 31)) ∧
    SpansCloseTag "é</</script x></scr</SCRIPT\n >a</script>".toList "script".toList 20 31 ∧
    ∀ start stop, ¬ SpansCloseTag "é</script</scr".toList "script".toList start stop := by
  have hname : ∀ c ∈ "script".toList, IsAscii c := by simp [IsAscii]
  have hrange : closeTagRange? "script".toList
      "é</</script x></scr</SCRIPT\n >a</script>".toList = some (20, 31) := by decide +kernel
  have hnone : closeTagRange? "script".toList "é</script</scr".toList = none := by decide +kernel
  obtain ⟨hfind, hsome, -⟩ :=
    findCloseTag_leftmost hname "é</</script x></scr</SCRIPT\n >a</script>".toList
  rw [hrange] at hfind
  refine ⟨hname, hfind, ((hsome 20 31).mp hrange).2, ?_⟩
  exact (findCloseTag_leftmost hname "é</script</scr".toList).2.2.mp hnone

end Hypertext.Scan
