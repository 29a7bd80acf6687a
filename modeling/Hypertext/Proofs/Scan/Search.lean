import Hypertext.Proofs.Scan.Offset
import Hypertext.Proofs.Lexeme.CloseTag

/-!
# Searching by offsets

Marks, words in any letter case and end tags of raw text are found by offsets where they are
found in the text. A search that has failed at one `</` goes on behind it; nothing is passed
over, since no end tag starts at its slash.
-/

namespace Hypertext.Scan

set_option autoImplicit false

variable {s rest : Text}

/-! ## Single characters -/

theorem find?_singleton (stop : Char) (t : Text) :
    find? [stop] t =
      if (Text.upTo stop t).2.1 then some (Text.upTo stop t).1.size else none := by
  induction t with
  | nil => rfl
  | cons c t ih =>
    unfold find? at ih ⊢
    by_cases hc : c = stop
    · subst hc
      simp [Text.cut?, Text.upTo]
    · have hnot : List.isPrefixOf [stop] (c :: t) = false := by
        simpa [List.isPrefixOf] using Ne.symm hc
      rw [Text.cut?, if_neg (Bool.eq_false_iff.mp hnot), Option.map_map, Text.upTo, if_neg hc]
      dsimp only
      split_ifs at ih ⊢ with hfound
      · obtain ⟨found, hcut, hsize⟩ := Option.map_eq_some_iff.mp ih
        simp [hcut, hsize]
      · rw [Option.map_eq_none_iff] at ih ⊢
        exact ih

/-- What is left from the first `stop` on, or nothing if there is none. -/
def restFrom (stop : Char) (t : Text) : Text :=
  Text.closing stop (Text.upTo stop t).2.1 ++ (Text.upTo stop t).2.2

theorem upTo_append_restFrom (stop : Char) (t : Text) :
    (Text.upTo stop t).1 ++ restFrom stop t = t :=
  Text.upTo_eq stop t

theorem restFrom_of_not_found {stop : Char} {t : Text} (h : (Text.upTo stop t).2.1 = false) :
    restFrom stop t = [] := by
  rw [restFrom, Text.upTo_not_found t h, h]
  rfl

/-- A character that is found stands behind what does not hold it. -/
theorem find?_singleton_cases (stop : Char) (t : Text) :
    stop ∉ t ∧ find? [stop] t = none ∨
      ∃ before after : Text, stop ∉ before ∧ t = before ++ stop :: after ∧
        find? [stop] t = some before.size := by
  have hwhole := upTo_append_restFrom stop t
  have hbefore : stop ∉ (Text.upTo stop t).1 := Text.notMem_upTo t
  rw [find?_singleton]
  cases hfound : (Text.upTo stop t).2.1 with
  | false =>
    rw [restFrom_of_not_found hfound, List.append_nil] at hwhole
    rw [hwhole] at hbefore
    exact .inl ⟨hbefore, rfl⟩
  | true =>
    rw [restFrom, hfound] at hwhole
    exact .inr ⟨_, _, hbefore, hwhole.symm, rfl⟩

theorem findFrom_offset (stop : Char) (h : rest <:+ s) :
    findFrom [stop] s (offset s rest) = .ok (offset s (restFrom stop rest)) := by
  have hsplit := upTo_append_restFrom stop rest
  rw [findFrom, tail_offset h, ok_bind, find?_singleton]
  cases hfound : (Text.upTo stop rest).2.1 with
  | false =>
    rw [restFrom_of_not_found hfound]
    rfl
  | true =>
    have hwhole : (Text.upTo stop rest).1 ++ restFrom stop rest <:+ s := by rwa [hsplit]
    have hadd := offset_add_size hwhole
    rw [hsplit] at hadd
    rw [if_pos rfl, pure_eq_ok, ← hadd]

/-- Behind the character that was found, if there was one, and not behind the end of the text. -/
theorem min_offset_restFrom {stop : Char} (hstop : IsAscii stop) (h : rest <:+ s) :
    min (offset s (restFrom stop rest) + 1) s.size = offset s (Text.upTo stop rest).2.2 := by
  cases hfound : (Text.upTo stop rest).2.1 with
  | false =>
    rw [restFrom_of_not_found hfound, Text.upTo_not_found rest hfound, offset_nil]
    exact Nat.min_eq_right (Nat.le_succ _)
  | true =>
    have hsplit := upTo_append_restFrom stop rest
    have hcons : restFrom stop rest = stop :: (Text.upTo stop rest).2.2 := by
      rw [restFrom, hfound]
      rfl
    have hwhole : stop :: (Text.upTo stop rest).2.2 <:+ s := by
      rw [← hcons]
      rw [← hsplit] at h
      exact suffix_of_append h
    rw [hcons, offset_add_one hstop hwhole]
    exact Nat.min_eq_left (offset_le _ _)

/-! ## Words in any letter case -/

section Letters
variable {c d : Char}

theorem forall_isAscii {P : Char → Prop} (h : ∀ n < 128, P (Char.ofNat n)) (hc : IsAscii c) :
    P c := by
  have hself := h c.toNat hc
  rwa [Char.ofNat_toNat] at hself

theorem isAscii_of_isAlpha (h : c.isAlpha = true) : IsAscii c := by
  have hrange : 65 ≤ c.toNat ∧ c.toNat ≤ 90 ∨ 97 ≤ c.toNat ∧ c.toNat ≤ 122 := by
    simpa [Char.isAlpha, Char.isUpper, Char.isLower, UInt32.le_iff_toNat_le] using h
  unfold IsAscii
  omega

theorem toLower_of_not_isAscii (h : ¬ IsAscii c) : c.toLower = c := by
  apply Char.toLower_eq_of_not_isUpper
  intro hupper
  apply h
  apply isAscii_of_isAlpha
  rw [Char.isAlpha, hupper, Bool.true_or]

theorem isAscii_toLower_iff : IsAscii c.toLower ↔ IsAscii c := by
  constructor
  · intro hlower
    by_contra hc
    rw [toLower_of_not_isAscii hc] at hlower
    exact hc hlower
  · intro hc
    apply forall_isAscii (P := fun c => IsAscii c.toLower) _ hc
    decide +kernel

theorem lowerByte_toUInt8 (hc : IsAscii c) : lowerByte c.toUInt8 = c.toLower.toUInt8 := by
  apply forall_isAscii (P := fun c => lowerByte c.toUInt8 = c.toLower.toUInt8) _ hc
  decide +kernel

theorem lowerByte_eq_iff (hc : IsAscii c) (hd : IsAscii d) :
    lowerByte c.toUInt8 = lowerByte d.toUInt8 ↔ c.toLower = d.toLower := by
  rw [lowerByte_toUInt8 hc, lowerByte_toUInt8 hd,
    toUInt8_inj (isAscii_toLower_iff.mpr hc) (isAscii_toLower_iff.mpr hd)]

/-- A byte of a longer character is no letter. -/
theorem isAlphaByte_eq_false {b : UInt8} (hb : 128 ≤ b.toNat) : isAlphaByte b = false := by
  have hupper : ¬ b ≤ 'Z'.toUInt8 := by
    rw [UInt8.le_iff_toNat_le]
    change ¬ b.toNat ≤ 90
    omega
  have hlower : ¬ b ≤ 'z'.toUInt8 := by
    rw [UInt8.le_iff_toNat_le]
    change ¬ b.toNat ≤ 122
    omega
  simp [isAlphaByte, isUpperByte, hupper, hlower]

theorem lowerByte_ne {b : UInt8} (hb : 128 ≤ b.toNat) (hd : IsAscii d) :
    lowerByte b ≠ lowerByte d.toUInt8 := by
  have hupper : isUpperByte b = false := by
    have halpha := isAlphaByte_eq_false hb
    rw [isAlphaByte, Bool.or_eq_false_iff] at halpha
    exact halpha.1
  rw [lowerByte_toUInt8 hd, lowerByte, hupper, if_neg Bool.false_ne_true]
  intro heq
  rw [heq, toNat_toUInt8 (isAscii_toLower_iff.mpr hd)] at hb
  exact absurd (isAscii_toLower_iff.mpr hd) (Nat.not_lt_of_le hb)

end Letters

section Word
variable {word : Text} (hword : ∀ c ∈ word, IsAscii c)
include hword

theorem size_eq_length : word.size = word.length := by
  induction word with
  | nil => rfl
  | cons c word ih =>
    obtain ⟨hc, hword⟩ := List.forall_mem_cons.mp hword
    rw [Text.size_cons, utf8Size_eq_one_iff.mpr hc, ih hword, List.length_cons, Nat.add_comm]

theorem forall_isAscii_of_lowercase_eq {t : Text} (h : t.lowercase = word.lowercase) :
    ∀ c ∈ t, IsAscii c := by
  intro c hc
  have hmem : c.toLower ∈ word.lowercase := by
    rw [← h]
    exact List.mem_map_of_mem hc
  obtain ⟨d, hd, heq⟩ := List.mem_map.mp hmem
  rw [← isAscii_toLower_iff, ← heq, isAscii_toLower_iff]
  exact hword d hd

theorem size_eq_of_lowercase_eq {t : Text} (h : t.lowercase = word.lowercase) :
    t.size = word.size := by
  rw [size_eq_length hword, size_eq_length (forall_isAscii_of_lowercase_eq hword h),
    Text.length_eq_of_lowercase_eq h]

/-- Bytes begin with those of an ASCII word, in any case, where the text begins with it. -/
theorem map_lowerByte_take_bytes_iff (t : Text) :
    word.size ≤ t.size ∧ (t.bytes.take word.size).map lowerByte = word.bytes.map lowerByte ↔
      Text.lowercase (t.take word.length) = word.lowercase := by
  induction word generalizing t with
  | nil => simp [Text.lowercase, Text.bytes]
  | cons d word ih =>
    obtain ⟨hd, hword⟩ := List.forall_mem_cons.mp hword
    rw [Text.size_cons, utf8Size_eq_one_iff.mpr hd, Text.bytes_cons, utf8EncodeChar_of_isAscii hd,
      List.length_cons]
    cases t with
    | nil => simp [Text.lowercase]
    | cons c t =>
      rw [List.take_succ_cons]
      simp only [Text.lowercase, List.map_cons, List.cons.injEq]
      by_cases hc : IsAscii c
      · rw [Text.size_cons, utf8Size_eq_one_iff.mpr hc, Text.bytes_cons,
          utf8EncodeChar_of_isAscii hc, List.singleton_append, List.singleton_append,
          Nat.add_comm 1 (Text.size word), List.take_succ_cons]
        simp only [List.map_cons, List.cons.injEq]
        rw [lowerByte_eq_iff hc hd, ← Text.lowercase, ← Text.lowercase, ← ih hword t]
        constructor
        · rintro ⟨hle, hlower, hbytes⟩
          exact ⟨hlower, by omega, hbytes⟩
        · rintro ⟨hlower, hle, hbytes⟩
          exact ⟨by omega, hlower, hbytes⟩
      · obtain ⟨b, later, hbytes, hb⟩ := bytes_cons_eq c t
        have hlarge := le_of_mem_utf8EncodeChar hc (b := b) (by simp [hb])
        have hlower : c.toLower ≠ d.toLower := by
          intro heq
          rw [← isAscii_toLower_iff, heq, isAscii_toLower_iff] at hc
          exact hc hd
        rw [hbytes, List.singleton_append, Nat.add_comm 1 (Text.size word), List.take_succ_cons]
        simp [hlower, lowerByte_ne hlarge hd]

theorem beginsAt_offset (h : rest <:+ s) :
    beginsAt s (offset s rest) word =
      .ok (decide (Text.lowercase (rest.take word.length) = word.lowercase)) := by
  have hsize := size_le_of_suffix h
  have hfits : offset s rest + word.size ≤ s.size ↔ word.size ≤ rest.size := by
    unfold offset
    omega
  have hiff := map_lowerByte_take_bytes_iff hword rest
  rw [beginsAt]
  split
  · next hle =>
    rw [byteStretch, if_pos ⟨Nat.le_add_right _ _, hle⟩, drop_bytes h, Nat.add_sub_cancel_left,
      ok_bind, pure_eq_ok, Except.ok.injEq, Bool.eq_iff_iff, beq_iff_eq, decide_eq_true_iff, ← hiff]
    exact (and_iff_right (hfits.mp hle)).symm
  · next hle =>
    rw [pure_eq_ok, Except.ok.injEq, eq_comm, decide_eq_false_iff_not, ← hiff]
    exact fun hbegins => hle (hfits.mpr hbegins.1)

end Word

/-! ## End tags of raw text -/

section CloseTag
variable {name : Text}

theorem readCloseTag?_eq_none {t : Text} (h : ¬ ['<', '/'] <+: t) :
    readCloseTag? name t = none := by
  unfold readCloseTag?
  split
  · next text =>
    exact absurd ⟨text, rfl⟩ h
  · rfl

theorem cutCloseTag?_of_find?_eq_none {t : Text} (h : Text.cut? ['<', '/'] t = none) :
    cutCloseTag? name t = none := by
  induction t with
  | nil => rfl
  | cons c t ih =>
    rw [Text.cut?] at h
    split at h
    · cases h
    · next hhere =>
      rw [List.isPrefixOf_iff_prefix] at hhere
      rw [cutCloseTag?, readCloseTag?_eq_none hhere, ih (Option.map_eq_none_iff.mp h)]
      rfl

/-- Where an end tag stands in a text, by what is left from its `<` on and behind its `>`. -/
def closeTagOffsets (s : Text) (found : Text × Text × Text) : Nat × Nat :=
  (offset s (found.2.1 ++ found.2.2), offset s found.2.2)

theorem map_cutCloseTag?_of_cut? {t before after : Text}
    (h : Text.cut? ['<', '/'] t = some (before, after)) :
    (cutCloseTag? name t).map (closeTagOffsets s) =
      (cutCloseTag? name ('<' :: '/' :: after)).map (closeTagOffsets s) := by
  induction t generalizing before with
  | nil => cases h
  | cons c t ih =>
    have hwhole := Text.eq_of_cut?_eq_some h
    rw [Text.cut?] at h
    split at h
    · next hhere =>
      obtain ⟨rfl, -⟩ := Prod.mk.inj (Option.some.inj h)
      rw [← hwhole]
      rfl
    · next hhere =>
      rw [List.isPrefixOf_iff_prefix] at hhere
      obtain ⟨⟨b, a⟩, hcut, heq⟩ := Option.map_eq_some_iff.mp h
      obtain ⟨-, rfl⟩ := Prod.mk.inj heq
      rw [← ih hcut, cutCloseTag?, readCloseTag?_eq_none hhere, Option.map_map]
      rfl

/-- Behind a `</` that is not an end tag of the name, the search goes on behind the slash. -/
theorem map_cutCloseTag?_of_readCloseTag? {after : Text}
    (h : readCloseTag? name ('<' :: '/' :: after) = none) :
    (cutCloseTag? name ('<' :: '/' :: after)).map (closeTagOffsets s) =
      (cutCloseTag? name after).map (closeTagOffsets s) := by
  have hslash : readCloseTag? name ('/' :: after) = none :=
    readCloseTag?_eq_none (by simp)
  rw [cutCloseTag?, h, cutCloseTag?, hslash, Option.map_map, Option.map_map]
  rfl

/-- The search for an end tag has come to an offset with what is left, and is to give a result. -/
structure SearchesCloseTag (s name rest : Text) (k : Nat) (result : Option (Nat × Nat)) :
    Prop where
  suffix : rest <:+ s
  offset_eq : k = offset s rest
  result_eq : (cutCloseTag? name rest).map (closeTagOffsets s) = result

variable (hname : ∀ c ∈ name, IsAscii c)
include hname

theorem closeTagEnd?_offset {after : Text} (h : '<' :: '/' :: after <:+ s) :
    closeTagEnd? s name (offset s ('<' :: '/' :: after)) =
      .ok ((readCloseTag? name ('<' :: '/' :: after)).map fun found => offset s found.2) := by
  have hafter := suffix_of_cons (suffix_of_cons h)
  rw [closeTagEnd?, offset_add_two (by decide) (by decide) h, beginsAt_offset hname hafter,
    ok_bind, readCloseTag?]
  by_cases hlower : Text.lowercase (after.take name.length) = name.lowercase
  · have hsplit := List.take_append_drop name.length after
    have hwhole : after.take name.length ++ after.drop name.length <:+ s := by rwa [hsplit]
    have hend := offset_add_size hwhole
    rw [hsplit, size_eq_of_lowercase_eq hname hlower] at hend
    have hrest := (List.dropWhile_suffix isBlank).trans (suffix_of_append hwhole)
    rw [if_pos (decide_eq_true hlower), if_pos hlower, hend,
      skipWhile_offset tells_isBlankByte (suffix_of_append hwhole), ok_bind,
      isAt_offset (by decide) hrest, ok_bind, pure_eq_ok]
    rcases hclose : (after.drop name.length).dropWhile isBlank with _ | ⟨c, rest⟩
    · rfl
    · rw [hclose] at hrest
      by_cases hc : c = '>'
      · subst hc
        rw [List.head?_cons, beq_self_eq_true, if_pos rfl, offset_add_one (by decide) hrest]
        rfl
      · simp [hc]
  · rw [if_neg (by simpa using hlower), if_neg hlower]
    rfl

/-- One pass finds what there is to be found, or else is behind a `</` that is no end tag of
the name, and nothing is lost by that. -/
theorem SearchesCloseTag.pass {k : Nat} {result : Option (Nat × Nat)}
    (h : SearchesCloseTag s name rest k result) :
    closeTagPass s name k = .ok (.inr result) ∨
      ∃ after next, closeTagPass s name k = .ok (.inl next) ∧
        SearchesCloseTag s name after next result ∧ after.length < rest.length := by
  obtain ⟨hsuffix, rfl, rfl⟩ := h
  rw [closeTagPass, tail_offset hsuffix, ok_bind, find?]
  cases hcut : Text.cut? ['<', '/'] rest with
  | none =>
    left
    rw [cutCloseTag?_of_find?_eq_none hcut]
    rfl
  | some cut =>
    obtain ⟨before, after⟩ := cut
    have hwhole : before ++ '<' :: '/' :: after = rest := Text.eq_of_cut?_eq_some hcut
    subst hwhole
    have hhere := suffix_of_append hsuffix
    rw [Option.map_some]
    dsimp only
    rw [offset_add_size hsuffix, closeTagEnd?_offset hname hhere, ok_bind,
      map_cutCloseTag?_of_cut? hcut]
    cases hread : readCloseTag? name ('<' :: '/' :: after) with
    | some found =>
      left
      obtain ⟨tag, behind⟩ := found
      rw [cutCloseTag?, hread, Option.map_some, Option.map_some, closeTagOffsets,
        eq_of_readCloseTag?_eq_some hread]
      rfl
    | none =>
      right
      refine ⟨after, offset s after, ?_, ⟨suffix_of_cons (suffix_of_cons hhere), rfl, ?_⟩, ?_⟩
      · rw [← offset_add_two (by decide) (by decide) hhere]
        rfl
      · exact (map_cutCloseTag?_of_readCloseTag? hread).symm
      · rw [List.length_append, List.length_cons, List.length_cons]
        omega

/-- The search by offsets finds the end tag that is found in the text. -/
theorem findCloseTag_eq (s : Text) :
    findCloseTag s name = .ok ((cutCloseTag? name s).map (closeTagOffsets s)) := by
  apply loop_of_passes (SearchesCloseTag s name)
  · exact fun h => ⟨h.suffix, h.offset_eq⟩
  · exact fun h => h.pass hname
  · exact ⟨List.suffix_refl s, (offset_self s).symm, rfl⟩

end CloseTag

end Hypertext.Scan
