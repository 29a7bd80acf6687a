import Hypertext.Proofs.Scan.Basic
import Hypertext.Proofs.Text.Basic

/-!
# Offsets by what is left

An offset at which reading goes on is given by the rest of the text behind it. There it lies on
a character boundary, the bytes from it on are those of the rest, and loops over bytes that tell
apart ASCII characters only stop where the corresponding loop over characters stops.
-/

namespace Hypertext

set_option autoImplicit false

/-! ## Bytes -/

namespace Text

theorem bytes_cons (c : Char) (t : Text) : bytes (c :: t) = String.utf8EncodeChar c ++ t.bytes :=
  List.flatMap_cons

@[simp] theorem bytes_append (s t : Text) : (s ++ t).bytes = s.bytes ++ t.bytes :=
  List.flatMap_append

@[simp] theorem length_bytes (t : Text) : t.bytes.length = t.size := by
  induction t with
  | nil => rfl
  | cons c t ih => rw [bytes_cons, List.length_append, String.length_utf8EncodeChar, ih, size_cons]

end Text

namespace Scan

/-- The characters of one byte. -/
def IsAscii (c : Char) : Prop :=
  c.toNat < 128

instance (c : Char) : Decidable (IsAscii c) :=
  inferInstanceAs (Decidable (c.toNat < 128))

section Encoding
variable {c d : Char}

theorem utf8Size_eq_one_iff : c.utf8Size = 1 ↔ IsAscii c := by
  rw [Char.utf8Size_eq_one_iff, UInt32.le_iff_toNat_le, IsAscii]
  exact Nat.lt_succ_iff.symm

theorem utf8EncodeChar_of_isAscii (h : IsAscii c) : String.utf8EncodeChar c = [c.toUInt8] :=
  String.utf8EncodeChar_eq_singleton (utf8Size_eq_one_iff.mpr h)

theorem toNat_toUInt8 (h : IsAscii c) : c.toUInt8.toNat = c.toNat := by
  have hmod : c.toUInt8.toNat = c.toNat % 256 := rfl
  rw [hmod, Nat.mod_eq_of_lt (by unfold IsAscii at h; omega)]

/-- All bytes of a longer character are apart from ASCII. -/
theorem le_of_mem_utf8EncodeChar (h : ¬ IsAscii c) {b : UInt8}
    (hb : b ∈ String.utf8EncodeChar c) : 128 ≤ b.toNat := by
  have hc : ¬ c.val.toNat ≤ 127 := fun hle => h (Nat.lt_succ_of_le hle)
  rw [String.utf8EncodeChar] at hb
  simp only [if_neg hc] at hb
  split_ifs at hb
  all_goals
    simp only [List.mem_cons, List.not_mem_nil, or_false] at hb
    rcases hb with rfl | rfl | rfl | rfl
  all_goals
    simp only [UInt8.toNat_ofNat']
    omega

theorem toUInt8_inj (hc : IsAscii c) (hd : IsAscii d) : c.toUInt8 = d.toUInt8 ↔ c = d := by
  rw [← UInt8.toNat_inj, toNat_toUInt8 hc, toNat_toUInt8 hd, Char.toNat_inj]

theorem beq_toUInt8 (hd : IsAscii d) {b : UInt8} (hb : b ∈ String.utf8EncodeChar c) :
    (b == d.toUInt8) = (c == d) := by
  rw [Bool.eq_iff_iff, beq_iff_eq, beq_iff_eq]
  by_cases hc : IsAscii c
  · rw [utf8EncodeChar_of_isAscii hc, List.mem_singleton] at hb
    rw [hb, toUInt8_inj hc hd]
  · have hlarge := le_of_mem_utf8EncodeChar hc hb
    constructor
    · rintro rfl
      rw [toNat_toUInt8 hd] at hlarge
      exact absurd hlarge (Nat.not_le_of_lt hd)
    · rintro rfl
      exact absurd hd hc

end Encoding

/-- A kind of bytes that tells apart the characters of a kind by each of their bytes. -/
def Tells (p : UInt8 → Bool) (q : Char → Bool) : Prop :=
  ∀ c, ∀ b ∈ String.utf8EncodeChar c, p b = q c

theorem tells_isBlankByte : Tells isBlankByte isBlank := by
  intro c b hb
  simp only [isBlankByte, isBlank]
  rw [beq_toUInt8 (by decide) hb, beq_toUInt8 (by decide) hb, beq_toUInt8 (by decide) hb,
    beq_toUInt8 (by decide) hb, beq_toUInt8 (by decide) hb]

theorem tells_endsTagNameByte : Tells endsTagNameByte endsTagName := by
  intro c b hb
  simp only [endsTagNameByte, endsTagName]
  rw [tells_isBlankByte c b hb, beq_toUInt8 (by decide) hb, beq_toUInt8 (by decide) hb]

theorem tells_endsAttributeNameByte : Tells endsAttributeNameByte endsAttributeName := by
  intro c b hb
  simp only [endsAttributeNameByte, endsAttributeName]
  rw [tells_endsTagNameByte c b hb, beq_toUInt8 (by decide) hb]

theorem Tells.not {p : UInt8 → Bool} {q : Char → Bool} (h : Tells p q) :
    Tells (fun b => !p b) fun c => !q c := by
  intro c b hb
  exact congrArg Bool.not (h c b hb)

/-! ## Offsets -/

/-- Where the rest of a text starts. -/
def offset (s rest : Text) : Nat :=
  s.size - rest.size

variable {s run rest after t : Text} {c : Char}

theorem suffix_of_append (h : run ++ after <:+ s) : after <:+ s :=
  (List.suffix_append run after).trans h

theorem suffix_of_cons (h : c :: t <:+ s) : t <:+ s :=
  (List.suffix_cons c t).trans h

theorem offset_self (s : Text) : offset s s = 0 :=
  Nat.sub_self _

theorem offset_nil (s : Text) : offset s [] = s.size := rfl

theorem size_le_of_suffix (h : rest <:+ s) : rest.size ≤ s.size := by
  obtain ⟨before, rfl⟩ := h
  rw [Text.size_append]
  omega

theorem offset_le (s rest : Text) : offset s rest ≤ s.size :=
  Nat.sub_le _ _

theorem offset_append (before rest : Text) : offset (before ++ rest) rest = before.size := by
  rw [offset, Text.size_append, Nat.add_sub_cancel]

theorem offset_add_size (h : run ++ after <:+ s) :
    offset s (run ++ after) + run.size = offset s after := by
  have hsize := size_le_of_suffix h
  rw [Text.size_append] at hsize
  rw [offset, offset, Text.size_append]
  omega

theorem offset_add_one (hc : IsAscii c) (h : c :: t <:+ s) :
    offset s (c :: t) + 1 = offset s t := by
  have hadd := @offset_add_size s [c] t h
  rwa [Text.size_cons, utf8Size_eq_one_iff.mpr hc] at hadd

theorem offset_add_two {d : Char} (hc : IsAscii c) (hd : IsAscii d) (h : c :: d :: t <:+ s) :
    offset s (c :: d :: t) + 2 = offset s t := by
  rw [← offset_add_one hd (suffix_of_cons h), ← offset_add_one hc h]

theorem offset_lt (h : c :: t <:+ s) : offset s (c :: t) < s.size := by
  have hsize := size_le_of_suffix h
  have hpos := c.utf8Size_pos
  rw [Text.size_cons] at hsize
  rw [offset, Text.size_cons]
  omega

/-- What is left gets less exactly when the offset gets greater. -/
theorem offset_lt_offset (h : run ++ after <:+ s) (hne : run ≠ []) :
    offset s (run ++ after) < offset s after := by
  obtain ⟨c, rest, rfl⟩ := List.exists_cons_of_ne_nil hne
  have hadd := offset_add_size h
  have hpos := c.utf8Size_pos
  rw [Text.size_cons] at hadd
  omega

theorem offset_lt_offset_of_length (h : rest <:+ s) (hafter : after <:+ s)
    (hlt : after.length < rest.length) : offset s rest < offset s after := by
  obtain ⟨run, rfl⟩ := List.suffix_of_suffix_length_le hafter h (Nat.le_of_lt hlt)
  apply offset_lt_offset h
  rintro rfl
  exact Nat.lt_irrefl _ hlt

/-! ## Checked access -/

@[simp] theorem ok_bind {α β : Type} (a : α) (f : α → Except Fault β) :
    (Except.ok a >>= f) = f a := rfl

@[simp] theorem pure_eq_ok {α : Type} (a : α) : (pure a : Except Fault α) = .ok a := rfl

theorem cutAt?_size_append (before after : Text) :
    cutAt? before.size (before ++ after) = some (before, after) := by
  induction before with
  | nil => rw [Text.size_nil, List.nil_append, cutAt?]
  | cons c before ih =>
    obtain ⟨n, hn⟩ := Nat.exists_eq_succ_of_ne_zero
      (Nat.ne_of_gt (Nat.add_pos_left c.utf8Size_pos (Text.size before)))
    have hsize : n + 1 = c.utf8Size + Text.size before := hn.symm
    have hrest : n + 1 - c.utf8Size = Text.size before := by omega
    rw [Text.size_cons, List.cons_append, hn, cutAt?, if_pos (by omega), hrest, ih]
    rfl

theorem eq_of_cutAt?_eq_some {n : Nat} {before : Text} (h : cutAt? n t = some (before, after)) :
    before ++ after = t ∧ Text.size before = n := by
  induction t generalizing n before with
  | nil =>
    cases n with
    | zero =>
      obtain ⟨rfl, rfl⟩ := Prod.mk.inj (Option.some.inj h)
      exact ⟨rfl, rfl⟩
    | succ n => cases h
  | cons c t ih =>
    cases n with
    | zero =>
      obtain ⟨rfl, rfl⟩ := Prod.mk.inj (Option.some.inj h)
      exact ⟨rfl, rfl⟩
    | succ n =>
      rw [cutAt?] at h
      split at h
      · next hfits =>
        obtain ⟨⟨b, a⟩, hcut, heq⟩ := Option.map_eq_some_iff.mp h
        obtain ⟨rfl, rfl⟩ := Prod.mk.inj heq
        obtain ⟨rfl, hsize⟩ := ih hcut
        refine ⟨rfl, ?_⟩
        rw [Text.size_cons, hsize]
        omega
      · cases h

/-- A stretch is there exactly when both of its ends are cuts of the text, in their order. -/
theorem stretch_eq_ok_iff {start stop : Nat} :
    stretch s start stop = .ok run ↔
      ∃ before after, s = before ++ run ++ after ∧ Text.size before = start ∧
        Text.size (before ++ run) = stop := by
  constructor
  · intro h
    unfold stretch at h
    split at h
    · cases h
    · next whole after hstop =>
      split at h
      · cases h
      · next before found hstart =>
        obtain rfl := Except.ok.inj h
        obtain ⟨rfl, rfl⟩ := eq_of_cutAt?_eq_some hstop
        obtain ⟨rfl, rfl⟩ := eq_of_cutAt?_eq_some hstart
        exact ⟨before, after, rfl, rfl, rfl⟩
  · rintro ⟨before, after, rfl, rfl, rfl⟩
    rw [stretch, cutAt?_size_append]
    dsimp only
    rw [cutAt?_size_append]

-- the second byte of a longer character is no cut
example : stretch ['é', '<'] 1 3 = .error (.stretch 1 3) := rfl

theorem stretch_offset (h : run ++ after <:+ s) :
    stretch s (offset s (run ++ after)) (offset s after) = .ok run := by
  obtain ⟨before, rfl⟩ := h
  apply stretch_eq_ok_iff.mpr
  refine ⟨before, after, by rw [List.append_assoc], (offset_append _ _).symm, ?_⟩
  rw [← List.append_assoc, offset_append]

theorem tail_offset (h : rest <:+ s) : tail s (offset s rest) = .ok rest := by
  have hwhole : rest ++ [] <:+ s := by rwa [List.append_nil]
  have hstretch := stretch_offset hwhole
  rwa [List.append_nil, offset_nil] at hstretch

theorem drop_bytes (h : rest <:+ s) : s.bytes.drop (offset s rest) = rest.bytes := by
  obtain ⟨before, rfl⟩ := h
  rw [offset_append, Text.bytes_append, ← Text.length_bytes, List.drop_left]

theorem getElem?_bytes (h : rest <:+ s) : s.bytes[offset s rest]? = rest.bytes.head? := by
  rw [← List.head?_drop, drop_bytes h]

theorem lt_size_of_drop {k : Nat} {b : UInt8} {later : List UInt8}
    (h : s.bytes.drop k = b :: later) : k < s.size := by
  have hlength := congrArg List.length h
  rw [List.length_drop, Text.length_bytes, List.length_cons] at hlength
  omega

theorem byteAt_of_drop {k : Nat} {b : UInt8} {later : List UInt8}
    (h : s.bytes.drop k = b :: later) : byteAt s k = .ok b := by
  rw [byteAt, ← List.head?_drop, h]
  rfl

theorem bytes_cons_eq (c : Char) (t : Text) :
    ∃ b later, Text.bytes (c :: t) = b :: (later ++ t.bytes) ∧
      String.utf8EncodeChar c = b :: later := by
  obtain ⟨b, later, hb⟩ := List.exists_cons_of_ne_nil (@String.utf8EncodeChar_ne_nil c)
  exact ⟨b, later, by rw [Text.bytes_cons, hb, List.cons_append], hb⟩

theorem byteAt_offset (h : c :: t <:+ s) :
    ∃ b ∈ String.utf8EncodeChar c, byteAt s (offset s (c :: t)) = .ok b := by
  obtain ⟨b, later, hbytes, hb⟩ := bytes_cons_eq c t
  refine ⟨b, by simp [hb], ?_⟩
  exact byteAt_of_drop (by rw [drop_bytes h, hbytes])

theorem isAt_offset {d : Char} (hd : IsAscii d) (h : rest <:+ s) :
    isAt s (offset s rest) d = .ok (rest.head? == some d) := by
  cases rest with
  | nil =>
    rw [isAt, offset_nil, if_neg (Nat.lt_irrefl _)]
    rfl
  | cons c t =>
    obtain ⟨b, hb, hread⟩ := byteAt_offset h
    rw [isAt, if_pos (offset_lt h), hread, ok_bind, beq_toUInt8 hd hb]
    rfl

/-! ## Loops -/

section Loop
variable {σ β : Type} {measure : σ → Nat} {step : σ → Except Fault (σ ⊕ β)} {state next : σ}

theorem loop_leave {result : β} (h : step state = .ok (.inr result)) :
    loop s measure step state = .ok result := by
  rw [loop, h]

theorem loop_again (h : step state = .ok (.inl next)) (hlt : measure state < measure next)
    (hle : measure next ≤ s.size) :
    loop s measure step state = loop s measure step next := by
  rw [loop, h]
  exact dif_pos ⟨hlt, hle⟩

/-- A loop gives the result it is meant to give if every pass does, or else goes on with less
that is left, in a state that is meant to give the same. -/
theorem loop_of_passes (meant : Text → σ → β → Prop) {result : β}
    (hstands : ∀ {rest state}, meant rest state result →
      rest <:+ s ∧ measure state = offset s rest)
    (hpass : ∀ {rest state}, meant rest state result →
      step state = .ok (.inr result) ∨ ∃ after next, step state = .ok (.inl next) ∧
        meant after next result ∧ after.length < rest.length)
    (h : meant rest state result) : loop s measure step state = .ok result := by
  induction hn : rest.length using Nat.strong_induction_on generalizing rest state with
  | _ n ih =>
    rcases hpass h with hleave | ⟨after, next, hagain, hnext, hlt⟩
    · exact loop_leave hleave
    · obtain ⟨hrest, hhere⟩ := hstands h
      obtain ⟨hafter, hthere⟩ := hstands hnext
      have hmove := offset_lt_offset_of_length hrest hafter hlt
      rw [← hhere, ← hthere] at hmove
      have hle : measure next ≤ s.size := by
        rw [hthere]
        exact offset_le s after
      rw [loop_again hagain hmove hle]
      exact ih after.length (hn ▸ hlt) hnext rfl

end Loop

section Skip
variable {p : UInt8 → Bool} {q : Char → Bool}

theorem skipWhile_of_drop {k : Nat} {run after : List UInt8} (h : s.bytes.drop k = run ++ after)
    (hrun : ∀ b ∈ run, p b = true) (hafter : ∀ b ∈ after.head?, p b = false) :
    skipWhile s p k = .ok (k + run.length) := by
  induction run generalizing k with
  | nil =>
    apply loop_leave
    rw [skipPass]
    cases after with
    | nil =>
      have hle := List.drop_eq_nil_iff.mp h
      rw [Text.length_bytes] at hle
      rw [if_neg (Nat.not_lt_of_le hle)]
      rfl
    | cons b after =>
      rw [if_pos (lt_size_of_drop h), byteAt_of_drop h, ok_bind, hafter b rfl]
      rfl
  | cons b run ih =>
    obtain ⟨hb, hrun⟩ := List.forall_mem_cons.mp hrun
    have hlt := lt_size_of_drop h
    have hnext : s.bytes.drop (k + 1) = run ++ after := by
      rw [← List.drop_drop, h, List.cons_append, List.drop_one, List.tail_cons]
    have hpass : skipPass s p k = .ok (.inl (k + 1)) := by
      rw [skipPass, if_pos hlt, byteAt_of_drop h, ok_bind, hb]
      rfl
    rw [skipWhile, loop_again hpass (Nat.lt_succ_self k) hlt, ← skipWhile, ih hnext hrun,
      List.length_cons]
    congr 1
    omega

theorem Tells.forall_bytes (h : Tells p q) {run : Text} (hrun : ∀ c ∈ run, q c = true) :
    ∀ b ∈ run.bytes, p b = true := by
  intro b hb
  obtain ⟨c, hc, hbyte⟩ := List.mem_flatMap.mp hb
  rw [h c b hbyte, hrun c hc]

theorem Tells.head?_bytes (h : Tells p q) {after : Text} (hafter : ∀ c ∈ after.head?, q c = false) :
    ∀ b ∈ after.bytes.head?, p b = false := by
  intro b hb
  cases after with
  | nil => cases hb
  | cons c t =>
    obtain ⟨first, later, hbytes, hfirst⟩ := bytes_cons_eq c t
    rw [hbytes] at hb
    obtain rfl : first = b := Option.some.inj hb
    rw [h c first (by simp [hfirst]), hafter c rfl]

theorem skipWhile_offset (h : Tells p q) (hrest : rest <:+ s) :
    skipWhile s p (offset s rest) = .ok (offset s (rest.dropWhile q)) := by
  have hsplit := List.takeWhile_append_dropWhile (p := q) (l := rest)
  have hwhole : rest.takeWhile q ++ rest.dropWhile q <:+ s := by rwa [hsplit]
  have hbytes : s.bytes.drop (offset s rest) =
      Text.bytes (rest.takeWhile q) ++ Text.bytes (rest.dropWhile q) := by
    rw [drop_bytes hrest, ← Text.bytes_append, hsplit]
  have hskip := skipWhile_of_drop hbytes
    (h.forall_bytes fun c hc => List.mem_takeWhile_imp hc)
    (h.head?_bytes fun c hc => Text.of_mem_head?_dropWhile hc)
  have hadd := offset_add_size hwhole
  rw [hsplit] at hadd
  rw [hskip, Text.length_bytes, hadd]

/-- The first byte of a character is stepped over; its other bytes are skipped by themselves. -/
theorem skipWhile_offset_add_one (h : Tells p q) (hc : IsAscii c ∨ q c = true)
    (hrest : c :: t <:+ s) :
    skipWhile s p (offset s (c :: t) + 1) = .ok (offset s (t.dropWhile q)) := by
  rcases hc with hc | hc
  · rw [offset_add_one hc hrest]
    exact skipWhile_offset h (suffix_of_cons hrest)
  · obtain ⟨first, later, hbytes, hfirst⟩ := bytes_cons_eq c t
    have hsplit := List.takeWhile_append_dropWhile (p := q) (l := t)
    have hwhole : (c :: t.takeWhile q) ++ t.dropWhile q <:+ s := by rwa [List.cons_append, hsplit]
    have hdrop : s.bytes.drop (offset s (c :: t) + 1) =
        later ++ Text.bytes (t.takeWhile q) ++ Text.bytes (t.dropWhile q) := by
      rw [← List.drop_drop, drop_bytes hrest, hbytes, List.append_assoc, ← Text.bytes_append,
        hsplit, List.drop_one, List.tail_cons]
    have hlater : ∀ b ∈ later ++ Text.bytes (t.takeWhile q), p b = true := by
      rw [List.forall_mem_append]
      refine ⟨?_, h.forall_bytes fun d hd => List.mem_takeWhile_imp hd⟩
      intro b hb
      rw [h c b (by rw [hfirst]; exact List.mem_cons_of_mem _ hb), hc]
    have hskip := skipWhile_of_drop hdrop hlater
      (h.head?_bytes fun d hd => Text.of_mem_head?_dropWhile hd)
    have hlength := congrArg List.length hfirst
    rw [String.length_utf8EncodeChar, List.length_cons] at hlength
    have hadd := offset_add_size hwhole
    rw [List.cons_append, hsplit, Text.size_cons] at hadd
    rw [hskip, List.length_append, Text.length_bytes, ← hadd, hlength]
    congr 1
    omega

end Skip

end Scan

end Hypertext
