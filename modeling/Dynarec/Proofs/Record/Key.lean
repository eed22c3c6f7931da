import Dynarec.Record.Store
import Mathlib.Data.Nat.ModEq

/-!
# Keys of records

The key of a record is made of three parts with a slash between them: the digest, the time in twenty
characters and the name of the run. Which records of an image stand together, and in which order,
is decided by the bytes of these parts alone.

## Main definitions

* `Dynarec.Instant.nanoseconds` — the time since the start of 1970, without a bound.
* `Dynarec.Instant.Representable` — it fits 64 bits.
* `Dynarec.Instant.ListedBefore` — the order in which keys put times.

## Main results

* `Dynarec.Store.inRange_iff` — the range of an image's keys is the keys with the common start.
* `Dynarec.begins_iff_between` — the keys with a common start are an interval, and its end is the
  least key above them.
* `Dynarec.Instant.timeText_lt_iff` — times from 1970 on are in order, those before it come first
  and in the opposite order.
* `Dynarec.Record.digestStart_prefix_key_iff`, `Dynarec.Record.key_inj` — digest, time and name are
  read off a key.
* `Dynarec.Record.key_lt_iff` — the order of two records of one image.

## Design

Two digit strings of the same width compare as their numbers do. The sign of a time before 1970
takes the place of a digit, so those times compare as their distances from 1970.
-/

set_option autoImplicit false

namespace Dynarec

/-! ## Instants -/

namespace Instant

/-- The number of nanoseconds since the start of 1970. -/
def nanoseconds (t : Instant) : Int :=
  t.seconds * 1000000000 + t.nanos

/-- A time whose number of nanoseconds fits 64 bits, with less than a second of nanoseconds. -/
structure Representable (t : Instant) : Prop where
  nanos_lt : t.nanos < 1000000000
  le_nanoseconds : -0x8000000000000000 ≤ t.nanoseconds
  nanoseconds_lt : t.nanoseconds < 0x8000000000000000

/-- Whether a time is representable is a comparison of numbers. -/
instance (t : Instant) : Decidable t.Representable :=
  decidable_of_iff
    (t.nanos < 1000000000 ∧ -0x8000000000000000 ≤ t.nanoseconds ∧
      t.nanoseconds < 0x8000000000000000)
    ⟨fun ⟨h₁, h₂, h₃⟩ => ⟨h₁, h₂, h₃⟩, fun ⟨h₁, h₂, h₃⟩ => ⟨h₁, h₂, h₃⟩⟩

/-- The order in which keys put two times: every time comes before a later one from 1970 on, and one
before 1970 comes before an earlier one. -/
def ListedBefore (s t : Instant) : Prop :=
  (s.nanoseconds < 0 ∧ t.nanoseconds < s.nanoseconds) ∨
    (0 ≤ t.nanoseconds ∧ s.nanoseconds < t.nanoseconds)

variable {s t : Instant}

/-- The nanoseconds of a representable time do not wrap around. -/
theorem unixNano_eq (h : t.Representable) : t.unixNano = t.nanoseconds :=
  BitVec.toInt_ofInt_eq_self (by decide) h.le_nanoseconds h.nanoseconds_lt

/-- Times with the same number of nanoseconds are the same, since each has less than a second of
them beside its seconds. -/
theorem eq_of_nanoseconds_eq (hs : s.Representable) (ht : t.Representable)
    (h : s.nanoseconds = t.nanoseconds) : s = t := by
  obtain ⟨a, m⟩ := s
  obtain ⟨b, n⟩ := t
  have hm := hs.nanos_lt
  have hn := ht.nanos_lt
  simp only [nanoseconds] at h hm hn
  simp only [mk.injEq]
  omega

/-- Eras of 400 years keep the year close to the number of days.

**Proof sketch.** These days lie in two eras of 400 years, counted from the year 0, and
inside an era the year is at most 400. -/
theorem year_dateOfDays {days : Int} (hlo : -110000 ≤ days) (hhi : days ≤ 110000) :
    1600 ≤ (dateOfDays days).1 ∧ (dateOfDays days).1 ≤ 2401 := by
  have hera : 4 ≤ (days + 719468).fdiv 146097 ∧ (days + 719468).fdiv 146097 ≤ 5 := by
    rw [Int.fdiv_eq_ediv_of_nonneg _ (by decide)]
    omega
  have hday : ((days + 719468).fmod 146097).toNat < 146097 := by
    rw [Int.fmod_eq_emod_of_nonneg _ (by decide)]
    omega
  simp only [dateOfDays]
  generalize (days + 719468).fdiv 146097 = era at hera ⊢
  generalize ((days + 719468).fmod 146097).toNat = dayOfEra at hday ⊢
  have hyear :
      (dayOfEra - dayOfEra / 1460 + dayOfEra / 36524 - dayOfEra / 146096) / 365 ≤ 400 := by
    omega
  generalize
    (dayOfEra - dayOfEra / 1460 + dayOfEra / 36524 - dayOfEra / 146096) / 365 = year at hyear ⊢
  split <;> split <;> omega

/-- The text of a time needs a year of four digits, and 64 bits of nanoseconds reach no further. -/
theorem hasText_of_representable (h : t.Representable) : t.hasText = true := by
  have hn := h.nanos_lt
  have hlo := h.le_nanoseconds
  have hhi := h.nanoseconds_lt
  simp only [nanoseconds] at hlo hhi
  have hday : -110000 ≤ t.seconds.fdiv 86400 ∧ t.seconds.fdiv 86400 ≤ 110000 := by
    rw [Int.fdiv_eq_ediv_of_nonneg _ (by decide)]
    omega
  have hyear := year_dateOfDays hday.1 hday.2
  rw [← date] at hyear
  simp only [hasText, Bool.and_eq_true, decide_eq_true_eq]
  omega

end Instant

/-! ## Bytes of text -/

/-- The bytes of two texts one behind the other. -/
theorem textBytes_append (s t : String) : textBytes (s ++ t) = textBytes s ++ textBytes t := by
  simp [textBytes]

/-- Texts with the same bytes are the same. -/
theorem textBytes_injective {s t : String} (h : textBytes s = textBytes t) : s = t := by
  have hmap : s.toByteArray.data.toList = t.toByteArray.data.toList :=
    (List.map_inj_right fun _ _ => UInt8.toBitVec_inj.1).1 h
  exact String.toByteArray_inj.1 (ByteArray.ext (Array.toList_inj.1 hmap))

/-- The bytes of a text are those of its characters, each by itself. -/
theorem textBytes_ofList (cs : List Char) :
    textBytes (String.ofList cs) =
      cs.flatMap fun c => (String.utf8EncodeChar c).map UInt8.toBitVec := by
  simp [textBytes, List.utf8Encode, List.map_flatMap]

/-- The byte of a slash. -/
def slash : Byte := 0x2F

/-- A character is its own byte, or has several bytes and none of them below 0x80.

**Proof sketch.** By the number of bytes: the bytes of a longer encoding all have their
highest bit set. -/
theorem toNat_of_mem_utf8EncodeChar {c : Char} {b : UInt8} (h : b ∈ String.utf8EncodeChar c) :
    b.toNat = c.val.toNat ∨ 0x80 ≤ b.toNat := by
  simp only [String.utf8EncodeChar] at h
  split_ifs at h
  all_goals simp only [List.mem_cons, List.not_mem_nil, or_false] at h
  · left
    rw [h, UInt8.toNat_ofNat']
    omega
  · right
    rcases h with rfl | rfl <;> simp only [UInt8.toNat_ofNat'] <;> omega
  · right
    rcases h with rfl | rfl | rfl <;> simp only [UInt8.toNat_ofNat'] <;> omega
  · right
    rcases h with rfl | rfl | rfl | rfl <;> simp only [UInt8.toNat_ofNat'] <;> omega

/-- Only a slash has the byte of one. -/
theorem slash_not_mem_textBytes {s : String} (h : '/' ∉ s.toList) : slash ∉ textBytes s := by
  rw [← String.ofList_toList (s := s), textBytes_ofList]
  intro hmem
  obtain ⟨c, hc, hbyte⟩ := List.mem_flatMap.1 hmem
  obtain ⟨b, hb, hslash⟩ := List.mem_map.1 hbyte
  have hbNat : b.toNat = 0x2F := congrArg BitVec.toNat hslash
  obtain hval | hval := toNat_of_mem_utf8EncodeChar hb
  · have hchar : c = '/' := Char.ext (UInt32.toNat_inj.1 (hval.symm.trans hbNat))
    exact h (hchar ▸ hc)
  · omega

/-- The byte of a character below 0x80. -/
def charByte (c : Char) : Byte :=
  BitVec.ofNat 8 c.toNat

/-- Characters below 128 have one byte each. -/
theorem textBytes_ofList_of_ascii {cs : List Char} (h : ∀ c ∈ cs, c.toNat < 0x80) :
    textBytes (String.ofList cs) = cs.map charByte := by
  rw [textBytes_ofList]
  induction cs with
  | nil => rfl
  | cons c cs ih =>
    have hc : c.val.toNat ≤ 127 := Nat.le_of_lt_succ (h c List.mem_cons_self)
    rw [List.flatMap_cons, ih fun d hd => h d (List.mem_cons_of_mem c hd), List.map_cons]
    simp only [String.utf8EncodeChar, if_pos hc, List.map_cons, List.map_nil, List.singleton_append]
    rfl

/-! ## Fixed-width decimals -/

/-- Text of equal length is compared where it first differs, so what follows only matters after
equal text. -/
theorem append_lt_append_iff {a b : Key} (x y : Key) (h : a.length = b.length) :
    a ++ x < b ++ y ↔ a < b ∨ a = b ∧ x < y := by
  induction a generalizing b with
  | nil =>
    have hb : b = [] := List.length_eq_zero_iff.1 h.symm
    subst hb
    simp
  | cons c a ih =>
    obtain _ | ⟨d, b⟩ := b
    · simp at h
    · have hlen : a.length = b.length := by simpa using h
      simp only [List.cons_append, List.cons_lt_cons_iff, ih hlen, List.cons.injEq]
      grind

/-- The codes of the ten digits. -/
theorem isDigit_bounds {c : Char} (h : c.isDigit = true) : 48 ≤ c.toNat ∧ c.toNat ≤ 57 :=
  Char.isDigit_iff_toNat.1 h

/-- The number of a digit string, with its first digit apart. -/
theorem ofDigitChars_cons_eq (c : Char) (cs : List Char) :
    Nat.ofDigitChars 10 (c :: cs) 0 =
      10 ^ cs.length * (c.toNat - 48) + Nat.ofDigitChars 10 cs 0 := by
  rw [Nat.ofDigitChars_cons, Nat.ofDigitChars_eq_ofDigitChars_zero, Nat.mul_zero, Nat.zero_add]
  rfl

/-- A digit string of a given length stands for a number below that power of ten. -/
theorem ofDigitChars_lt {cs : List Char} (h : ∀ c ∈ cs, c.isDigit = true) :
    Nat.ofDigitChars 10 cs 0 < 10 ^ cs.length := by
  induction cs with
  | nil => simp
  | cons c cs ih =>
    have hc := isDigit_bounds (h c List.mem_cons_self)
    have htail := ih fun d hd => h d (List.mem_cons_of_mem c hd)
    have hhead : 10 ^ cs.length * (c.toNat - 48) ≤ 10 ^ cs.length * 9 :=
      Nat.mul_le_mul_left _ (by omega)
    rw [ofDigitChars_cons_eq, List.length_cons, pow_succ]
    omega

/-- The first digit decides, whatever follows it. -/
theorem mul_add_lt_mul_add_of_lt {p a b x : Nat} (y : Nat) (hab : a < b) (hx : x < p) :
    p * a + x < p * b + y :=
  calc p * a + x < p * a + p := Nat.add_lt_add_left hx _
    _ = p * (a + 1) := (Nat.mul_succ p a).symm
    _ ≤ p * b := Nat.mul_le_mul_left p hab
    _ ≤ p * b + y := Nat.le_add_right _ _

/-- **Digit strings of one width compare as their numbers do.**

**Proof sketch.** By induction on both strings. If the first digits differ, they decide both
comparisons, since what follows a digit is less than one unit of it (`mul_add_lt_mul_add_of_lt`).
If they are the same, the rests decide. -/
theorem map_charByte_lt_iff {cs ds : List Char} (hcs : ∀ c ∈ cs, c.isDigit = true)
    (hds : ∀ d ∈ ds, d.isDigit = true) (hlen : cs.length = ds.length) :
    cs.map charByte < ds.map charByte ↔
      Nat.ofDigitChars 10 cs 0 < Nat.ofDigitChars 10 ds 0 := by
  induction cs generalizing ds with
  | nil =>
    have : ds = [] := List.length_eq_zero_iff.1 hlen.symm
    simp [this]
  | cons c cs ih =>
    obtain _ | ⟨d, ds⟩ := ds
    · simp at hlen
    have htail : cs.length = ds.length := by simpa using hlen
    have hcs' : ∀ x ∈ cs, x.isDigit = true := fun x hx => hcs x (List.mem_cons_of_mem c hx)
    have hds' : ∀ x ∈ ds, x.isDigit = true := fun x hx => hds x (List.mem_cons_of_mem d hx)
    have hc := isDigit_bounds (hcs c List.mem_cons_self)
    have hd := isDigit_bounds (hds d List.mem_cons_self)
    have hclt := ofDigitChars_lt hcs'
    have hdlt := ofDigitChars_lt hds'
    rw [← htail] at hdlt
    have hbyte : charByte c < charByte d ↔ c.toNat < d.toNat := by
      simp only [charByte, BitVec.lt_def, BitVec.toNat_ofNat]
      omega
    have hbyte' : charByte c = charByte d ↔ c.toNat = d.toNat := by
      simp only [charByte, ← BitVec.toNat_inj, BitVec.toNat_ofNat]
      omega
    rw [List.map_cons, List.map_cons, List.cons_lt_cons_iff, ih hcs' hds' htail,
      ofDigitChars_cons_eq, ofDigitChars_cons_eq, ← htail, hbyte, hbyte']
    obtain hlt | heq | hgt := Nat.lt_trichotomy c.toNat d.toNat
    · have := mul_add_lt_mul_add_of_lt (Nat.ofDigitChars 10 ds 0)
        (a := c.toNat - 48) (b := d.toNat - 48) (by omega) hclt
      simp [hlt, this]
    · simp [heq]
    · have := mul_add_lt_mul_add_of_lt (Nat.ofDigitChars 10 cs 0)
        (a := d.toNat - 48) (b := c.toNat - 48) (by omega) hdlt
      omega

/-- The number of a digit string is not changed by zeros in front. -/
theorem ofDigitChars_padded (width n : Nat) :
    Nat.ofDigitChars 10 (Text.padded width (Nat.toDigits 10 n)) 0 = n := by
  rw [Text.padded, Nat.ofDigitChars_append, Nat.ofDigitChars_replicate_zero, Nat.mul_zero,
    Nat.ofDigitChars_toDigits (by decide) (by decide)]

/-- The text of a number has only digits, the zeros in front included. -/
theorem isDigit_of_mem_padded {width n : Nat} {c : Char}
    (h : c ∈ Text.padded width (Nat.toDigits 10 n)) : c.isDigit = true := by
  obtain h | h := List.mem_append.1 h
  · rw [List.eq_of_mem_replicate h]
    rfl
  · exact Nat.isDigit_of_mem_toDigits (by decide) (by decide) h

/-- A number with no more digits than the width is as wide as it should be. -/
theorem length_padded {width : Nat} {digits : List Char} (h : digits.length ≤ width) :
    (Text.padded width digits).length = width := by
  simp only [Text.padded, List.length_append, List.length_replicate]
  omega

/-- **Numbers with at most `width` digits** compare as their text of that width does. The zeros
in front make the texts equally long and leave the numbers alone. -/
theorem padded_lt_iff {width m n : Nat} (hm : (Nat.toDigits 10 m).length ≤ width)
    (hn : (Nat.toDigits 10 n).length ≤ width) :
    (Text.padded width (Nat.toDigits 10 m)).map charByte <
        (Text.padded width (Nat.toDigits 10 n)).map charByte ↔ m < n := by
  rw [map_charByte_lt_iff (fun _ => isDigit_of_mem_padded) (fun _ => isDigit_of_mem_padded)
    ((length_padded hm).trans (length_padded hn).symm), ofDigitChars_padded, ofDigitChars_padded]

/-! ## The text of a time -/

/-- The characters of a time in a key.

**Proof sketch.** All characters of a time are digits but for the sign, so each is one byte. -/
theorem textBytes_timeText (n : Int) :
    textBytes (timeText n) =
      if n < 0 then charByte '-' :: (Text.padded 19 (Nat.toDigits 10 n.natAbs)).map charByte
      else (Text.padded 20 (Nat.toDigits 10 n.toNat)).map charByte := by
  have hascii {width k : Nat} {c : Char} (h : c ∈ Text.padded width (Nat.toDigits 10 k)) :
      c.toNat < 0x80 := by
    have := isDigit_bounds (isDigit_of_mem_padded h)
    omega
  rw [timeText, textBytes_ofList_of_ascii]
  · split <;> rfl
  · intro c hc
    split at hc
    · obtain rfl | hc := List.mem_cons.1 hc
      · decide
      · exact hascii hc
    · exact hascii hc

namespace Instant

variable {s t : Instant}

/-- Before 1970 a representable time has at most nineteen digits, so a sign fits in front of
them: `2 ^ 63` has nineteen. -/
theorem length_toDigits_natAbs (h : t.Representable) (hneg : t.nanoseconds < 0) :
    (Nat.toDigits 10 t.nanoseconds.natAbs).length ≤ 19 := by
  have := h.le_nanoseconds
  rw [Nat.length_toDigits_le_iff (by decide) (by decide)]
  omega

/-- From 1970 on a representable time has at most twenty digits. -/
theorem length_toDigits_toNat (h : t.Representable) :
    (Nat.toDigits 10 t.nanoseconds.toNat).length ≤ 20 := by
  have := h.nanoseconds_lt
  rw [Nat.length_toDigits_le_iff (by decide) (by decide)]
  omega

/-- The text of a time has twenty bytes. -/
theorem length_textBytes_timeText (h : t.Representable) :
    (textBytes (timeText t.nanoseconds)).length = 20 := by
  rw [textBytes_timeText]
  split
  · rw [List.length_cons, List.length_map, length_padded (length_toDigits_natAbs h ‹_›)]
  · rw [List.length_map, length_padded (length_toDigits_toNat h)]

/-- Twenty digits start with a digit, which is above the sign. -/
theorem sign_lt_head_padded (h : t.Representable) :
    ∃ c cs, (Text.padded 20 (Nat.toDigits 10 t.nanoseconds.toNat)).map charByte = c :: cs ∧
      charByte '-' < c := by
  have hlen := length_padded (length_toDigits_toNat h)
  have hdigit : ∀ c ∈ Text.padded 20 (Nat.toDigits 10 t.nanoseconds.toNat), c.isDigit = true :=
    fun _ => isDigit_of_mem_padded
  generalize Text.padded 20 (Nat.toDigits 10 t.nanoseconds.toNat) = text at hlen hdigit
  obtain _ | ⟨c, cs⟩ := text
  · simp at hlen
  · have hc := isDigit_bounds (hdigit c List.mem_cons_self)
    refine ⟨charByte c, cs.map charByte, rfl, ?_⟩
    have hsign : '-'.toNat = 45 := rfl
    simp only [charByte, BitVec.lt_def, BitVec.toNat_ofNat]
    omega

/-- **Keys put times in this order**: those before 1970 first, the latest of them in front, then
those from 1970 on, the earliest of them in front.

**Proof sketch.** By the signs. The sign comes before all digits, so times before 1970 come
first. Of two times with the same sign the padded digits are compared, which have the same length
(`padded_lt_iff`), and behind a sign they are those of the absolute value. -/
theorem timeText_lt_iff (hs : s.Representable) (ht : t.Representable) :
    textBytes (timeText s.nanoseconds) < textBytes (timeText t.nanoseconds) ↔
      s.ListedBefore t := by
  rw [textBytes_timeText, textBytes_timeText, ListedBefore]
  by_cases hs0 : s.nanoseconds < 0 <;> by_cases ht0 : t.nanoseconds < 0
  · rw [if_pos hs0, if_pos ht0, List.cons_lt_cons_iff,
      padded_lt_iff (length_toDigits_natAbs hs hs0) (length_toDigits_natAbs ht ht0)]
    simp only [BitVec.lt_irrefl, false_or, true_and]
    omega
  · obtain ⟨c, cs, hcs, hlt⟩ := sign_lt_head_padded ht
    rw [if_pos hs0, if_neg ht0, hcs, List.cons_lt_cons_iff]
    simp only [hlt, true_or, true_iff]
    omega
  · obtain ⟨c, cs, hcs, hlt⟩ := sign_lt_head_padded hs
    have hnlt : ¬ c < charByte '-' := fun h => BitVec.lt_irrefl _ (BitVec.lt_trans h hlt)
    have hne : c ≠ charByte '-' := fun h => BitVec.lt_irrefl _ (h ▸ hlt)
    rw [if_neg hs0, if_pos ht0, hcs, List.cons_lt_cons_iff]
    simp only [hnlt, hne, false_and, or_self, false_iff]
    omega
  · rw [if_neg hs0, if_neg ht0,
      padded_lt_iff (length_toDigits_toNat hs) (length_toDigits_toNat ht)]
    omega

/-- Times with the same text are the same. -/
theorem eq_of_timeText_eq (hs : s.Representable) (ht : t.Representable)
    (h : textBytes (timeText s.nanoseconds) = textBytes (timeText t.nanoseconds)) : s = t := by
  have hst := (timeText_lt_iff hs ht).not.1 (h ▸ List.lt_irrefl _)
  have hts := (timeText_lt_iff ht hs).not.1 (h ▸ List.lt_irrefl _)
  refine eq_of_nanoseconds_eq hs ht ?_
  simp only [ListedBefore] at hst hts
  omega

end Instant

/-! ## Ranges of keys -/

/-- The end of a range by its first byte: the rest is raised if it can be. -/
theorem upperBound?_cons (b : Byte) (start : Key) :
    upperBound? (b :: start) =
      match upperBound? start with
      | some bound => some (b :: bound)
      | none => if b = 0xFF then none else some [b + 1] := by
  simp only [upperBound?, List.reverse_cons, List.dropWhile_append]
  cases List.dropWhile (· == 0xFF) start.reverse with
  | nil =>
    by_cases hb : b = 0xFF
    · simp [hb]
    · have hbeq : (b == 0xFF) = false := beq_false_of_ne hb
      simp only [List.isEmpty_nil, if_true, List.dropWhile_cons, hbeq, Bool.false_eq_true,
        if_false, hb, List.reverse_nil, List.nil_append]
  | cons c rest => simp

/-- Raising a byte lets in that byte alone, unless it wraps. -/
theorem lt_add_one_iff {b k : Byte} (hb : b ≠ 0xFF) : k < b + 1 ↔ k < b ∨ k = b := by
  have hne : b.toNat ≠ 255 := fun h => hb (BitVec.eq_of_toNat_eq h)
  have hlt : (b + 1).toNat = b.toNat + 1 := by
    rw [BitVec.toNat_add]
    have := b.isLt
    have hone : (1 : Byte).toNat = 1 := rfl
    omega
  rw [BitVec.lt_def, BitVec.lt_def, hlt, ← BitVec.toNat_inj]
  omega

/-- **The keys in the range of a start are the keys that begin with it.**

**Proof sketch.** By induction on the start. A key that begins with another byte is outside
the range. Behind an equal byte the range is that of the rest of the start, and if the rest has
no bound, the bound is the next byte, if there is one. -/
theorem Store.inRange_iff (start key : Key) : inRange start key = true ↔ start <+: key := by
  induction start generalizing key with
  | nil => simp [inRange, upperBound?]
  | cons b start ih =>
    obtain _ | ⟨k, key⟩ := key
    · have hnle : ¬ (b :: start) ≤ ([] : Key) := fun h => h (List.nil_lt_cons b start)
      simp only [inRange, hnle, decide_false, Bool.false_and]
      split <;> simp
    · have hasymm : ¬ (b < k ∧ k < b) := fun h => BitVec.lt_irrefl _ (BitVec.lt_trans h.1 h.2)
      rw [List.cons_prefix_cons, ← ih]
      simp only [inRange, upperBound?_cons]
      cases upperBound? start with
      | some bound =>
        simp only [Bool.and_eq_true, decide_eq_true_eq, List.cons_le_cons_iff,
          List.cons_lt_cons_iff]
        grind
      | none =>
        by_cases hb : b = 0xFF
        · have hle : ¬ b < k := by
            have := k.isLt
            rw [hb, BitVec.lt_def]
            have hmax : (0xFF : Byte).toNat = 255 := rfl
            omega
          simp only [if_pos hb, decide_eq_true_eq, List.cons_le_cons_iff, hle, false_or]
        · simp only [if_neg hb, Bool.and_eq_true, decide_eq_true_eq, List.cons_le_cons_iff,
            List.cons_lt_cons_iff, lt_add_one_iff hb, List.not_lt_nil, and_false, or_false]
          grind

/-- A key is in the range of a start if it is not below it, and below the bound if there is one. -/
theorem Store.inRange_eq_true_iff (start key : Key) : inRange start key = true ↔
    start ≤ key ∧
      (upperBound? start = none ∨ ∃ bound, upperBound? start = some bound ∧ key < bound) := by
  unfold inRange
  cases upperBound? start <;> simp

/-- There is no bound exactly if no byte can be raised. -/
theorem upperBound?_eq_none_iff (start : Key) :
    upperBound? start = none ↔ ∀ b ∈ start, b = 0xFF := by
  induction start with
  | nil => simp [upperBound?]
  | cons b start ih =>
    rw [upperBound?_cons, List.forall_mem_cons, ← ih]
    cases upperBound? start with
    | some bound => simp
    | none => simp

/-- A bound is the least key above all keys that begin with the start: one that is above the start
and below the bound begins with the start itself. -/
theorem upperBound?_least {start bound : Key} (h : upperBound? start = some bound) :
    (∀ key, start <+: key → key < bound) ∧
      ∀ above, (∀ key, start <+: key → key < above) → bound ≤ above := by
  have hrange : ∀ key, start <+: key ↔ start ≤ key ∧ key < bound := fun key => by
    rw [← Store.inRange_iff, Store.inRange_eq_true_iff, h]
    simp
  refine ⟨fun key hkey => ((hrange key).1 hkey).2, fun above habove hlt => ?_⟩
  have hstart : start ≤ above := List.le_of_lt (habove start (List.prefix_refl start))
  exact List.lt_irrefl above (habove above ((hrange above).2 ⟨hstart, hlt⟩))

/-- **The keys that begin with a start are an interval.** They are the keys from the start on, up to
the bound if there is one, which there is unless the start is empty or has no byte that can be
raised. The bound is the least key above all of them, and without one there is no such key.

**Proof sketch.** The range of a start is the interval, and it holds the keys that begin with
the start (`Store.inRange_iff`). The bound is above all of them and the least such
(`upperBound?_least`). A least one is there only once, and without a bound the range goes on for
ever, so there is none. -/
theorem begins_iff_between (start : Key) :
    (∀ key, start <+: key ↔ start ≤ key ∧
      (upperBound? start = none ∨ ∃ bound, upperBound? start = some bound ∧ key < bound)) ∧
    (upperBound? start = none ↔ start = [] ∨ ∀ b ∈ start, b = 0xFF) ∧
    ∀ bound, upperBound? start = some bound ↔ (∀ key, start <+: key → key < bound) ∧
      ∀ above, (∀ key, start <+: key → key < above) → bound ≤ above := by
  have hrange : ∀ key, start <+: key ↔ start ≤ key ∧
      (upperBound? start = none ∨ ∃ bound, upperBound? start = some bound ∧ key < bound) :=
    fun key => (Store.inRange_iff start key).symm.trans (Store.inRange_eq_true_iff start key)
  refine ⟨hrange, ?_, fun bound => ⟨upperBound?_least, ?_⟩⟩
  · rw [upperBound?_eq_none_iff]
    refine ⟨.inr, ?_⟩
    rintro (rfl | hall)
    · simp
    · exact hall
  · rintro ⟨habove, hleast⟩
    have hstart : start ≤ bound := List.le_of_lt (habove start (List.prefix_refl start))
    cases hbound : upperBound? start with
    | none =>
      have hlt : bound < bound := habove bound ((hrange bound).2 ⟨hstart, .inl hbound⟩)
      exact absurd hlt (List.lt_irrefl bound)
    | some least =>
      obtain ⟨habove', hleast'⟩ := upperBound?_least hbound
      rw [List.le_antisymm (hleast' bound habove) (hleast least habove')]

example : upperBound? [0x01, 0xFF] = some [0x02] ∧ upperBound? [0xFF, 0xFF] = none := by decide

/-! ## Keys of records -/

/-- Text without a slash is read off in front of the first slash.

**Proof sketch.** By induction on the first text: where one of the two ends, the slash that
follows is no byte of the other. -/
theorem prefix_slash_iff {a b rest : Key} (ha : slash ∉ a) (hb : slash ∉ b) :
    a ++ [slash] <+: b ++ slash :: rest ↔ a = b := by
  induction a generalizing b with
  | nil =>
    obtain _ | ⟨d, b⟩ := b
    · simp
    · have : slash ≠ d := fun h => hb (h ▸ List.mem_cons_self)
      simp [List.cons_prefix_cons, this]
  | cons c a ih =>
    have hc : c ≠ slash := fun h => ha (h ▸ List.mem_cons_self)
    obtain _ | ⟨d, b⟩ := b
    · simp [List.cons_prefix_cons, hc]
    · rw [List.cons_append, List.cons_append, List.cons_prefix_cons, List.cons.injEq,
        ih (fun h => ha (List.mem_cons_of_mem c h)) fun h => hb (List.mem_cons_of_mem d h)]

/-- What the keys of a digest begin with, as three lists of bytes. -/
theorem digestStart_eq (digest : String) :
    digestStart digest = textBytes "run/" ++ (textBytes digest ++ [slash]) := by
  have hslash : textBytes "/" = [slash] := by decide
  rw [digestStart, textBytes_append, textBytes_append, hslash, List.append_assoc]

namespace Record

variable {r r' : Record}

/-- The three parts of a key. -/
theorem key_eq (h : r.finished.Representable) :
    r.key = textBytes "run/" ++ (textBytes r.digest ++ slash ::
      (textBytes (timeText r.finished.nanoseconds) ++ slash :: textBytes r.runId)) := by
  have hslash : textBytes "/" = [slash] := by decide
  rw [key, digestStart_eq, Instant.unixNano_eq h, textBytes_append, textBytes_append, hslash]
  simp only [List.append_assoc, List.cons_append, List.nil_append]

/-- The keys of an image are those of its own records, digests having no slash. -/
theorem digestStart_prefix_key_iff {digest : String} (hr : '/' ∉ r.digest.toList)
    (hfin : r.finished.Representable) (hd : '/' ∉ digest.toList) :
    digestStart digest <+: r.key ↔ r.digest = digest := by
  rw [key_eq hfin, digestStart_eq, List.prefix_append_right_inj,
    prefix_slash_iff (slash_not_mem_textBytes hd) (slash_not_mem_textBytes hr)]
  exact ⟨fun h => (textBytes_injective h).symm, fun h => h ▸ rfl⟩

/-- Digest, time and name of the run are all read off a key.

**Proof sketch.** The digest is what stands in front of the first slash
(`digestStart_prefix_key_iff`). The time behind it always has the same length, and the rest is
the name of the run. -/
theorem key_inj (hr : '/' ∉ r.digest.toList) (hr' : '/' ∉ r'.digest.toList)
    (hfin : r.finished.Representable) (hfin' : r'.finished.Representable) :
    r.key = r'.key ↔
      r.digest = r'.digest ∧ r.finished = r'.finished ∧ r.runId = r'.runId := by
  refine ⟨fun h => ?_, fun ⟨hdigest, hfinished, hid⟩ => ?_⟩
  · have hdigest : r.digest = r'.digest := by
      refine (digestStart_prefix_key_iff hr hfin hr').1 ?_
      rw [h]
      exact (digestStart_prefix_key_iff hr' hfin' hr').2 rfl
    rw [key_eq hfin, key_eq hfin', hdigest] at h
    have htail := (List.cons.inj (List.append_cancel_left (List.append_cancel_left h))).2
    obtain ⟨htime, hid⟩ := List.append_inj htail
      ((Instant.length_textBytes_timeText hfin).trans
        (Instant.length_textBytes_timeText hfin').symm)
    exact ⟨hdigest, Instant.eq_of_timeText_eq hfin hfin' htime,
      textBytes_injective (List.cons.inj hid).2⟩
  · rw [key, key, hdigest, hfinished, hid]

/-- **The order of the keys of one image**: by time, and at one time by the name of the run. -/
theorem key_lt_iff (hr : r.finished.Representable) (hr' : r'.finished.Representable)
    (hdigest : r.digest = r'.digest) :
    r.key < r'.key ↔
      r.finished.ListedBefore r'.finished ∨
        r.finished = r'.finished ∧ textBytes r.runId < textBytes r'.runId := by
  have hlen : (textBytes (timeText r.finished.nanoseconds)).length =
      (textBytes (timeText r'.finished.nanoseconds)).length :=
    (Instant.length_textBytes_timeText hr).trans (Instant.length_textBytes_timeText hr').symm
  have htime : textBytes (timeText r.finished.nanoseconds) =
      textBytes (timeText r'.finished.nanoseconds) ↔ r.finished = r'.finished :=
    ⟨Instant.eq_of_timeText_eq hr hr', fun h => h ▸ rfl⟩
  rw [key_eq hr, key_eq hr', hdigest, append_lt_append_iff _ _ rfl, append_lt_append_iff _ _ rfl,
    List.cons_lt_cons_iff, append_lt_append_iff _ _ hlen, List.cons_lt_cons_iff,
    Instant.timeText_lt_iff hr hr', htime]
  simp only [List.lt_irrefl, BitVec.lt_irrefl, false_or, true_and]

end Record

end Dynarec
