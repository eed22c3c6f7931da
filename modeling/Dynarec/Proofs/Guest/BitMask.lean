import Dynarec.Guest.BitMask
import Mathlib.Data.Nat.ModEq
import Mathlib.Tactic.IntervalCases

/-!
# The bits of logical immediates

A mask repeats one rotated run of ones. Its bits are described by a comparison modulo the size of an
element, and from the bits of a mask its element size, its run and its rotation can be told.

## Main definitions

* `Dynarec.Guest.BitMask.bit` — whether a position lies in a rotated, repeated run.
* `Dynarec.Guest.BitMask.sizeField` — the seven bits that tell the size of an element.
* `Dynarec.Guest.BitMask.IsHighest` — the highest set bit of a word.

## Main results

* `Dynarec.Guest.BitMask.expand_eq_some` — which fields have a mask, and its bits.
* `Dynarec.Guest.BitMask.run_unique` — equal masks have equal elements.
* `Dynarec.Guest.BitMask.expand_inj` — what the fields of equal masks have in common.
* `Dynarec.Guest.BitMask.expand_iff_bits` — the mask of any three fields, bit by bit.
-/

set_option autoImplicit false

namespace Dynarec.Guest.BitMask

/-! ## Bits of a mask -/

/-- Whether bit `i` is set where every `size` bits hold ones up to position `last`, rotated right by
`rotation`. -/
def bit (size last rotation i : Nat) : Bool :=
  (i + rotation) % size ≤ last

/-- An element is repeated: the bits are those of the element, counted modulo its size. -/
theorem bit_add_size (size last rotation i : Nat) :
    bit size last rotation (i + size) = bit size last rotation i := by
  rw [bit, bit, Nat.add_right_comm, Nat.add_mod_right]

/-- The bits of one element.

**Proof sketch.** An element is a run of ones that is rotated within its size. Ones whose
place plus the rotation stays within the size have moved down; the others left at the bottom and
came back at the top, where the remainder is one size less. -/
theorem getLsbD_element {size last rotation i : Nat} (hsize : size ≤ 64) (hlast : last < size)
    (hrotation : rotation < size) (hi : i < 64) :
    (element size (last + 1) rotation).getLsbD i =
      (decide (i < size) && bit size last rotation i) := by
  rw [Bool.eq_iff_iff]
  simp only [element, bit, BitVec.getLsbD_and, BitVec.getLsbD_or, BitVec.getLsbD_ushiftRight,
    BitVec.getLsbD_shiftLeft, BitVec.getLsbD_setWidth, BitVec.getLsbD_allOnes, hi, Bool.and_eq_true,
    Bool.or_eq_true, Bool.not_eq_true', decide_eq_true_eq, decide_eq_false_iff_not, true_and]
  -- The ones that leave the element at the bottom come back at its top.
  by_cases hlow : i + rotation < size
  · rw [Nat.mod_eq_of_lt hlow]
    omega
  · by_cases hin : i < size
    · rw [Nat.mod_eq_sub_mod (by omega), Nat.mod_eq_of_lt (by omega)]
      omega
    · omega

/-- Doubling an element keeps repeating it.

**Proof sketch.** By induction on the rounds. A round that doubles the element writes it once
more behind itself, and a bit of the copy is the bit one size below, which is the same since the
pattern has the size as a period. After all rounds the element covers the width. -/
theorem getLsbD_spread {p : Nat → Bool} {width rounds size : Nat} {value : Word}
    (hvalue : ∀ i < 64, value.getLsbD i = (decide (i < size) && p i))
    (hp : ∀ i, p (i + size) = p i) (hcover : width ≤ size * 2 ^ rounds) (hwidth : width ≤ 64)
    {i : Nat} (hi : i < width) : (spread width rounds size value).getLsbD i = p i := by
  induction rounds generalizing size value with
  | zero => rw [spread, hvalue i (by omega), decide_eq_true (by omega), Bool.true_and]
  | succ rounds ih =>
    rw [spread]
    split
    case isTrue hlt =>
      refine ih (fun j hj => ?_) (fun j => ?_) ?_
      · rw [BitVec.getLsbD_or, BitVec.getLsbD_shiftLeft, hvalue j hj]
        by_cases hlow : j < size
        · simp [hlow, show j < 2 * size by omega]
        · have hback : p (j - size) = p j := by rw [← hp, Nat.sub_add_cancel (by omega)]
          rw [hvalue (j - size) (by omega), hback]
          simp [hlow, hj, show (j - size < size) = (j < 2 * size) by
            rw [eq_iff_iff]; omega]
      · rw [Nat.two_mul, ← Nat.add_assoc, hp, hp]
      · calc width ≤ size * 2 ^ (rounds + 1) := hcover
          _ = 2 * size * 2 ^ rounds := by rw [Nat.pow_succ']; ac_rfl
    case isFalse hge => rw [hvalue i (by omega), decide_eq_true (by omega), Bool.true_and]

/-! ## The fields of a mask -/

/-- The element size that two fields stand for, by the number they spell. -/
theorem sizeLog?_eq_some {n imms log : Nat} (h : sizeLog? n imms = some log) :
    1 ≤ log ∧ log ≤ 6 ∧ 2 ^ log ≤ n % 2 * 64 + (63 - imms % 64) ∧
      n % 2 * 64 + (63 - imms % 64) < 2 ^ (log + 1) := by
  rw [sizeLog?] at h
  split at h
  · cases h
  · rename_i hbits
    obtain rfl := Option.some.inj h
    have hspec := (Nat.log2_eq_iff (show n % 2 * 64 + (63 - imms % 64) ≠ 0 by omega)).1 rfl
    refine ⟨?_, ?_, hspec⟩
    · exact (Nat.le_log2 (by omega)).2 (by omega)
    · exact Nat.le_of_lt_succ ((Nat.log2_lt (by omega)).2 (by omega))

/-- **The bits of a mask.** Fields have a mask if the element they stand for is not of ones only.
Its bits are those of the element, repeated over the width.

**Proof sketch.** The size of an element is a power of two of at most 64, and doubling it
often enough covers the width. So the bits are those of the element at their places
(`getLsbD_spread`, `getLsbD_element`). A mask of 32 bits is cut to its lower half. -/
theorem expand_eq_some {n imms immr width : Nat} {mask : Word} (hwidth : width = 32 ∨ width = 64)
    (h : expand n imms immr width = some mask) :
    ∃ log, sizeLog? n imms = some log ∧ imms % 2 ^ log + 1 < 2 ^ log ∧
      ∀ i, mask.getLsbD i =
        (decide (i < width) && bit (2 ^ log) (imms % 2 ^ log) (immr % 2 ^ log) i) := by
  rw [expand, Option.bind_eq_bind, Option.bind_eq_some_iff] at h
  obtain ⟨log, hlog, h⟩ := h
  simp only [Nat.one_shiftLeft] at h
  obtain ⟨-, hmax, -⟩ := sizeLog?_eq_some hlog
  have hpos : 0 < 2 ^ log := Nat.two_pow_pos log
  have hlast : imms % 2 ^ log < 2 ^ log := Nat.mod_lt _ hpos
  split at h
  · cases h
  rename_i hones
  refine ⟨log, hlog, by omega, fun i => ?_⟩
  have hsize : 2 ^ log ≤ 64 := Nat.pow_le_pow_right (by omega) hmax
  have hcover : width ≤ 2 ^ log * 2 ^ (6 - log) := by
    rw [← Nat.pow_add, Nat.add_sub_cancel' hmax]
    omega
  have hspread {j : Nat} (hj : j < width) := getLsbD_spread
    (fun k hk => getLsbD_element hsize hlast (Nat.mod_lt immr hpos) hk)
    (bit_add_size _ _ _) hcover (by omega) hj
  obtain rfl := Option.some.inj h
  obtain rfl | rfl := hwidth
  · have hhalf : (0xFFFFFFFF : Word) = (BitVec.allOnes 32).setWidth 64 := by decide
    rw [if_pos rfl, hhalf, BitVec.getLsbD_and, BitVec.getLsbD_setWidth, BitVec.getLsbD_allOnes]
    by_cases hi : i < 32
    · rw [hspread hi]
      simp [hi, show i < 64 by omega]
    · simp [hi]
  · rw [if_neg (by omega)]
    by_cases hi : i < 64
    · rw [hspread hi, decide_eq_true hi, Bool.true_and]
    · rw [BitVec.getLsbD_of_ge _ i (by omega), decide_eq_false hi, Bool.false_and]

/-! ## Telling masks apart -/

/-- One more, modulo a number. -/
theorem succ_mod {m : Nat} (hm : 0 < m) (j : Nat) :
    (j + 1) % m = if j % m + 1 = m then 0 else j % m + 1 := by
  have hlt := Nat.mod_lt j hm
  rw [← Nat.mod_add_mod]
  split
  case isTrue h => rw [h, Nat.mod_self]
  case isFalse h => exact Nat.mod_eq_of_lt (by omega)

/-- Where a run ends: a set position before one that is not. -/
theorem bit_falls {size last : Nat} (hlast : last + 1 < size) (rotation i : Nat) :
    (bit size last rotation i = true ∧ bit size last rotation (i + 1) = false) ↔
      (i + rotation) % size = last := by
  simp only [bit, decide_eq_true_eq, decide_eq_false_iff_not, Nat.add_right_comm i 1 rotation,
    succ_mod (show 0 < size by omega)]
  split <;> omega

/-- Where a run begins: a set position behind one that is not. -/
theorem bit_rises {size last : Nat} (hlast : last + 1 < size) (rotation i : Nat) :
    (bit size last rotation i = false ∧ bit size last rotation (i + 1) = true) ↔
      (i + rotation) % size + 1 = size := by
  have hlt := Nat.mod_lt (i + rotation) (show 0 < size by omega)
  simp only [bit, decide_eq_true_eq, decide_eq_false_iff_not, Nat.add_right_comm i 1 rotation,
    succ_mod (show 0 < size by omega)]
  split <;> omega

/-- Runs that repeat after `size'` bits do so after a multiple of their element size. -/
theorem size_dvd {size last rotation size' : Nat} (hlast : last + 1 < size)
    (hrotation : rotation < size)
    (hperiod : ∀ i, bit size last rotation (i + size') = bit size last rotation i) :
    size ∣ size' := by
  -- The first run ends at `i`, and so does one at `i + size'`.
  let i := last + size - rotation
  have hi : (i + rotation) % size = last := by
    rw [Nat.sub_add_cancel (by omega), Nat.add_mod_right, Nat.mod_eq_of_lt (by omega)]
  have hfalls := (bit_falls hlast rotation i).2 hi
  rw [← hperiod, ← hperiod (i + 1), Nat.add_right_comm] at hfalls
  have hi' := (bit_falls hlast rotation (i + size')).1 hfalls
  have hmod : i + rotation + size' ≡ i + rotation + 0 [MOD size] := by
    rw [Nat.ModEq, Nat.add_right_comm, hi', Nat.add_zero, hi]
  exact Nat.modEq_zero_iff_dvd.1 (Nat.ModEq.add_left_cancel' _ hmod)

/-- Runs repeat after a multiple of their element size. -/
theorem bit_mod {size width : Nat} (hdvd : size ∣ width) (last rotation i : Nat) :
    bit size last rotation (i % width) = bit size last rotation i := by
  have hmod : i % width + rotation ≡ i + rotation [MOD size] :=
    ((Nat.mod_modEq i width).of_dvd hdvd).add_right rotation
  rw [bit, bit, hmod]

/-- **Equal masks have equal elements.**

**Proof sketch.** Both patterns have their size as a period, so they agree everywhere. A run
rises once in each period and falls once (`bit_rises`, `bit_falls`): the distance from one rise
to the next is the size, the place of the rise is the rotation and the place of the fall is the
length. -/
theorem run_unique {size last rotation size' last' rotation' width : Nat} (hwidth : 0 < width)
    (hlast : last + 1 < size) (hlast' : last' + 1 < size') (hrotation : rotation < size)
    (hrotation' : rotation' < size') (hdvd : size ∣ width) (hdvd' : size' ∣ width)
    (h : ∀ i < width, bit size last rotation i = bit size' last' rotation' i) :
    size = size' ∧ last = last' ∧ rotation = rotation' := by
  have hall (i : Nat) : bit size last rotation i = bit size' last' rotation' i := by
    rw [← bit_mod hdvd, h _ (Nat.mod_lt i hwidth), bit_mod hdvd']
  have hsize : size = size' := by
    apply Nat.dvd_antisymm
    · exact size_dvd hlast hrotation fun i => by rw [hall, bit_add_size, ← hall]
    · exact size_dvd hlast' hrotation' fun i => by rw [← hall, bit_add_size, hall]
  subst hsize
  have hrise : (size - 1 - rotation + rotation) % size + 1 = size := by
    rw [Nat.sub_add_cancel (by omega), Nat.mod_eq_of_lt (by omega), Nat.sub_add_cancel (by omega)]
  have hrise' := (bit_rises hlast rotation _).2 hrise
  rw [hall, hall, bit_rises hlast'] at hrise'
  have heq : rotation = rotation' := by
    have hmod : size - 1 - rotation + rotation ≡ size - 1 - rotation + rotation' [MOD size] := by
      rw [Nat.ModEq]
      omega
    exact (Nat.ModEq.add_left_cancel' _ hmod).eq_of_lt_of_lt hrotation hrotation'
  subst heq
  have hfall : (last + size - rotation + rotation) % size = last := by
    rw [Nat.sub_add_cancel (by omega), Nat.add_mod_right, Nat.mod_eq_of_lt (by omega)]
  have hfall' := (bit_falls hlast rotation _).2 hfall
  rw [hall, hall, bit_falls hlast'] at hfall'
  exact ⟨rfl, hfall.symm.trans hfall', rfl⟩

/-- The size bits of a mask are told from its element size and the end of its run. -/
theorem sizeLog?_inj {n imms n' imms' log : Nat} (hn : n < 2) (hn' : n' < 2) (himms : imms < 64)
    (himms' : imms' < 64) (h : sizeLog? n imms = some log) (h' : sizeLog? n' imms' = some log)
    (hlast : imms % 2 ^ log = imms' % 2 ^ log) : n = n' ∧ imms = imms' := by
  obtain ⟨hmin, hmax, hlow, hhigh⟩ := sizeLog?_eq_some h
  obtain ⟨-, -, hlow', hhigh'⟩ := sizeLog?_eq_some h'
  interval_cases log <;> simp only [Nat.reducePow, Nat.reduceAdd] at * <;> omega

/-- **What the fields of equal masks have in common**: all but the upper bits of the rotation, which
have no meaning. A register of 32 bits has no elements of 64.

**Proof sketch.** The bits of both masks are known (`expand_eq_some`), and equal patterns
have equal sizes, lengths and rotations (`run_unique`). The size and the length make up `imms`
and `n` (`sizeLog?_inj`); of `immr` only the part below the size is determined. -/
theorem expand_inj {n imms immr n' imms' immr' width : Nat} {mask : Word}
    (hwidth : width = 32 ∧ n = 0 ∧ n' = 0 ∨ width = 64) (hn : n < 2) (hn' : n' < 2)
    (himms : imms < 64) (himms' : imms' < 64) (h : expand n imms immr width = some mask)
    (h' : expand n' imms' immr' width = some mask) :
    ∃ log, sizeLog? n imms = some log ∧ log ≤ 6 ∧ n = n' ∧ imms = imms' ∧
      immr % 2 ^ log = immr' % 2 ^ log := by
  obtain ⟨log, hlog, hlast, hbits⟩ := expand_eq_some (by omega) h
  obtain ⟨log', hlog', hlast', hbits'⟩ := expand_eq_some (by omega) h'
  have hdvd {n imms log : Nat} (hlog : sizeLog? n imms = some log)
      (hw : width = 32 ∧ n = 0 ∨ width = 64) : 2 ^ log ∣ width := by
    obtain ⟨-, hmax, hlow, -⟩ := sizeLog?_eq_some hlog
    obtain ⟨rfl, rfl⟩ | rfl := hw
    · have hlt : log < 6 := (Nat.pow_lt_pow_iff_right (by omega)).1 (show 2 ^ log < 2 ^ 6 by omega)
      exact Nat.pow_dvd_pow 2 (show log ≤ 5 by omega)
    · exact Nat.pow_dvd_pow 2 hmax
  have hpos (k : Nat) : 0 < 2 ^ k := Nat.two_pow_pos k
  obtain ⟨hsize, hruns, hrotations⟩ := run_unique (show 0 < width by omega) hlast hlast'
    (Nat.mod_lt immr (hpos log)) (Nat.mod_lt immr' (hpos log')) (hdvd hlog (by omega))
    (hdvd hlog' (by omega)) fun i hi => by simpa [hi] using (hbits i).symm.trans (hbits' i)
  obtain rfl : log = log' := Nat.pow_right_injective (by omega) hsize
  obtain ⟨rfl, rfl⟩ := sizeLog?_inj hn hn' himms himms' hlog hlog' hruns
  exact ⟨log, hlog, (sizeLog?_eq_some hlog).2.1, rfl, rfl, hrotations⟩

/-! ## Fields of instruction words -/

/-- The fields that have a mask: their element has at least two bits and is not of ones only. -/
theorem exists_expand_iff (n imms immr width : Nat) :
    (∃ mask, expand n imms immr width = some mask) ↔
      ∃ log, sizeLog? n imms = some log ∧ imms % 2 ^ log + 1 ≠ 2 ^ log := by
  unfold expand
  cases hlog : sizeLog? n imms with
  | none => simp
  | some log =>
    simp only [Option.bind_eq_bind, Option.bind_some, Nat.one_shiftLeft, Option.some.injEq,
      exists_eq_left']
    split <;> simp_all

/-- Bit `l` is the highest one that is set. -/
def IsHighest {w : Nat} (x : BitVec w) (l : Nat) : Prop :=
  x.getLsbD l = true ∧ ∀ j, l < j → x.getLsbD j = false

/-- The highest set bit of a word, by its value.

**Proof sketch.** If the bit is set, the value is at least its weight, and if none above is,
the value is below twice that. Conversely the quotient by the weight is one, which is the bit. -/
theorem isHighest_iff {w : Nat} (x : BitVec w) (l : Nat) :
    IsHighest x l ↔ 2 ^ l ≤ x.toNat ∧ x.toNat < 2 ^ (l + 1) := by
  unfold IsHighest
  simp only [← BitVec.testBit_toNat]
  constructor
  · rintro ⟨hset, habove⟩
    exact ⟨Nat.ge_two_pow_of_testBit hset, Nat.lt_pow_two_of_testBit _ fun j hj => habove j hj⟩
  · rintro ⟨hlow, hhigh⟩
    constructor
    · have hdiv : x.toNat / 2 ^ l = 1 := by
        apply Nat.div_eq_of_lt_le <;> omega
      rw [Nat.testBit_eq_decide_div_mod_eq, hdiv]
      rfl
    · intro j hj
      exact Nat.testBit_lt_two_pow (hhigh.trans_le (Nat.pow_le_pow_right (by omega) hj))

/-- There is one highest bit that is set. -/
theorem IsHighest.unique {w l l' : Nat} {x : BitVec w} (h : IsHighest x l) (h' : IsHighest x l') :
    l = l' := by
  rcases Nat.lt_trichotomy l l' with hlt | heq | hlt
  · exact absurd (h'.1.symm.trans (h.2 l' hlt)) (by decide)
  · exact heq
  · exact absurd (h.1.symm.trans (h'.2 l hlt)) (by decide)

/-- The seven bits that tell the size of an element: the lowest bit of `n`, and behind it the
complement of the lowest six bits of `imms`. -/
def sizeField (n imms : BitVec 32) : BitVec 7 :=
  n.extractLsb' 0 1 ++ ~~~imms.extractLsb' 0 6

/-- The field that the size is read from, as a number: the bit `n` above the complement of six
bits of `imms`. -/
theorem toNat_sizeField (n imms : BitVec 32) :
    (sizeField n imms).toNat = n.toNat % 2 * 64 + (63 - imms.toNat % 64) := by
  have hlt : 63 - imms.toNat % 64 < 2 ^ 6 := by omega
  rw [sizeField, BitVec.toNat_append, BitVec.toNat_not, BitVec.extractLsb'_toNat,
    BitVec.extractLsb'_toNat]
  simp only [Nat.shiftRight_zero]
  rw [← Nat.shiftLeft_add_eq_or_of_lt hlt, Nat.shiftLeft_eq]

/-- The element size is told by the highest set bit. -/
theorem sizeLog?_eq_some_iff (n imms : BitVec 32) (l : Nat) :
    sizeLog? n.toNat imms.toNat = some l ↔ IsHighest (sizeField n imms) l ∧ 1 ≤ l := by
  rw [isHighest_iff, toNat_sizeField]
  constructor
  · intro h
    rcases sizeLog?_eq_some h with ⟨hmin, -, hspec⟩
    exact ⟨hspec, hmin⟩
  · rintro ⟨hspec, hmin⟩
    have htwo : 2 ^ 1 ≤ 2 ^ l := Nat.pow_le_pow_right (by omega) hmin
    rw [sizeLog?, if_neg (by omega), (Nat.log2_eq_iff (by omega)).2 hspec]

/-- The low bits of a number are all ones exactly if they spell the greatest number there is.

**Proof sketch.** Two numbers are equal if their bits are, and the bits of `2 ^ l - 1` are
those below `l`. -/
theorem forall_testBit_iff (x l : Nat) :
    (∀ j < l, x.testBit j = true) ↔ x % 2 ^ l + 1 = 2 ^ l := by
  have hpos : 0 < 2 ^ l := Nat.two_pow_pos l
  constructor
  · intro hones
    have heq : x % 2 ^ l = 2 ^ l - 1 := by
      apply Nat.eq_of_testBit_eq
      intro j
      rw [Nat.testBit_mod_two_pow, Nat.testBit_two_pow_sub_one]
      by_cases hj : j < l
      · simp [hj, hones j hj]
      · simp [hj]
    omega
  · intro heq j hj
    have hbit : (x % 2 ^ l).testBit j = true := by
      rw [show x % 2 ^ l = 2 ^ l - 1 by omega, Nat.testBit_two_pow_sub_one, decide_eq_true hj]
    rw [Nat.testBit_mod_two_pow, decide_eq_true hj, Bool.true_and] at hbit
    exact hbit

/-- **Masks by their fields.** Let `l` be the highest set bit of the seven that tell the size of an
element. There is a mask exactly if `l` is at least one and the low `l` bits of `imms` are not all
ones. Then bit `i` of the mask is set exactly if it lies in the register and, counted from the start
of the rotated run modulo `2 ^ l`, it is not behind the end of the run.

**Proof sketch.** The condition for there to be a mask is that of `exists_expand_iff`, read
off the bits of the fields (`sizeLog?_eq_some_iff`, `forall_testBit_iff`). A word has one highest
bit, so the bits of the mask are those of `expand_eq_some`. -/
theorem expand_iff_bits (n imms immr : BitVec 32) (width : Nat) (hwidth : width = 32 ∨ width = 64) :
    ((∃ mask, expand n.toNat imms.toNat immr.toNat width = some mask) ↔
      ∃ l, IsHighest (sizeField n imms) l ∧ 1 ≤ l ∧ ∃ j < l, imms.getLsbD j = false) ∧
    ∀ mask, expand n.toNat imms.toNat immr.toNat width = some mask →
      ∀ l, IsHighest (sizeField n imms) l → ∀ i, mask.getLsbD i = true ↔
        i < width ∧ (i + immr.toNat % 2 ^ l) % 2 ^ l ≤ imms.toNat % 2 ^ l := by
  constructor
  · rw [exists_expand_iff]
    have hclear : ∀ l, (∃ j < l, imms.getLsbD j = false) ↔ imms.toNat % 2 ^ l + 1 ≠ 2 ^ l := by
      intro l
      rw [ne_eq, ← forall_testBit_iff]
      simp [BitVec.testBit_toNat]
    simp only [sizeLog?_eq_some_iff, hclear, and_assoc]
  · intro mask hmask l hl i
    rcases expand_eq_some hwidth hmask with ⟨log, hlog, -, hbits⟩
    rcases (sizeLog?_eq_some_iff n imms log).1 hlog with ⟨hhighest, -⟩
    rcases hhighest.unique hl with rfl
    rw [hbits, bit, Bool.and_eq_true, decide_eq_true_iff, decide_eq_true_iff]

/-- An element of 64 bits in a register of 32, with fields that have bits beyond those that count:
eight ones, rotated so that they start at bit four. -/
theorem expand_iff_bits_narrow :
    ∃ mask, expand 0xFFFFFFFF 0xC7 0xFC 32 = some mask ∧
      ∀ i, mask.getLsbD i = true ↔ i < 32 ∧ (i + 60) % 64 ≤ 7 := by
  have hhighest : IsHighest (sizeField 0xFFFFFFFF 0xC7) 6 := (isHighest_iff _ _).2 (by decide)
  rcases expand_iff_bits 0xFFFFFFFF 0xC7 0xFC 32 (.inl rfl) with ⟨hexists, hbits⟩
  rcases hexists.2 ⟨6, hhighest, by decide, 3, by decide, by decide⟩ with ⟨mask, hmask⟩
  exact ⟨mask, hmask, hbits mask hmask 6 hhighest⟩

end Dynarec.Guest.BitMask
