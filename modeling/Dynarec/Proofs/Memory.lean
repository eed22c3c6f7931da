import Dynarec.Memory
import Mathlib.Tactic.ByContra

/-!
# The bounds of guest memory

Memory is created in whole pages: a size is rounded to pages by a division that cuts toward zero,
and far from the ends of the range of signed numbers nothing wraps around.

An access is checked in two ways: by asking whether the region contains it, and by comparing its
distance from a lower bound with the room that is left above that bound. In memory that has been
created, limited and closed in any order the two agree for an access of every size, unless the
region runs on past the end of the address space, or is closed with a limit above its base.

## Main definitions

* `Dynarec.Memory.grants` — whether the region contains an access and its limit allows it.
* `Dynarec.Memory.admits` — whether an access fits into the room above its lower bound.
* `Dynarec.Memory.Reachable` — memory that can come about.
* `Dynarec.Memory.Guarded` — memory where the two checks agree.

## Main results

* `Dynarec.roundToPages_eq` — rounding to pages as a quotient.
* `Dynarec.Memory.create_eq_ok`, `Dynarec.Memory.exists_create` — what is created, and when.
* `Dynarec.Memory.Reachable.placed` — where the limit of reachable memory lies.
* `Dynarec.Memory.Placed.admits_eq_grants_iff` — when the two checks agree.
* `Dynarec.Memory.Placed.offset_add_le` — what is admitted lies inside an open region.
* `Dynarec.Memory.write_eq_ok_iff`, `Dynarec.Memory.setImmutableBelow_eq_ok_iff` — what can be
  written, and where the limit can be moved to.
* `Dynarec.Memory.inspect_eq` — what the guest may do.
-/

set_option autoImplicit false

namespace Dynarec

/-! ## Pages -/

/-- A number in the range of signed 64-bit numbers is not changed by wrapping. -/
theorem wrapInt64_eq_self {v : Int} (hlow : -0x8000000000000000 ≤ v)
    (hhigh : v < 0x8000000000000000) : wrapInt64 v = v := by
  rw [wrapInt64, BitVec.toInt_ofInt]
  exact Int.bmod_eq_of_le (by omega) (by omega)

/-- What wraps around lies in the range of signed 64-bit numbers. -/
theorem wrapInt64_bounds (v : Int) :
    -0x8000000000000000 ≤ wrapInt64 v ∧ wrapInt64 v < 0x8000000000000000 := by
  have hlow := (BitVec.ofInt 64 v).le_two_mul_toInt
  have hhigh := (BitVec.ofInt 64 v).two_mul_toInt_lt
  rw [wrapInt64]
  omega

/-- What wraps around is off by a multiple of the size of the address space. -/
theorem wrapInt64_eq_add (v : Int) : ∃ n : Int, wrapInt64 v = v + 0x10000000000000000 * n := by
  refine ⟨-((v - wrapInt64 v) / 0x10000000000000000), ?_⟩
  have hmod : wrapInt64 v % 0x10000000000000000 = v % 0x10000000000000000 := by
    rw [wrapInt64, BitVec.toInt_ofInt]
    exact Int.bmod_emod
  omega

/-- A quotient that is cut toward zero is off by less than one page. -/
theorem mul_tdiv_bounds (v : Int) :
    v - 4096 < 4096 * v.tdiv 4096 ∧ 4096 * v.tdiv 4096 < v + 4096 := by
  rcases Int.lt_or_le v 0 with hneg | hnonneg
  · have hcut : v.tdiv 4096 = -(-v / 4096) := by
      rw [← Int.tdiv_eq_ediv_of_nonneg (by omega), Int.neg_tdiv, Int.neg_neg]
    omega
  · have hcut : v.tdiv 4096 = v / 4096 := Int.tdiv_eq_ediv_of_nonneg hnonneg
    omega

/-- Rounding to pages does not wrap around for sizes far from the ends of the range. -/
theorem roundToPages_eq {size : Int} (hlow : -0x4000000000000000 ≤ size)
    (hhigh : size < 0x4000000000000000) :
    roundToPages size = 4096 * (size + 4095).tdiv 4096 := by
  have hpage : (pageSize : Int) = 4096 := rfl
  have hbounds := mul_tdiv_bounds (size + 4095)
  have hsum : (pageSize : Int) + size - 1 = size + 4095 := by omega
  have hinner : wrapInt64 (size + 4095) = size + 4095 := wrapInt64_eq_self (by omega) (by omega)
  rw [roundToPages, hsum, hinner, hpage]
  exact wrapInt64_eq_self (by omega) (by omega)

/-- Whole pages that hold a size. -/
theorem roundToPages_of_nonneg {size : Int} (hlow : 0 ≤ size)
    (hhigh : size + 4095 < 0x8000000000000000) :
    roundToPages size = 4096 * ((size + 4095) / 4096) := by
  have hpage : (pageSize : Int) = 4096 := rfl
  have hsum : (pageSize : Int) + size - 1 = size + 4095 := by omega
  have hinner : wrapInt64 (size + 4095) = size + 4095 := wrapInt64_eq_self (by omega) hhigh
  rw [roundToPages, hsum, hinner, hpage, Int.tdiv_eq_ediv_of_nonneg (by omega)]
  exact wrapInt64_eq_self (by omega) (by omega)

/-- Whole pages are what they are rounded to. -/
theorem roundToPages_of_mod {size : Int} (hlow : 0 ≤ size) (hhigh : size < 0x8000000000000000)
    (hmod : size % 4096 = 0) : roundToPages size = size := by
  rw [roundToPages_of_nonneg hlow (by omega)]
  omega

/-- Whole pages stay whole when their number wraps around. -/
theorem roundToPages_mod (size : Int) : roundToPages size % 4096 = 0 := by
  have hpage : (pageSize : Int) = 4096 := rfl
  rw [roundToPages, hpage]
  rcases wrapInt64_eq_add (4096 * (wrapInt64 (4096 + size - 1)).tdiv 4096) with ⟨n, hn⟩
  rw [hn]
  omega

/-- A rounded size lies in the range of signed 64-bit numbers: the last step of rounding wraps. -/
theorem roundToPages_bounds (size : Int) :
    -0x8000000000000000 ≤ roundToPages size ∧ roundToPages size < 0x8000000000000000 :=
  wrapInt64_bounds _

/-- Rounding up wraps around to a negative number at the end of the range. -/
theorem roundToPages_of_wraps {size : Int} (hlow : 0x8000000000000000 ≤ size + 4095)
    (hhigh : size < 0x8000000000000000) : roundToPages size < -0x4000000000000000 := by
  have hpage : (pageSize : Int) = 4096 := rfl
  have hsum : (pageSize : Int) + size - 1 = size + 4095 := by omega
  have hinner : wrapInt64 (size + 4095) = size + 4095 - 0x10000000000000000 := by
    rcases wrapInt64_eq_add (size + 4095) with ⟨n, hn⟩
    have hbounds := wrapInt64_bounds (size + 4095)
    omega
  have hcut := mul_tdiv_bounds (size + 4095 - 0x10000000000000000)
  have houter := wrapInt64_eq_self
    (v := 4096 * (size + 4095 - 0x10000000000000000).tdiv 4096) (by omega) (by omega)
  rw [roundToPages, hsum, hinner, hpage, houter]
  omega

namespace Memory

variable {m : Memory} {write : Bool} {address n : Word}

/-- What is created: zeroed pages at the base, all of them mutable. -/
theorem create_eq_ok {base : Word} {size : Int} {m : Memory} (h : create base size = .ok m) :
    0 < size ∧ m.base = base ∧ m.writableStart = base ∧
      m.bytes = Array.replicate (roundToPages size).toNat 0 := by
  unfold create at h
  split at h
  · cases h
  · split at h
    · cases h
    · cases h
      exact ⟨by omega, rfl, rfl, rfl⟩

/-- **Creating memory succeeds** for a positive size that is still positive once it is rounded to
pages. -/
theorem exists_create {size : Int} (base : Word) (hpos : 0 < size)
    (hpages : 0 < roundToPages size) : ∃ m, create base size = .ok m := by
  rw [create, if_neg (by omega), if_neg (by omega)]
  exact ⟨_, rfl⟩

/-- A size that wraps around at the end of the range can be had neither before nor after. -/
theorem create_wrapInt64 {base : Word} {size : Int} (hlow : -0x8000000000000000 ≤ size)
    (hhigh : size ≤ 0x8000000000000000) :
    create base (wrapInt64 size) = .ok m ↔ create base size = .ok m := by
  by_cases hlt : size < 0x8000000000000000
  · rw [wrapInt64_eq_self hlow hlt]
  · have hsize : size = 0x8000000000000000 := by omega
    have hpages : roundToPages size ≤ 0 := by
      rw [hsize]
      decide
    have hwraps : wrapInt64 size ≤ 0 := by
      rw [hsize]
      decide
    rw [create, if_pos hwraps, create, if_neg (by omega), if_pos hpages]
    exact iff_of_false nofun nofun

/-! ## Two checks -/

/-- Whether the guest may touch `n` bytes at an address: the region contains them, and stores stay
at or above the limit. -/
def grants (m : Memory) (write : Bool) (address n : Word) : Bool :=
  m.contains address n && (!write || m.writableStart ≤ address)

/-- The lowest address that a load or a store may touch. -/
def lowest (m : Memory) (write : Bool) : Word :=
  if write then m.writableStart else m.base

/-- The number of bytes from the lowest address on, modulo the address space. -/
def room (m : Memory) (write : Bool) : Word :=
  m.stop - m.lowest write

/-- Whether `n` bytes at an address fit into the room above the lowest address. -/
def admits (m : Memory) (write : Bool) (address n : Word) : Bool :=
  n ≤ m.room write && address - m.lowest write ≤ m.room write - n

/-! ## Reachable memory -/

/-- Memory that is created and then written, limited and closed in any order. -/
inductive Reachable : Memory → Prop where
  | create {base : Word} {size : Int} {m : Memory} (h : create base size = .ok m) : Reachable m
  | setBytesAt {m : Memory} (h : Reachable m) (i : Nat) (data : List Byte) :
      Reachable (m.setBytesAt i data)
  | limit {m m' : Memory} (h : Reachable m) {address : Word}
      (hlimit : m.setImmutableBelow address = .ok m') : Reachable m'
  | close {m : Memory} (h : Reachable m) : Reachable m.close

/-- One page of fresh memory. -/
def page (base : Word) : Memory where
  base := base
  bytes := Array.replicate 4096 0
  writableStart := base
  size_lt := by simp

/-- A page of fresh memory is reachable: it is what creating 4096 bytes gives. -/
theorem Reachable.page (base : Word) : (page base).Reachable :=
  .create (show Memory.create base 4096 = _ from rfl)

/-- Where the limit of memory lies: at most half the address space above the base, and inside the
region or at its end while it is open. Regions that reach the end of the address space have no limit
but their base. -/
structure Placed (m : Memory) : Prop where
  base_le : m.base ≤ m.writableStart
  near : m.writableStart.toNat < m.base.toNat + 0x8000000000000000
  inside : m.bytes.size ≠ 0 → m.writableStart.toNat ≤ m.base.toNat + m.bytes.size
  last : m.bytes.size ≠ 0 → 0x10000000000000000 ≤ m.base.toNat + m.bytes.size →
    m.writableStart = m.base

/-- The size as a word is the number of bytes, which are fewer than the address space has. -/
theorem toNat_size (m : Memory) : m.size.toNat = m.bytes.size := by
  have hlt := m.size_lt
  rw [size, BitVec.toNat_ofNat]
  omega

/-- The end of the region as a word. It is taken modulo the size of the address space, so a
region that reaches the end of the address space has its end at 0. -/
theorem toNat_stop (m : Memory) :
    m.stop.toNat = (m.base.toNat + m.bytes.size) % 0x10000000000000000 := by
  rw [stop, BitVec.toNat_add, toNat_size]

/-- Bytes that are put at a position leave the number of bytes as it is. -/
@[simp] theorem size_setBytesAt (m : Memory) (i : Nat) (data : List Byte) :
    (m.setBytesAt i data).bytes.size = m.bytes.size :=
  size_overwrite m.bytes i data

/-- Creating memory places its limit at its base. -/
theorem placed_of_writableStart_eq (h : m.writableStart = m.base) : m.Placed where
  base_le := by rw [h]; exact BitVec.le_refl _
  near := by rw [h]; omega
  inside _ := by rw [h]; omega
  last _ _ := h

/-- A limit that is accepted lies inside the region or at its end.

**Proof sketch.** The limit was compared with both ends of the region. Where the end wraps
around to zero or past it, it is not above the base, so the only limit accepted is the base. -/
theorem Placed.setImmutableBelow {m' : Memory} (h : m.setImmutableBelow address = .ok m') :
    m'.Placed := by
  unfold Memory.setImmutableBelow at h
  split at h
  · cases h
  · rename_i hlimit
    cases h
    simp only [Bool.or_eq_true, decide_eq_true_eq, not_or, BitVec.not_lt, BitVec.le_def,
      toNat_stop] at hlimit
    obtain ⟨hbase, hstop⟩ := hlimit
    have hlt := m.size_lt
    have hword := m.base.isLt
    refine ⟨BitVec.le_def.2 hbase, ?_, fun _ => ?_, fun _ hlast => BitVec.eq_of_toNat_eq ?_⟩
    all_goals
      dsimp only at *
      omega

/-- **Reachable memory** has its limit where it should be. -/
theorem Reachable.placed (h : m.Reachable) : m.Placed := by
  induction h with
  | @create base size m h =>
    refine placed_of_writableStart_eq ?_
    rcases create_eq_ok h with ⟨-, hbase, hstart, -⟩
    rw [hstart, hbase]
  | setBytesAt h i data ih =>
    refine ⟨ih.base_le, ih.near, ?_, ?_⟩ <;> rw [size_setBytesAt]
    · exact ih.inside
    · exact ih.last
  | limit h hlimit ih => exact .setImmutableBelow hlimit
  | close h ih => exact ⟨ih.base_le, ih.near, fun hne => absurd rfl hne, fun hne => absurd rfl hne⟩

/-! ## Where the checks agree -/

/-- The two checks agree for accesses of `n` bytes: an open region does not run on past the end of
the address space by `n` bytes or more, and a closed region has no limit above its base to keep
stores from. -/
def Guarded (m : Memory) (write : Bool) (n : Nat) : Prop :=
  if m.bytes.size = 0 then write = true → m.writableStart = m.base
  else m.base.toNat + m.bytes.size < 0x10000000000000000 + n

/-- Whether the checks agree at a size can be computed from the fields of the memory. -/
instance (m : Memory) (write : Bool) (n : Nat) : Decidable (m.Guarded write n) := by
  unfold Guarded
  infer_instance

/-- **Containment**, with nothing wrapping around: the access begins at the base or above, and its
last byte lies before the end.

**Proof sketch.** The check subtracts the base from the address and the size of the access from
the size of the region only after it has compared them, so neither difference wraps, and what is
left is arithmetic. -/
theorem contains_iff : m.contains address n = true ↔
    m.base.toNat ≤ address.toNat ∧ address.toNat - m.base.toNat + n.toNat ≤ m.bytes.size := by
  have hlt := m.size_lt
  have hsize := m.toNat_size
  simp only [contains, Bool.and_eq_true, decide_eq_true_eq, BitVec.le_def]
  constructor
  · rintro ⟨⟨hbase, hn⟩, hfits⟩
    rw [BitVec.toNat_sub_of_le (BitVec.le_def.2 hbase),
      BitVec.toNat_sub_of_le (BitVec.le_def.2 hn)] at hfits
    omega
  · rintro ⟨hbase, hfits⟩
    have hn : n.toNat ≤ m.size.toNat := by omega
    refine ⟨⟨hbase, hn⟩, ?_⟩
    rw [BitVec.toNat_sub_of_le (BitVec.le_def.2 hbase),
      BitVec.toNat_sub_of_le (BitVec.le_def.2 hn)]
    omega

/-- **The check of the interpreter**, with nothing wrapping around: a store must also begin at
the limit or above it. -/
theorem grants_iff : m.grants write address n = true ↔ m.base.toNat ≤ address.toNat ∧
    address.toNat - m.base.toNat + n.toNat ≤ m.bytes.size ∧
      (write = true → m.writableStart.toNat ≤ address.toNat) := by
  rw [grants, Bool.and_eq_true, contains_iff, and_assoc]
  cases write <;> simp [BitVec.le_def]

/-- **The check of translated code** as one inequality: the distance from the lowest address, which
is taken modulo the size of the address space, and the size of the access fit into the room.

**Proof sketch.** The code first compares the size with the room, so the difference that it
compares the distance with does not wrap. -/
theorem admits_iff : m.admits write address n = true ↔
    (address - m.lowest write).toNat + n.toNat ≤ (m.room write).toNat := by
  simp only [admits, Bool.and_eq_true, decide_eq_true_eq, BitVec.le_def]
  constructor
  · rintro ⟨hn, hfits⟩
    rw [BitVec.toNat_sub_of_le (BitVec.le_def.2 hn)] at hfits
    omega
  · intro hfits
    have hn : n.toNat ≤ (m.room write).toNat := by omega
    refine ⟨hn, ?_⟩
    rw [BitVec.toNat_sub_of_le (BitVec.le_def.2 hn)]
    omega

/-- Above the base there is room for the whole region, also where its end has wrapped around. -/
theorem room_eq_size (h : m.lowest write = m.base) : m.room write = m.size := by
  rw [room, h, stop, BitVec.add_comm, BitVec.add_sub_cancel]

/-- Distances modulo the address space, above and below the point they are taken from. -/
theorem toNat_sub_cases (x y : Word) :
    (y.toNat ≤ x.toNat ∧ (x - y).toNat = x.toNat - y.toNat) ∨
      (x.toNat < y.toNat ∧ (x - y).toNat = 0x10000000000000000 - y.toNat + x.toNat) := by
  have hx := x.isLt
  have hy := y.isLt
  rw [BitVec.toNat_sub]
  omega

namespace Placed

/-- The distance from the base to the lowest address, and the room in an open region above it.

**Proof sketch.** For loads the lowest address is the base and the room is the size. For
stores, in a region that ends before the address space does, the limit lies between base and end;
in any other it is the base. -/
theorem toNat_room (h : m.Placed) (hopen : m.bytes.size ≠ 0) (write : Bool) :
    m.base.toNat ≤ (m.lowest write).toNat ∧
      (m.lowest write).toNat - m.base.toNat + (m.room write).toNat = m.bytes.size ∧
      (0x10000000000000000 ≤ m.base.toNat + m.bytes.size → m.lowest write = m.base) := by
  have hlt := m.size_lt
  have hbase : m.base.toNat ≤ m.writableStart.toNat := BitVec.le_def.1 h.base_le
  have hinside := h.inside hopen
  have hlast := h.last hopen
  have hstop := m.toNat_stop
  have hword := m.base.isLt
  cases write with
  | false =>
    refine ⟨Nat.le_refl _, ?_, fun _ => rfl⟩
    rw [room_eq_size rfl, toNat_size, lowest]
    simp
  | true =>
    refine ⟨hbase, ?_, hlast⟩
    by_cases hwrap : 0x10000000000000000 ≤ m.base.toNat + m.bytes.size
    · have heq : m.lowest true = m.base := hlast hwrap
      rw [room_eq_size heq, toNat_size, heq]
      omega
    · have hle : (m.lowest true).toNat ≤ m.stop.toNat := by
        rw [hstop, lowest, if_pos rfl]
        omega
      rw [room, BitVec.toNat_sub_of_le (BitVec.le_def.2 hle), hstop]
      rw [lowest, if_pos rfl] at hle ⊢
      omega

/-- **What is admitted lies inside** an open region, counted from its base. -/
theorem offset_add_le (h : m.Placed) (hopen : m.bytes.size ≠ 0)
    (hadmits : m.admits write address n = true) :
    (address - m.base).toNat + n.toNat ≤ m.bytes.size := by
  obtain ⟨hlow, hroom, -⟩ := h.toNat_room hopen write
  have hlt := m.size_lt
  rw [admits_iff] at hadmits
  have hsub := toNat_sub_cases address (m.lowest write)
  have hsub' := toNat_sub_cases address m.base
  have hword := (m.lowest write).isLt
  omega

/-- What the region grants, by the lowest address. -/
theorem grants_iff_lowest (h : m.Placed) : m.grants write address n = true ↔
    (m.lowest write).toNat ≤ address.toNat ∧
      address.toNat - m.base.toNat + n.toNat ≤ m.bytes.size := by
  have hbase : m.base.toNat ≤ m.writableStart.toNat := BitVec.le_def.1 h.base_le
  rw [grants_iff, lowest]
  cases write with
  | false => simp
  | true =>
    simp only [if_true, true_implies]
    omega

/-- In a guarded open region the checks agree. -/
theorem admits_eq_grants (h : m.Placed) (hopen : m.bytes.size ≠ 0)
    (hguard : m.base.toNat + m.bytes.size < 0x10000000000000000 + n.toNat) (address : Word) :
    m.admits write address n = m.grants write address n := by
  obtain ⟨hlow, hroom, hlast⟩ := h.toNat_room hopen write
  have hsub := toNat_sub_cases address (m.lowest write)
  have hlast' : 0x10000000000000000 ≤ m.base.toNat + m.bytes.size →
      (m.lowest write).toNat = m.base.toNat := fun hwrap => by rw [hlast hwrap]
  rw [Bool.eq_iff_iff, admits_iff, h.grants_iff_lowest]
  omega

/-- In an open region that is not guarded the address zero is admitted, which it does not
contain. -/
theorem admits_zero (h : m.Placed) (hopen : m.bytes.size ≠ 0)
    (hguard : 0x10000000000000000 + n.toNat ≤ m.base.toNat + m.bytes.size) :
    m.admits write 0 n = true ∧ m.grants write 0 n = false := by
  obtain ⟨hlow, hroom, hlast⟩ := h.toNat_room hopen write
  have hlt := m.size_lt
  have hword := m.base.isLt
  have hbase : (m.lowest write).toNat = m.base.toNat := by rw [hlast (by omega)]
  have hzero : (0 : Word).toNat = 0 := rfl
  have hsub := toNat_sub_cases 0 (m.lowest write)
  rw [← Bool.not_eq_true, admits_iff, h.grants_iff_lowest]
  omega

/-- In a closed region no load is admitted, and no store unless the limit is above the base: then
the room above the limit has wrapped around.

**Proof sketch.** With the limit at the base there is no room at all. Above the base, the
room is the distance from the limit back to the base, which has wrapped around to more than half
the address space, so a short access at the limit is admitted. -/
theorem admits_of_closed (h : m.Placed) (hclosed : m.bytes.size = 0) (hn : 0 < n.toNat)
    (hsmall : n.toNat ≤ 0x8000000000000000) :
    (∀ address, m.admits write address n = false) ↔ m.lowest write = m.base := by
  have hsize : m.size.toNat = 0 := by rw [toNat_size, hclosed]
  constructor
  · intro hnone
    by_contra hne
    have hwrite : write = true := by
      cases write with
      | false => exact absurd rfl hne
      | true => rfl
    subst hwrite
    have hbase : m.base.toNat ≤ (m.lowest true).toNat := BitVec.le_def.1 h.base_le
    have hnear : (m.lowest true).toNat < m.base.toNat + 0x8000000000000000 := h.near
    have hlt : m.base.toNat ≠ (m.lowest true).toNat :=
      fun heq => hne (BitVec.eq_of_toNat_eq heq.symm)
    have hstop : m.stop = m.base := by
      apply BitVec.eq_of_toNat_eq
      rw [toNat_stop, hclosed]
      exact Nat.mod_eq_of_lt m.base.isLt
    have hroom := toNat_sub_cases m.stop (m.lowest true)
    rw [hstop] at hroom
    refine Bool.false_ne_true ((hnone (m.lowest true)).symm.trans (admits_iff.2 ?_))
    rw [room, hstop, BitVec.sub_self]
    have hzero : (0#64).toNat = 0 := rfl
    omega
  · intro hbase address
    rw [← Bool.not_eq_true, admits_iff, room_eq_size hbase, hsize]
    omega

/-- **Where the checks agree.** They do for every address exactly in guarded memory.

**Proof sketch.** In an open region both checks compare distances from the lowest address, which is
the base if the region reaches the end of the address space. They then disagree at the address zero
as soon as an access there fits. A closed region grants nothing. -/
theorem admits_eq_grants_iff (h : m.Placed) (hn : 0 < n.toNat)
    (hsmall : n.toNat ≤ 0x8000000000000000) :
    (∀ address, m.admits write address n = m.grants write address n) ↔
      m.Guarded write n.toNat := by
  unfold Guarded
  split
  · rename_i hclosed
    have hnone : ∀ address, m.grants write address n = false := by
      intro address
      rw [← Bool.not_eq_true, grants_iff]
      omega
    simp only [hnone]
    rw [h.admits_of_closed hclosed hn hsmall]
    cases write <;> simp [lowest]
  · rename_i hopen
    constructor
    · intro hagree
      by_contra hguard
      obtain ⟨hadmits, hgrants⟩ := h.admits_zero hopen (Nat.not_lt.1 hguard)
      rw [hagree, hgrants] at hadmits
      cases hadmits
    · exact fun hguard address => h.admits_eq_grants hopen hguard address

end Placed

/-! ## Sound memory -/

/-- Memory that can be translated against: open, with its limit in place, and inside the address
space. -/
structure Sound (m : Memory) : Prop extends Placed m where
  isOpen : m.bytes.size ≠ 0
  fits : m.base.toNat + m.bytes.size ≤ 0x10000000000000000

/-- In sound memory the checks agree. -/
theorem Sound.admits_eq_grants (h : m.Sound) (hn : 0 < n.toNat) (address : Word) :
    m.admits write address n = m.grants write address n := by
  have hfits := h.fits
  exact h.toPlaced.admits_eq_grants h.isOpen (by omega) address

/-- Sound memory is open, so its bytes lie where the host put them. -/
theorem Sound.hostAddress (h : m.Sound) : m.hostAddress = hostBase :=
  if_neg h.isOpen

/-- Memory at the same place with the same limit. -/
structure Alike (m m' : Memory) : Prop where
  base : m'.base = m.base
  size : m'.bytes.size = m.bytes.size
  writableStart : m'.writableStart = m.writableStart

/-- Memory is at its own place, with its own limit. -/
theorem Alike.refl (m : Memory) : m.Alike m :=
  ⟨rfl, rfl, rfl⟩

/-- Places and limits that are handed on twice are handed on. -/
theorem Alike.trans {m' m'' : Memory} (h : m.Alike m') (h' : m'.Alike m'') : m.Alike m'' :=
  ⟨h'.base.trans h.base, h'.size.trans h.size, h'.writableStart.trans h.writableStart⟩

/-- Being at the same place with the same limit goes both ways. -/
theorem Alike.symm {m' : Memory} (h : m.Alike m') : m'.Alike m :=
  ⟨h.base.symm, h.size.symm, h.writableStart.symm⟩

/-- Memory at the same place has its bytes at the same address of the host: that address depends
on whether the region is open, and so on its size. -/
theorem Alike.hostAddress {m' : Memory} (h : m.Alike m') : m'.hostAddress = m.hostAddress := by
  rw [Memory.hostAddress, h.size, Memory.hostAddress]

/-- Where a limit lies is a matter of place and limit. -/
theorem Alike.placed {m' : Memory} (h : m.Alike m') (hm : m.Placed) : m'.Placed where
  base_le := by rw [h.base, h.writableStart]; exact hm.base_le
  near := by rw [h.base, h.writableStart]; exact hm.near
  inside := by rw [h.base, h.writableStart, h.size]; exact hm.inside
  last := by rw [h.base, h.writableStart, h.size]; exact hm.last

/-- Soundness is a matter of place and limit. -/
theorem Alike.sound {m' : Memory} (h : m.Alike m') (hm : m.Sound) : m'.Sound where
  toPlaced := h.placed hm.toPlaced
  isOpen := by rw [h.size]; exact hm.isOpen
  fits := by rw [h.base, h.size]; exact hm.fits

/-- Bytes that are put at a position leave the place and the limit alone. -/
theorem Alike.setBytesAt (m : Memory) (i : Nat) (data : List Byte) :
    m.Alike (m.setBytesAt i data) :=
  ⟨rfl, size_setBytesAt m i data, rfl⟩

/-- The check of the interpreter is a matter of place and limit. -/
theorem Alike.grants {m' : Memory} (h : m.Alike m') (write : Bool) (address n : Word) :
    m'.grants write address n = m.grants write address n := by
  have hsize : m'.size = m.size := by rw [Memory.size, h.size, Memory.size]
  rw [Memory.grants, contains, h.base, hsize, h.writableStart]
  rfl

/-- The check of translated code is a matter of place and limit. -/
theorem Alike.admits {m' : Memory} (h : m.Alike m') (write : Bool) (address n : Word) :
    m'.admits write address n = m.admits write address n := by
  have hstop : m'.stop = m.stop := by
    rw [stop, Memory.size, h.base, h.size, stop, Memory.size]
  have hlowest : m'.lowest write = m.lowest write := by
    rw [lowest, h.base, h.writableStart, lowest]
  rw [Memory.admits, room, hstop, hlowest]
  rfl

/-! ## Other limits -/

/-- The region with another limit, whether or not it would be accepted. -/
def limited (m : Memory) (w : Word) : Memory :=
  { m with writableStart := w }

/-- Another limit leaves the base alone. -/
@[simp] theorem limited_base (m : Memory) (w : Word) : (m.limited w).base = m.base := rfl

/-- Another limit leaves the bytes alone. -/
@[simp] theorem limited_bytes (m : Memory) (w : Word) : (m.limited w).bytes = m.bytes := rfl

/-- Of two limits that are set one after the other, the second counts. -/
@[simp] theorem limited_limited (m : Memory) (v w : Word) :
    (m.limited v).limited w = m.limited w := rfl

/-- Setting the limit to where it is changes nothing. -/
@[simp] theorem limited_self (m : Memory) : m.limited m.writableStart = m := rfl

/-- Memory at the same place is still at the same place under a common limit. -/
theorem Alike.limited {m' : Memory} (h : m.Alike m') (w : Word) :
    (m.limited w).Alike (m'.limited w) :=
  ⟨h.base, h.size, rfl⟩

/-- Bytes can be written to a range inside the region. -/
theorem write_eq_ok_iff {m' : Memory} {data : List Byte} : m.write address data = .ok m' ↔
    m.contains address (BitVec.ofNat 64 data.length) = true ∧
      m' = m.setBytesAt (address - m.base).toNat data := by
  unfold write
  split
  · rename_i hin
    rw [and_iff_right hin, Except.ok.injEq]
    exact eq_comm
  · rename_i hout
    exact iff_of_false nofun fun h => hout h.1

/-- The limit can be moved to the addresses from the base to the end.

**Proof sketch.** The limit is compared with both ends, as unsigned numbers. -/
theorem setImmutableBelow_eq_ok_iff {m' : Memory} : m.setImmutableBelow address = .ok m' ↔
    m.base.toNat ≤ address.toNat ∧ address.toNat ≤ m.stop.toNat ∧ m' = m.limited address := by
  rw [← BitVec.le_def, ← BitVec.le_def]
  unfold setImmutableBelow
  split
  · rename_i hout
    simp only [Bool.or_eq_true, decide_eq_true_eq, ← BitVec.not_le] at hout
    constructor
    · intro h
      cases h
    · rintro ⟨hbase, hstop, -⟩
      exact absurd hout (not_or.2 ⟨not_not.2 hbase, not_not.2 hstop⟩)
  · rename_i hin
    simp only [Bool.or_eq_true, decide_eq_true_eq, not_or, BitVec.not_lt] at hin
    constructor
    · intro h
      cases h
      exact ⟨hin.1, hin.2, rfl⟩
    · rintro ⟨-, -, rfl⟩
      rfl

/-! ## By the distance from the base -/

/-- An address at a distance from the base that does not run on past the address space, as a
number. -/
theorem toNat_base_add {k : Nat} (hk : m.base.toNat + k < 0x10000000000000000) :
    (m.base + BitVec.ofNat 64 k).toNat = m.base.toNat + k := by
  rw [BitVec.toNat_add, BitVec.toNat_ofNat]
  omega

/-- The distance of such an address from the base is the distance it was built from, also where
the address itself wraps around. -/
theorem toNat_base_add_sub {k : Nat} (hk : k < 0x10000000000000000) :
    (m.base + BitVec.ofNat 64 k - m.base).toNat = k := by
  rw [BitVec.add_comm, BitVec.add_sub_cancel, BitVec.toNat_ofNat]
  exact Nat.mod_eq_of_lt hk

/-- A range inside the region, by its distance from the base. -/
theorem contains_base_add {k n : Nat} (hfits : m.base.toNat + m.bytes.size ≤ 0x10000000000000000)
    (hn : 0 < n) (hk : k + n ≤ m.bytes.size) :
    m.contains (m.base + BitVec.ofNat 64 k) (BitVec.ofNat 64 n) = true := by
  have hlt := m.size_lt
  rw [contains_iff, toNat_base_add (by omega), BitVec.toNat_ofNat]
  omega

/-- A range that the guest may access, by its distance from the base. -/
theorem grants_base_add {k n : Nat} (hfits : m.base.toNat + m.bytes.size ≤ 0x10000000000000000)
    (hn : 0 < n) (hk : k + n ≤ m.bytes.size)
    (hlimit : write = true → m.writableStart.toNat ≤ m.base.toNat + k) :
    m.grants write (m.base + BitVec.ofNat 64 k) (BitVec.ofNat 64 n) = true := by
  have hlt := m.size_lt
  rw [grants_iff, toNat_base_add (by omega), BitVec.toNat_ofNat]
  exact ⟨by omega, by omega, hlimit⟩

/-- The limit can be moved to any distance from the base inside the region or to its end, if that is
short of the end of the address space. -/
theorem setImmutableBelow_base_add {k : Nat}
    (hfits : m.base.toNat + m.bytes.size < 0x10000000000000000) (hk : k ≤ m.bytes.size) :
    m.setImmutableBelow (m.base + BitVec.ofNat 64 k) =
      .ok (m.limited (m.base + BitVec.ofNat 64 k)) := by
  rw [setImmutableBelow_eq_ok_iff, toNat_base_add (by omega), m.toNat_stop]
  exact ⟨by omega, by omega, rfl⟩

/-- Reading inside the region, by the distance from the base. -/
theorem read_base_add {k n : Nat} (hfits : m.base.toNat + m.bytes.size ≤ 0x10000000000000000)
    (hn : 0 < n) (hk : k + n ≤ m.bytes.size) :
    m.read (m.base + BitVec.ofNat 64 k) (BitVec.ofNat 64 n) = .ok (m.bytesAt k n) := by
  have hlt := m.size_lt
  rw [read, if_pos (contains_base_add hfits hn hk), toNat_base_add_sub (by omega),
    BitVec.toNat_ofNat, Nat.mod_eq_of_lt (by omega)]

/-- The bytes from a position on are those of a list that the region has there. -/
theorem bytesAt_eq {k : Nat} {data : List Byte}
    (h : ∀ j < data.length, m.bytes[k + j]? = data[j]?) : m.bytesAt k data.length = data := by
  refine List.ext_getElem (by simp [bytesAt]) fun j hj hj' => ?_
  have hbyte : m.bytes[k + j]? = some data[j] := by
    rw [h j hj', List.getElem?_eq_getElem hj']
  simp [bytesAt, Array.getD_eq_getD_getElem?, hbyte]

/-- Reading one byte, by the distance from the base. -/
theorem read_byte {k : Nat} {b : Byte}
    (hfits : m.base.toNat + m.bytes.size ≤ 0x10000000000000000) (hb : m.bytes[k]? = some b) :
    m.read (m.base + BitVec.ofNat 64 k) 1 = .ok [b] := by
  have hk : k < m.bytes.size := (Array.getElem?_eq_some_iff.1 hb).1
  have hbytes : m.bytesAt k [b].length = [b] := bytesAt_eq (by simpa using hb)
  rw [← hbytes]
  exact read_base_add hfits Nat.one_pos hk

/-- Access rights, with nothing wrapping around. -/
theorem inspect_eq (m : Memory) (a : Word) : m.inspect a =
    if m.base.toNat ≤ a.toNat ∧ a.toNat < m.base.toNat + m.size.toNat then
      if a.toNat < m.writableStart.toNat then .immutable else .mutable
    else .inaccessible := by
  have hone : (1 : Word).toNat = 1 := rfl
  have hcontains : m.contains a 1 = true ↔
      m.base.toNat ≤ a.toNat ∧ a.toNat < m.base.toNat + m.size.toNat := by
    rw [contains_iff, toNat_size, hone]
    omega
  rw [inspect]
  cases hin : m.contains a 1 with
  | true =>
    rw [Bool.not_true, if_neg Bool.false_ne_true, if_pos (hcontains.1 hin)]
    exact if_congr BitVec.lt_def rfl rfl
  | false => rw [Bool.not_false, if_pos rfl, if_neg (mt hcontains.2 (Bool.not_eq_true _ ▸ hin))]

/-- **Access rights** by the distance from the base of sound memory. -/
theorem Sound.inspect_base_add {k : Nat} (h : m.Sound) (hk : k < m.bytes.size) :
    m.inspect (m.base + BitVec.ofNat 64 k) =
      if m.base.toNat + k < m.writableStart.toNat then .immutable else .mutable := by
  have hfits := h.fits
  rw [inspect_eq, toNat_base_add (by omega), toNat_size, if_pos (by omega)]

/-! ## Protected bytes -/

/-- Memory at the same place with the same limit, and the same bytes below it. -/
structure Kept (m m' : Memory) : Prop extends Alike m m' where
  below : ∀ i, m.base.toNat + i < m.writableStart.toNat → m'.bytes[i]? = m.bytes[i]?

/-- Memory keeps its own bytes. -/
theorem Kept.refl (m : Memory) : m.Kept m :=
  ⟨.refl m, fun _ _ => rfl⟩

/-- What is kept twice is kept.

**Proof sketch.** The second step keeps what lies below its own limit, and the first has left the
base and the limit where they were. -/
theorem Kept.trans {m' m'' : Memory} (h : m.Kept m') (h' : m'.Kept m'') : m.Kept m'' where
  toAlike := h.toAlike.trans h'.toAlike
  below i hi := by
    rw [h'.below i (by rw [h.base, h.writableStart]; exact hi), h.below i hi]

/-- Writing bytes leaves those before them alone. -/
theorem getElem?_overwrite_of_lt (bytes : Array Byte) {i j : Nat} (data : List Byte) (h : j < i) :
    (overwrite bytes i data)[j]? = bytes[j]? := by
  induction data generalizing bytes i with
  | nil => rfl
  | cons b data ih =>
    rw [overwrite, ih _ (Nat.lt_succ_of_lt h), Array.getElem?_setIfInBounds_ne (by omega)]

/-- Writing bytes inside an array replaces those bytes and no others.

**Proof sketch.** By induction on the bytes that are written: the first goes to its place,
and the rest to the places behind it. -/
theorem getElem?_overwrite (bytes : Array Byte) (i j : Nat) (data : List Byte)
    (h : i + data.length ≤ bytes.size) :
    (overwrite bytes i data)[j]? =
      if i ≤ j ∧ j < i + data.length then data[j - i]? else bytes[j]? := by
  induction data generalizing bytes i with
  | nil =>
    rw [overwrite, if_neg (by rw [List.length_nil]; omega)]
  | cons b data ih =>
    rw [List.length_cons] at h ⊢
    rw [overwrite, ih _ _ (by rw [Array.size_setIfInBounds]; omega)]
    by_cases hij : i = j
    · subst hij
      rw [if_neg (by omega), if_pos (by omega), Nat.sub_self, List.getElem?_cons_zero,
        Array.getElem?_setIfInBounds_self_of_lt (by omega)]
    · rw [Array.getElem?_setIfInBounds_ne hij]
      by_cases hin : i + 1 ≤ j ∧ j < i + 1 + data.length
      · have hsub : j - i = (j - (i + 1)) + 1 := by omega
        rw [if_pos hin, if_pos (by omega), hsub, List.getElem?_cons_succ]
      · rw [if_neg hin, if_neg (by omega)]

/-- Stores that the region grants keep the bytes below the limit. -/
theorem Kept.setBytesAt (h : m.grants true address n = true) (data : List Byte) :
    m.Kept (m.setBytesAt (address - m.base).toNat data) where
  toAlike := .setBytesAt ..
  below i hi := by
    obtain ⟨hbase, -, hlimit⟩ := grants_iff.1 h
    have hoffset : (address - m.base).toNat = address.toNat - m.base.toNat :=
      BitVec.toNat_sub_of_le (BitVec.le_def.2 hbase)
    have hstart := hlimit rfl
    exact getElem?_overwrite_of_lt m.bytes data (by omega)

end Memory

end Dynarec
