import Dynarec.Proofs.Memory
import Mathlib.Data.List.Induction

/-!
# Guest memory as an array of bytes

Addresses are compared as numbers without a bound: the region is the range of numbers from its base
up to its base plus its size, even where it runs on past the end of the address space. A range of
addresses is inside the region if its numbers are, whatever wraps around in the check. What is read
is, for every byte, what was last written there.

## Main definitions

* `Dynarec.Memory.Request`, `Dynarec.Memory.serve` — a request of the host, and what it does.
* `Dynarec.Memory.Within` — a range of numbers lies inside another.
* `Dynarec.Memory.lastByte` — the byte that requests have last put at an address.
* `Dynarec.Memory.Holds` — memory holds what requests have put into it.

## Main results

* `Dynarec.Memory.contains_iff_within` — what is inside the region.
* `Dynarec.Memory.Holds.serve`, `Dynarec.Memory.holds_after` — what one request and what any
  requests leave behind.
* `Dynarec.Memory.requests_exact` — every request after any requests.
-/

set_option autoImplicit false

namespace Dynarec.Memory

/-! ## Requests -/

/-- A request of the host to memory. Bytes to be written are fewer than half the address space. -/
inductive Request where
  | write (address : Word) (data : List Byte) (short : data.length < 0x8000000000000000)
  | read (address n : Word)
  | readWord (address : Word)

/-- The memory after a request. A write that fails leaves it as it was. -/
def serve (m : Memory) : Request → Memory
  | .write address data _ => (m.write address data).toOption.getD m
  | .read _ _ | .readWord _ => m

/-- The memory after some requests. -/
def after (m : Memory) (rs : List Request) : Memory :=
  rs.foldl serve m

/-! ## What memory should hold -/

/-- The `n` numbers from `a` on lie in the range from `low` up to `high`. -/
def Within (low high a n : Nat) : Prop :=
  low ≤ a ∧ a + n ≤ high

/-- Whether numbers lie in a range is a comparison. -/
instance (low high a n : Nat) : Decidable (Within low high a n) :=
  inferInstanceAs (Decidable (_ ∧ _))

/-- The byte that a request puts at an address of the range from `low` up to `high`. A write that
does not lie inside puts none anywhere. -/
def Request.byte? (low high a : Nat) : Request → Option Byte
  | .write address data _ =>
    if Within low high address.toNat data.length ∧ address.toNat ≤ a then data[a - address.toNat]?
    else none
  | .read _ _ | .readWord _ => none

/-- The byte that requests have last put at an address, or zero. -/
def lastByte (low high : Nat) (rs : List Request) (a : Nat) : Byte :=
  (rs.filterMap (Request.byte? low high a)).getLast?.getD 0

variable {m : Memory} {address : Word} {data : List Byte} {rs : List Request}

/-- The last request decides about the addresses it writes, and leaves the others to the requests
before it. -/
theorem lastByte_concat (low high : Nat) (rs : List Request) (r : Request) (a : Nat) :
    lastByte low high (rs ++ [r]) a = (r.byte? low high a).getD (lastByte low high rs a) := by
  unfold lastByte
  rw [List.filterMap_append]
  cases h : r.byte? low high a <;> simp [h]

/-- A write inside the range puts its bytes at its own addresses. -/
theorem Request.byte?_write {low high : Nat} (short : data.length < 0x8000000000000000)
    (h : Within low high address.toNat data.length) (a : Nat) :
    (Request.write address data short).byte? low high a =
      if address.toNat ≤ a ∧ a < address.toNat + data.length then data[a - address.toNat]?
      else none := by
  rw [byte?]
  by_cases hlow : address.toNat ≤ a
  · by_cases hhigh : a < address.toNat + data.length
    · rw [if_pos ⟨h, hlow⟩, if_pos ⟨hlow, hhigh⟩]
    · rw [if_pos ⟨h, hlow⟩, if_neg fun hin => hhigh hin.2, List.getElem?_eq_none (by omega)]
  · rw [if_neg fun hin => hlow hin.2, if_neg fun hin => hlow hin.1]

/-! ## Bounds -/

/-- **What is inside the region**, with nothing wrapping around. -/
theorem contains_iff_within {n : Word} : m.contains address n = true ↔
    Within m.base.toNat (m.base.toNat + m.size.toNat) address.toNat n.toNat := by
  rw [contains_iff, toNat_size]
  unfold Within
  omega

/-- A list shorter than half the address space has its length as a word. -/
theorem toNat_length (short : data.length < 0x8000000000000000) :
    (BitVec.ofNat 64 data.length).toNat = data.length := by
  rw [BitVec.toNat_ofNat]
  omega

/-- A write outside the region fails. -/
theorem write_of_not_within (short : data.length < 0x8000000000000000)
    (h : ¬ Within m.base.toNat (m.base.toNat + m.size.toNat) address.toNat data.length) :
    m.write address data = .error (.write data.length address) := by
  rw [write, if_neg]
  rwa [contains_iff_within, toNat_length short]

/-- A write inside the region replaces the bytes of its range and no others.

**Proof sketch.** The range lies inside the region, so the offset of its first address is the
distance to the base, without wrapping around. What is written there is known byte by byte
(`getElem?_overwrite`). -/
theorem write_of_within (short : data.length < 0x8000000000000000)
    (h : Within m.base.toNat (m.base.toNat + m.size.toNat) address.toNat data.length) :
    ∃ m', m.write address data = .ok m' ∧ m.Alike m' ∧ ∀ k, m'.bytes[k]? =
      if address.toNat ≤ m.base.toNat + k ∧ m.base.toNat + k < address.toNat + data.length then
        data[m.base.toNat + k - address.toNat]?
      else m.bytes[k]? := by
  have hcontains : m.contains address (BitVec.ofNat 64 data.length) = true := by
    rwa [contains_iff_within, toNat_length short]
  refine ⟨_, write_eq_ok_iff.2 ⟨hcontains, rfl⟩, .setBytesAt .., fun k => ?_⟩
  obtain ⟨hlow, hhigh⟩ := h
  rw [toNat_size] at hhigh
  have hoffset : (address - m.base).toNat = address.toNat - m.base.toNat :=
    BitVec.toNat_sub_of_le (BitVec.le_def.2 hlow)
  rw [setBytesAt, hoffset, getElem?_overwrite _ _ _ _ (by omega)]
  by_cases hin : address.toNat ≤ m.base.toNat + k ∧ m.base.toNat + k < address.toNat + data.length
  · have hsub : k - (address.toNat - m.base.toNat) = m.base.toNat + k - address.toNat := by omega
    rw [if_pos hin, if_pos (by omega), hsub]
  · rw [if_neg hin, if_neg (by omega)]

/-- The memory after a write that succeeds. -/
theorem serve_of_write {m' : Memory} (short : data.length < 0x8000000000000000)
    (h : m.write address data = .ok m') : m.serve (.write address data short) = m' := by
  rw [serve, h]
  rfl

/-- A write that fails leaves memory alone. -/
theorem serve_of_write_error {e : MemoryError} (short : data.length < 0x8000000000000000)
    (h : m.write address data = .error e) : m.serve (.write address data short) = m := by
  rw [serve, h]
  rfl

/-- A word is read where its eight bytes are, and is the number that they spell. -/
theorem readWord_eq (m : Memory) (address : Word) : m.readWord address =
    (m.read address 8).map fun bytes => BitVec.ofNat 64 (ofLittleEndian bytes) := by
  have height : (8 : Word).toNat = 8 := rfl
  rw [readWord, read, height]
  split <;> rfl

/-! ## Any requests -/

/-- Memory at a base holds what requests have put into a region of zeros. -/
structure Holds (base size : Word) (rs : List Request) (m : Memory) : Prop where
  base_eq : m.base = base
  size_eq : m.size = size
  byte : ∀ k < size.toNat,
    m.bytes[k]? = some (lastByte base.toNat (base.toNat + size.toNat) rs (base.toNat + k))

/-- Fresh memory holds zeros. -/
theorem holds_of_create {base : Word} {size : Int} (h : create base size = .ok m) :
    Holds base m.size [] m := by
  obtain ⟨-, hbase, -, hbytes⟩ := create_eq_ok h
  refine ⟨hbase, rfl, fun k hk => ?_⟩
  rw [toNat_size, hbytes, Array.size_replicate] at hk
  rw [hbytes, Array.getElem?_replicate, if_pos hk]
  rfl

/-- **What a request leaves behind.**

**Proof sketch.** A request that puts no byte anywhere leaves memory alone. A write inside the
region replaces the bytes of its range, which are those that it puts somewhere. -/
theorem Holds.serve {base size : Word} (h : Holds base size rs m) (r : Request) :
    Holds base size (rs ++ [r]) (m.serve r) := by
  have hkeep : (∀ a, r.byte? base.toNat (base.toNat + size.toNat) a = none) →
      Holds base size (rs ++ [r]) m := fun hnone =>
    ⟨h.base_eq, h.size_eq, fun k hk => by
      rw [lastByte_concat, hnone, Option.getD_none, h.byte k hk]⟩
  cases r with
  | read _ _ => exact hkeep fun _ => rfl
  | readWord _ => exact hkeep fun _ => rfl
  | write address data short =>
    by_cases hin : Within base.toNat (base.toNat + size.toNat) address.toNat data.length
    · have hin' : Within m.base.toNat (m.base.toNat + m.size.toNat) address.toNat data.length := by
        rwa [h.base_eq, h.size_eq]
      obtain ⟨m', hm', halike, hbytes⟩ := write_of_within short hin'
      rw [serve_of_write short hm']
      refine ⟨halike.base.trans h.base_eq, ?_, fun k hk => ?_⟩
      · rw [← h.size_eq, Memory.size, Memory.size, halike.size]
      · rw [hbytes, h.base_eq, lastByte_concat, Request.byte?_write short hin]
        by_cases hat :
            address.toNat ≤ base.toNat + k ∧ base.toNat + k < address.toNat + data.length
        · rw [if_pos hat, if_pos hat, List.getElem?_eq_getElem (by omega), Option.getD_some]
        · rw [if_neg hat, if_neg hat, Option.getD_none, h.byte k hk]
    · have herror := write_of_not_within (m := m) short (by rwa [h.base_eq, h.size_eq])
      rw [serve_of_write_error short herror]
      exact hkeep fun a => if_neg fun hput => hin hput.1

/-- **What any requests leave behind.** -/
theorem holds_after {base : Word} {size : Int} (h : create base size = .ok m) (rs : List Request) :
    Holds base m.size rs (m.after rs) := by
  induction rs using List.reverseRecOn with
  | nil => exact holds_of_create h
  | append_singleton rs r ih =>
    rw [after, List.foldl_append]
    exact ih.serve r

/-- What is read inside the region, and that nothing is read elsewhere.

**Proof sketch.** The test is that of the region, which has stayed where it is. Each byte
that is read is the one that was written last to its address (`Holds.byte`). -/
theorem Holds.read_eq {base size : Word} (h : Holds base size rs m) (address n : Word) :
    m.read address n =
      if Within base.toNat (base.toNat + size.toNat) address.toNat n.toNat then
        .ok ((List.range n.toNat).map fun k =>
          lastByte base.toNat (base.toNat + size.toNat) rs (address.toNat + k))
      else .error (.read n.toNat address) := by
  rw [read]
  refine ite_congr ?_ (fun hin => ?_) fun _ => rfl
  · rw [contains_iff_within, h.base_eq, h.size_eq]
  · obtain ⟨hlow, hhigh⟩ := hin
    have hoffset : (address - m.base).toNat = address.toNat - base.toNat := by
      rw [h.base_eq]
      exact BitVec.toNat_sub_of_le (BitVec.le_def.2 hlow)
    rw [bytesAt, hoffset, Except.ok.injEq]
    refine List.map_congr_left fun k hk => ?_
    have hk : k < n.toNat := List.mem_range.1 hk
    have haddress : base.toNat + (address.toNat - base.toNat + k) = address.toNat + k := by omega
    rw [Array.getD_eq_getD_getElem?, h.byte _ (by omega), haddress, Option.getD_some]

/-! ## Every request after any requests -/

/-- **Memory is an array of bytes with exact bounds.** After any requests to fresh memory, a range
of addresses is inside the region exactly if its numbers lie between the base and the base plus the
size. A write fails exactly if its range is not inside, and then changes nothing; otherwise it
replaces the bytes of its range and leaves the others, the bounds and the limit alone. A read fails
exactly if its range is not inside, and gives for every byte what was last written there, or zero. A
word is read exactly where eight bytes are, and is the number that they spell.

**Proof sketch.** After any requests the region is where it was and holds the bytes that were
written last (`holds_after`). Writing inside it replaces its range (`write_of_within`), and
elsewhere fails and changes nothing (`write_of_not_within`). What is read is `Holds.read_eq`. -/
theorem requests_exact {base : Word} {size : Int} (h : create base size = .ok m)
    (rs : List Request) :
    let now := m.after rs
    let low := base.toNat
    let high := base.toNat + m.size.toNat
    (now.base = base ∧ now.size = m.size) ∧
    (∀ address n : Word, now.contains address n = true ↔
      low ≤ address.toNat ∧ address.toNat + n.toNat ≤ high) ∧
    (∀ (address : Word) (data : List Byte) (short : data.length < 0x8000000000000000),
      ((∃ e, now.write address data = .error e) ↔
        ¬ (low ≤ address.toNat ∧ address.toNat + data.length ≤ high)) ∧
      (∀ e, now.write address data = .error e →
        e = .write data.length address ∧ now.serve (.write address data short) = now) ∧
      ∀ m', now.write address data = .ok m' →
        now.serve (.write address data short) = m' ∧ now.Alike m' ∧ ∀ k, m'.bytes[k]? =
          if address.toNat ≤ low + k ∧ low + k < address.toNat + data.length then
            data[low + k - address.toNat]?
          else now.bytes[k]?) ∧
    (∀ address n : Word, now.read address n =
      if low ≤ address.toNat ∧ address.toNat + n.toNat ≤ high then
        .ok ((List.range n.toNat).map fun k => lastByte low high rs (address.toNat + k))
      else .error (.read n.toNat address)) ∧
    ∀ address : Word, now.readWord address =
      (now.read address 8).map fun bytes => BitVec.ofNat 64 (ofLittleEndian bytes) := by
  intro now low high
  have hholds : Holds base m.size rs now := holds_after h rs
  have hrange : ∀ a n, Within now.base.toNat (now.base.toNat + now.size.toNat) a n ↔
      low ≤ a ∧ a + n ≤ high := fun a n => by rw [hholds.base_eq, hholds.size_eq]; rfl
  refine ⟨⟨hholds.base_eq, hholds.size_eq⟩, fun address n => contains_iff_within.trans (hrange _ _),
    fun address data short => ?_, hholds.read_eq, now.readWord_eq⟩
  by_cases hin : low ≤ address.toNat ∧ address.toNat + data.length ≤ high
  · obtain ⟨m', hm', halike, hbytes⟩ := write_of_within short ((hrange _ _).2 hin)
    have hserve := serve_of_write short hm'
    rw [hm']
    refine ⟨iff_of_false (by simp) (not_not.2 hin), by simp, ?_⟩
    rintro _ ⟨⟩
    refine ⟨hserve, halike, fun k => ?_⟩
    rw [hbytes, hholds.base_eq]
  · have herror := write_of_not_within short fun hwithin => hin ((hrange _ _).1 hwithin)
    have hserve := serve_of_write_error short herror
    rw [herror]
    refine ⟨iff_of_true ⟨_, rfl⟩ hin, ?_, by simp⟩
    rintro _ ⟨⟩
    exact ⟨rfl, hserve⟩

/-- A region that runs on past the end of the address space: its bytes there are written and read
from addresses below the end, the later of two writes counts, and the address zero is outside. -/
theorem requests_exact_past_end :
    let rs : List Request := [.write 0xfffffffffffffffe [1, 2, 3, 4] (by decide),
      .write 0xffffffffffffffff [9] (by decide)]
    ∃ m, create 0xfffffffffffff000 8192 = .ok m ∧
      (m.after rs).read 0xfffffffffffffffe 4 = .ok [1, 9, 3, 4] ∧
      (m.after rs).contains 0 1 = false := by
  intro rs
  obtain ⟨m, hm⟩ := exists_create 0xfffffffffffff000 (show (0 : Int) < 8192 by decide) (by decide)
  have hsize : m.size.toNat = 8192 := by
    obtain ⟨-, -, -, hbytes⟩ := create_eq_ok hm
    rw [toNat_size, hbytes, Array.size_replicate]
    decide
  obtain ⟨-, hcontains, -, hread, -⟩ := requests_exact hm rs
  refine ⟨m, hm, ?_, ?_⟩
  · rw [hread, hsize]
    decide
  · rw [← Bool.not_eq_true, hcontains]
    exact fun hin => absurd hin.1 (by decide)

end Dynarec.Memory
