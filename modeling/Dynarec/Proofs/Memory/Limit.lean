import Dynarec.Proofs.Memory
import Mathlib.Data.List.Induction

/-!
# Moving the limit of guest memory

The limit can be moved to any address of the region and to its end, as long as the end is an
address. A region that ends where the address space does has the end zero, below its base: there
the limit cannot be moved at all, and nothing can be made immutable.

## Main definitions

* `Dynarec.Memory.moveLimit`, `Dynarec.Memory.moveLimits` — attempts to move the limit.
* `Dynarec.Memory.LimitInside` — the limit lies in the region or at its end.

## Main results

* `Dynarec.Memory.exists_setImmutableBelow_iff` — where the limit can be moved to.
* `Dynarec.Memory.moveLimit_spec`, `Dynarec.Memory.moveLimits_spec` — what one attempt and what any
  attempts leave behind.
* `Dynarec.Memory.LimitInside.inspect_iff` — access rights by the bounds and the limit.
* `Dynarec.Memory.limit_moves_iff` — the limit after any attempts.
-/

set_option autoImplicit false

namespace Dynarec.Memory

variable {m m' : Memory} {address : Word}

/-! ## One attempt -/

/-- The memory after an attempt to move its limit. One that fails leaves it as it was. -/
def moveLimit (m : Memory) (address : Word) : Memory :=
  (m.setImmutableBelow address).toOption.getD m

/-- The memory after the limit has been moved. -/
theorem moveLimit_of_ok (h : m.setImmutableBelow address = .ok m') : m.moveLimit address = m' := by
  rw [moveLimit, h]
  rfl

/-- A limit that is refused leaves memory alone. -/
theorem moveLimit_of_error {e : MemoryError} (h : m.setImmutableBelow address = .error e) :
    m.moveLimit address = m := by
  rw [moveLimit, h]
  rfl

/-- **Where the limit can be moved to**, in a region that does not run on past the end of the
address space: anywhere from the base to the end, if the region ends short of the end of the address
space, and nowhere otherwise. -/
theorem exists_setImmutableBelow_iff (hfits : m.base.toNat + m.size.toNat ≤ 0x10000000000000000)
    (address : Word) : (∃ m', m.setImmutableBelow address = .ok m') ↔
      (m.base.toNat ≤ address.toNat ∧ address.toNat ≤ m.base.toNat + m.size.toNat) ∧
        m.base.toNat + m.size.toNat < 0x10000000000000000 := by
  have hlt := m.size_lt
  have hstop := m.toNat_stop
  rw [toNat_size] at hfits ⊢
  constructor
  · rintro ⟨m', hm'⟩
    obtain ⟨hbase, hend, -⟩ := setImmutableBelow_eq_ok_iff.1 hm'
    -- a region that ends with the address space has the end zero, and its base above that
    omega
  · rintro ⟨⟨hbase, hend⟩, hshort⟩
    exact ⟨_, setImmutableBelow_eq_ok_iff.2 ⟨hbase, by omega, rfl⟩⟩

/-- The limit lies in the region or at its end, with nothing wrapping around. -/
structure LimitInside (m : Memory) : Prop where
  base_le : m.base.toNat ≤ m.writableStart.toNat
  le_end : m.writableStart.toNat ≤ m.base.toNat + m.size.toNat

/-- An attempt changes nothing but the limit, and leaves it inside. -/
theorem moveLimit_spec (h : m.LimitInside) (address : Word) :
    (m.moveLimit address).LimitInside ∧
      m.moveLimit address = m.limited (m.moveLimit address).writableStart := by
  cases hlimit : m.setImmutableBelow address with
  | ok m' =>
    rw [moveLimit_of_ok hlimit]
    obtain ⟨hbase, hend, rfl⟩ := setImmutableBelow_eq_ok_iff.1 hlimit
    rw [toNat_stop, ← toNat_size] at hend
    exact ⟨⟨hbase, Nat.le_trans hend (Nat.mod_le _ _)⟩, rfl⟩
  | error e =>
    rw [moveLimit_of_error hlimit]
    exact ⟨h, rfl⟩

/-! ## Any attempts -/

/-- The memory after some attempts to move its limit. -/
def moveLimits (m : Memory) (addresses : List Word) : Memory :=
  addresses.foldl moveLimit m

/-- Moving the limit once more. -/
theorem moveLimits_concat (m : Memory) (addresses : List Word) (address : Word) :
    m.moveLimits (addresses ++ [address]) = (m.moveLimits addresses).moveLimit address := by
  rw [moveLimits, List.foldl_append]
  rfl

/-- Any attempts change nothing but the limit, and leave it inside. -/
theorem moveLimits_spec (h : m.LimitInside) (addresses : List Word) :
    (m.moveLimits addresses).LimitInside ∧
      m.moveLimits addresses = m.limited (m.moveLimits addresses).writableStart := by
  induction addresses using List.reverseRecOn with
  | nil => exact ⟨h, rfl⟩
  | append_singleton addresses address ih =>
    obtain ⟨hinside, heq⟩ := moveLimit_spec ih.1 address
    rw [moveLimits_concat]
    refine ⟨hinside, heq.trans ?_⟩
    rw [ih.2, limited_limited, ← ih.2]

/-- Where no attempt succeeds, attempts change nothing. -/
theorem moveLimits_of_none (h : ∀ address, ¬ ∃ m', m.setImmutableBelow address = .ok m')
    (addresses : List Word) : m.moveLimits addresses = m := by
  induction addresses with
  | nil => rfl
  | cons address addresses ih =>
    have hstays : m.moveLimit address = m := by
      cases hlimit : m.setImmutableBelow address with
      | ok m' => exact absurd ⟨m', hlimit⟩ (h address)
      | error e => exact moveLimit_of_error hlimit
    rw [moveLimits, List.foldl_cons, hstays]
    exact ih

/-! ## Access rights -/

/-- **Access rights** by the bounds and the limit: immutable below the limit, mutable from it on,
and none outside the region. -/
theorem LimitInside.inspect_iff (h : m.LimitInside) (a : Word) :
    (m.inspect a = .immutable ↔ m.base.toNat ≤ a.toNat ∧ a.toNat < m.writableStart.toNat) ∧
    (m.inspect a = .mutable ↔
      m.writableStart.toNat ≤ a.toNat ∧ a.toNat < m.base.toNat + m.size.toNat) ∧
    (m.inspect a = .inaccessible ↔
      ¬ (m.base.toNat ≤ a.toNat ∧ a.toNat < m.base.toNat + m.size.toNat)) := by
  have hlow := h.base_le
  have hhigh := h.le_end
  rw [inspect_eq]
  split_ifs with hin hbelow
  all_goals
    simp only [false_iff, true_iff]
    omega

/-! ## The limit after any attempts -/

/-- **Where the limit can be moved to after any attempts.** In fresh memory that does not run on
past the end of the address space, an attempt succeeds exactly if the address lies in the region or
at its end and the region ends short of the end of the address space; it then changes the limit and
nothing else, and an attempt that fails changes nothing. The limit stays in the region or at its
end, and the access rights are as it says. So the limit can be moved to every address of the region
and to its end exactly if the region ends short of the end of the address space. One that ends there
stays as it was created.

**Proof sketch.** In fresh memory the limit is at the base, which is inside, and attempts
keep it inside and change nothing else (`moveLimits_spec`). Moving it succeeds between base and
end, unless the region ends with the address space, where its end is zero
(`exists_setImmutableBelow_iff`). The rights at an address are read off the limit
(`LimitInside.inspect_iff`). -/
theorem limit_moves_iff {base : Word} {size : Int} (h : create base size = .ok m)
    (hfits : base.toNat + m.size.toNat ≤ 0x10000000000000000) (addresses : List Word) :
    let now := m.moveLimits addresses
    let low := base.toNat
    let high := base.toNat + m.size.toNat
    (now.base = base ∧ now.bytes = m.bytes) ∧
    (∀ address : Word, (∃ m', now.setImmutableBelow address = .ok m') ↔
      (low ≤ address.toNat ∧ address.toNat ≤ high) ∧ high < 0x10000000000000000) ∧
    (∀ address m', now.setImmutableBelow address = .ok m' →
      now.moveLimit address = m' ∧ m' = now.limited address) ∧
    (∀ address e, now.setImmutableBelow address = .error e → now.moveLimit address = now) ∧
    (low ≤ now.writableStart.toNat ∧ now.writableStart.toNat ≤ high) ∧
    (∀ a : Word,
      (now.inspect a = .immutable ↔ low ≤ a.toNat ∧ a.toNat < now.writableStart.toNat) ∧
      (now.inspect a = .mutable ↔ now.writableStart.toNat ≤ a.toNat ∧ a.toNat < high) ∧
      (now.inspect a = .inaccessible ↔ ¬ (low ≤ a.toNat ∧ a.toNat < high))) ∧
    ((∀ address : Word, (∃ m', now.setImmutableBelow address = .ok m') ↔
      low ≤ address.toNat ∧ address.toNat ≤ high) ↔ high < 0x10000000000000000) ∧
    (high = 0x10000000000000000 → now = m) := by
  intro now low high
  obtain ⟨-, rfl, hstart, -⟩ := create_eq_ok h
  have hfresh : m.LimitInside :=
    ⟨Nat.le_of_eq (by rw [hstart]), by rw [hstart]; exact Nat.le_add_right _ _⟩
  obtain ⟨hinside, hnow⟩ : now.LimitInside ∧ now = m.limited now.writableStart :=
    moveLimits_spec hfresh addresses
  have hbase : now.base = m.base := (congrArg Memory.base hnow).trans (limited_base ..)
  have hbytes : now.bytes = m.bytes := (congrArg Memory.bytes hnow).trans (limited_bytes ..)
  have hsize : now.size = m.size := by rw [Memory.size, hbytes, Memory.size]
  have hmoves : ∀ address : Word, (∃ m', now.setImmutableBelow address = .ok m') ↔
      (low ≤ address.toNat ∧ address.toNat ≤ high) ∧ high < 0x10000000000000000 := fun address => by
    rw [exists_setImmutableBelow_iff (by rwa [hbase, hsize]), hbase, hsize]
  refine ⟨⟨hbase, hbytes⟩, hmoves, fun address m' hm' => ?_, fun address e => moveLimit_of_error,
    ?_, fun a => ?_, ⟨fun hall => ?_, fun hshort address => ?_⟩, fun hlast => ?_⟩
  · exact ⟨moveLimit_of_ok hm', (setImmutableBelow_eq_ok_iff.1 hm').2.2⟩
  · have hbounds := And.intro hinside.base_le hinside.le_end
    rwa [hbase, hsize] at hbounds
  · have hrights := hinside.inspect_iff a
    rwa [hbase, hsize] at hrights
  · -- the base is in every region, so an attempt to move the limit there tells the two cases apart
    exact ((hmoves m.base).1 ((hall m.base).2 ⟨Nat.le_refl _, Nat.le_add_right _ _⟩)).2
  · rw [hmoves, and_iff_left hshort]
  · refine moveLimits_of_none (fun address hmoved => ?_) addresses
    have hshort := ((exists_setImmutableBelow_iff hfits address).1 hmoved).2
    omega

/-- One page at the end of the address space: its limit cannot be moved, neither to the middle of
the page nor to where it is. -/
theorem limit_stays_at_end :
    create 0xfffffffffffff000 4096 = .ok (page 0xfffffffffffff000) ∧
      (¬ ∃ m', (page 0xfffffffffffff000).setImmutableBelow 0xfffffffffffff800 = .ok m') ∧
      (¬ ∃ m', (page 0xfffffffffffff000).setImmutableBelow 0xfffffffffffff000 = .ok m') ∧
      (page 0xfffffffffffff000).inspect 0xfffffffffffff000 = .mutable := by
  have hcreate : create 0xfffffffffffff000 4096 = .ok (page 0xfffffffffffff000) := rfl
  have hsize : (page 0xfffffffffffff000).size.toNat = 4096 := by
    rw [toNat_size, page, Array.size_replicate]
  obtain ⟨-, hmoves, -, -, -, hrights, -, -⟩ := limit_moves_iff hcreate (by rw [hsize]; decide) []
  rw [hsize] at hmoves hrights
  exact ⟨hcreate, fun hmoved => absurd ((hmoves _).1 hmoved).2 (by decide),
    fun hmoved => absurd ((hmoves _).1 hmoved).2 (by decide), (hrights _).2.1.2 (by decide)⟩

end Dynarec.Memory
