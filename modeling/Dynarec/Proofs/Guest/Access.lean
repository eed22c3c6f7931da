import Dynarec.Proofs.Guest.Regular
import Dynarec.Proofs.Memory

/-!
# Guest accesses

Loads and stores, of one register or two, have one shape: they compute an address, and go on with
the access made if the region grants it, or fault with nothing changed.

## Main definitions

* `Dynarec.Guest.Instruction.access?` — what an instruction accesses in memory.
* `Dynarec.Guest.accessEffect` — the effect of an access.

## Main results

* `Dynarec.Guest.access?_spec` — the size of an access.
* `Dynarec.Guest.State.step_access` — the step of an instruction that accesses memory.
-/

set_option autoImplicit false

namespace Dynarec.Guest

/-- Whether an instruction stores, where, and the number of bytes; none when it accesses nothing. -/
def Instruction.access? (inst : Instruction) : Option (Bool × MemoryRef × Nat) :=
  match inst.op, inst.operands with
  | .ldr, [.reg rt, .mem m] => some (false, m, bits rt.width / 8)
  | .ldrb, [.reg _, .mem m] => some (false, m, 1)
  | .ldrh, [.reg _, .mem m] => some (false, m, 2)
  | .str, [.reg rt, .mem m] => some (true, m, bits rt.width / 8)
  | .strb, [.reg _, .mem m] => some (true, m, 1)
  | .strh, [.reg _, .mem m] => some (true, m, 2)
  | .ldp, [.reg rt, .reg _, .mem m] => some (false, m, 2 * (bits rt.width / 8))
  | .stp, [.reg rt, .reg _, .mem m] => some (true, m, 2 * (bits rt.width / 8))
  | _, _ => none

/-- The size of an access, and what an instruction that makes one is like.

**Proof sketch.** By the class of the instruction. Registers are 32 or 64 bits wide, so one
is four or eight bytes long and a pair is at most sixteen. -/
theorem access?_spec {inst : Instruction} {write : Bool} {m : MemoryRef} {n : Nat}
    (hacc : inst.access? = some (write, m, n)) :
    0 < n ∧ n ≤ 16 ∧ inst.op.endsLine = false ∧ m.base ∈ inst.named := by
  have hbits : ∀ width, 0 < bits width / 8 ∧ 2 * (bits width / 8) ≤ 16 := by
    intro width
    obtain h | h := bits_cases width <;> rw [h] <;> decide
  unfold Instruction.access? at hacc
  split at hacc <;> cases hacc
  all_goals
    rename_i hop hoperands
    simp only [Instruction.named, hop, hoperands]
  case h_2 | h_3 | h_5 | h_6 => simp [Op.endsLine]
  case h_1 | h_4 =>
    refine ⟨(hbits _).1, ?_, rfl, by simp⟩
    exact Nat.le_trans (Nat.le_mul_of_pos_left _ (by decide)) (hbits _).2
  case h_7 | h_8 => exact ⟨Nat.mul_pos (by decide) (hbits _).1, (hbits _).2, rfl, by simp⟩

/-! ## Effects -/

/-- The effect of an access to `n` bytes that leaves a guest state behind if memory grants it. -/
def accessEffect (write : Bool) (m : MemoryRef) (n : Nat) (after : State → Word → Option State)
    (g : State) : Option Effect :=
  (g.address m).bind fun address => (after g address).map fun g' =>
    if g.memory.grants write address (BitVec.ofNat 64 n) then .next g' else .fault address g

section Effects

variable (g : State) (rt rt2 : Register) (m : MemoryRef) (n : Nat)

/-- A load may be made where memory grants it. -/
theorem mayLoad_eq (address : Word) :
    g.mayLoad address n = g.memory.grants false address (BitVec.ofNat 64 n) := by
  rw [State.mayLoad, Memory.grants, Bool.not_false, Bool.true_or, Bool.and_true]

/-- A store may be made where memory grants it, with the limit taken into account. -/
theorem mayStore_eq (address : Word) :
    g.mayStore address n = g.memory.grants true address (BitVec.ofNat 64 n) := by
  rw [State.mayStore, Memory.grants, Bool.not_true, Bool.false_or]

/-- A load is an access that writes a register. -/
theorem load_effect : g.load rt m n =
    accessEffect false m n (fun g address => g.write rt (g.loaded address n)) g := by
  unfold State.load accessEffect
  cases g.address m with
  | none => rfl
  | some address =>
    cases hwrite : g.write rt (g.loaded address n) <;>
      simp [hwrite, mayLoad_eq]

/-- A store is an access that replaces bytes. -/
theorem store_effect : g.store rt m n = accessEffect true m n
    (fun g address => (g.read rt).map fun v => g.stored address (littleEndian n v.toNat)) g := by
  unfold State.store accessEffect
  cases hread : g.read rt <;> cases g.address m <;> simp [hread, mayStore_eq]

/-- A load of two registers is one access to the bytes of both. The second value comes from the
bytes behind the first, and both are written behind one check. -/
theorem loadPair_effect : g.loadPair rt rt2 m n = accessEffect false m (2 * n)
    (fun g address => (g.write rt (g.loaded address n)).bind fun g' =>
      g'.write rt2 (g.loaded (address + BitVec.ofNat 64 n) n)) g := by
  unfold State.loadPair accessEffect
  cases g.address m with
  | none => rfl
  | some address =>
    cases hwrite : g.write rt (g.loaded address n) with
    | none => simp [hwrite]
    | some g' =>
      cases hwrite2 : g'.write rt2 (g.loaded (address + BitVec.ofNat 64 n) n) <;>
        simp [hwrite, hwrite2, mayLoad_eq]

/-- A store of two registers is one access that replaces the bytes of both. -/
theorem storePair_effect : g.storePair rt rt2 m n = accessEffect true m (2 * n)
    (fun g address => (g.read rt).bind fun v => (g.read rt2).map fun v2 =>
      g.stored address (littleEndian n v.toNat ++ littleEndian n v2.toNat)) g := by
  unfold State.storePair accessEffect
  cases hread : g.read rt <;> cases hread2 : g.read rt2 <;> cases g.address m <;>
    simp [hread, hread2, mayStore_eq]

end Effects

section Steps

variable {inst : Instruction} {write : Bool} {m : MemoryRef} {n : Nat}

/-- The step of an instruction that accesses memory has the effect of an access.

**Proof sketch.** One case for each shape of instruction. The shapes that access memory have
the effect of their load or store; the others have no access. -/
theorem exists_accessEffect (h : Regular inst) (hacc : inst.access? = some (write, m, n))
    (pc : Word) (s : State) : ∃ after, s.step pc inst = accessEffect write m n after s := by
  cases h with
  | word hop =>
    obtain rfl | rfl := hop <;> cases hacc
    · exact ⟨_, load_effect s _ m _⟩
    · exact ⟨_, store_effect s _ m _⟩
  | narrow hop =>
    obtain rfl | rfl | rfl | rfl := hop <;> cases hacc
    · exact ⟨_, load_effect s _ m 1⟩
    · exact ⟨_, load_effect s _ m 2⟩
    · exact ⟨_, store_effect s _ m 1⟩
    · exact ⟨_, store_effect s _ m 2⟩
  | pair hop =>
    obtain rfl | rfl := hop <;> cases hacc
    · exact ⟨_, loadPair_effect s _ _ m _⟩
    · exact ⟨_, storePair_effect s _ _ m _⟩
  | sum hop | logical hop => obtain rfl | rfl | rfl | rfl := hop <;> cases hacc
  | compare hop | condCompare hop => obtain rfl | rfl := hop <;> cases hacc
  | moveWide hop => obtain rfl | rfl | rfl := hop <;> cases hacc
  | move | address | branch | branchCond | ret | nop => cases hacc

/-- **The step of an access** goes on if the region grants it, and otherwise faults and leaves the
state alone. -/
theorem State.step_access (h : Regular inst) (hacc : inst.access? = some (write, m, n)) {pc : Word}
    {s : State} {effect : Effect} (hstep : s.step pc inst = some effect) :
    ∃ address t, s.address m = some address ∧ effect =
      if s.memory.grants write address (BitVec.ofNat 64 n) then .next t else .fault address s := by
  obtain ⟨after, hafter⟩ := exists_accessEffect h hacc pc s
  rw [hafter, accessEffect, Option.bind_eq_some_iff] at hstep
  obtain ⟨address, haddress, hstep⟩ := hstep
  obtain ⟨t, -, rfl⟩ := Option.map_eq_some_iff.1 hstep
  exact ⟨address, t, haddress, rfl⟩

end Steps

end Dynarec.Guest
