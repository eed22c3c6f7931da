import Dynarec.Proofs.Guest.Line

/-!
# Lines under another limit

A line that is run with another limit on memory does the same as before, up to the first store that
one of the two limits allows and the other does not. There the two part for good: one run faults at
the store and the other goes on behind it.

## Main definitions

* `Dynarec.Guest.Disputes` — an instruction stores where only one of two limits allows it.
* `Dynarec.Guest.Disputed` — a line comes to such an instruction.

## Main results

* `Dynarec.Guest.State.step_limited` — instructions under another limit.
* `Dynarec.Guest.lineOutcome_limited` — lines that come to no dispute.
* `Dynarec.Guest.Disputed.parts` — lines that come to one.
-/

set_option autoImplicit false

namespace Dynarec.Guest

/-- The state with another limit on memory. -/
def State.limited (s : State) (w : Word) : State :=
  { s with memory := s.memory.limited w }

/-- The effect with another limit on memory. -/
def Effect.limited (w : Word) : Effect → Effect
  | .next s => .next (s.limited w)
  | .jump distance s => .jump distance (s.limited w)
  | .halt s => .halt (s.limited w)
  | .fault address s => .fault address (s.limited w)

/-- The instruction stores into the region where one of the limit in force and another limit allows
it and the other does not. -/
def Disputes (w : Word) (s : State) (inst : Instruction) : Prop :=
  ∃ m n address, inst.access? = some (true, m, n) ∧ s.address m = some address ∧
    s.memory.contains address (BitVec.ofNat 64 n) = true ∧
    (s.memory.writableStart ≤ address ↔ ¬ w ≤ address)

/-! ## Instructions -/

namespace State

section Parts

variable (s : State) (w : Word)

/-- Registers are read the same way under either limit. -/
@[simp] theorem read_limited (r : Register) : (s.limited w).read r = s.read r := rfl

/-- The flags have nothing to do with the limit. -/
@[simp] theorem flags_limited : (s.limited w).flags = s.flags := rfl

/-- Addresses are formed from registers, so the limit does not matter for them. -/
@[simp] theorem address_limited (m : MemoryRef) : (s.limited w).address m = s.address m := rfl

/-- The program counter can be set before or after the limit. -/
@[simp] theorem setPc_limited (pc : Word) : (s.limited w).setPc pc = (s.setPc pc).limited w := rfl

/-- Second operands are read the same way under either limit. -/
@[simp] theorem source_limited (n : Nat) (src : Operand) :
    (s.limited w).source n src = s.source n src := by
  cases src <;> rfl

/-- A register that can be written under one limit can be written under the other, with the same
states but for the limit. -/
@[simp] theorem write_limited (r : Register) (v : Word) :
    (s.limited w).write r v = (s.write r v).map fun t => t.limited w := by
  unfold write
  split
  · rfl
  · rw [Option.map_map]
    rfl

/-- Whether a load may be made does not depend on the limit: it only has to stay inside the
region. -/
@[simp] theorem mayLoad_limited (address : Word) (n : Nat) :
    (s.limited w).mayLoad address n = s.mayLoad address n := rfl

end Parts

variable {s : State} {w : Word}

/-- Computations that go on alike under both limits. -/
theorem bind_limited {α : Type} {o : Option α} {k k' : α → Option Effect}
    (h : ∀ a, k' a = (k a).map (.limited w)) :
    (do let a ← o; k' a) = (do let a ← o; k a).map (.limited w) := by
  cases o with
  | none => rfl
  | some a => exact h a

/-- Computations that write a register and go on alike under both limits. -/
theorem write_bind_limited {r : Register} {v : Word} {k k' : State → Option Effect}
    (h : ∀ t, k' (t.limited w) = (k t).map (.limited w)) :
    (do let t ← (s.limited w).write r v; k' t) =
      (do let t ← s.write r v; k t).map (.limited w) := by
  rw [write_limited]
  cases s.write r v with
  | none => rfl
  | some t => exact h t

/-- Sums and differences have the same effect under another limit.

**Proof sketch.** The operands are read alike, and the result and the flags are computed from
them before anything is written. -/
theorem sum_limited (rd rn : Register) (src : Operand) (sub flags : Bool) :
    (s.limited w).sum rd rn src sub flags = (s.sum rd rn src sub flags).map (.limited w) := by
  unfold sum
  dsimp only
  simp only [read_limited, source_limited]
  refine bind_limited fun x => bind_limited fun y => write_bind_limited fun t => ?_
  cases flags <;> rfl

/-- Logical operations have the same effect under another limit, in the same way. -/
theorem logical_limited (rd rn : Register) (src : Operand) (op : Bitwise) (flags : Bool) :
    (s.limited w).logical rd rn src op flags = (s.logical rd rn src op flags).map (.limited w) := by
  unfold logical
  dsimp only
  simp only [read_limited, source_limited]
  refine bind_limited fun x => bind_limited fun y => write_bind_limited fun t => ?_
  cases flags <;> rfl

/-- Comparisons find the same flags under either limit. -/
@[simp] theorem compareFlags_limited (rn : Register) (src : Operand) (sub : Bool) :
    (s.limited w).compareFlags rn src sub = s.compareFlags rn src sub := by
  unfold compareFlags
  simp only [read_limited, source_limited]

/-- Comparisons have the same effect under another limit. -/
theorem compare_limited (rn : Register) (src : Operand) (sub : Bool) :
    (((s.limited w).compareFlags rn src sub).map fun f => Effect.next ((s.limited w).setFlags f)) =
      ((s.compareFlags rn src sub).map fun f => Effect.next (s.setFlags f)).map (.limited w) := by
  rw [compareFlags_limited, Option.map_map]
  rfl

/-- Conditional comparisons have the same effect under another limit: the condition is read from
the flags. -/
theorem condCompare_limited (rn : Register) (src : Operand) (nzcv : Word) (c : Condition)
    (sub : Bool) : (s.limited w).condCompare rn src nzcv c sub =
      (s.condCompare rn src nzcv c sub).map (.limited w) := by
  unfold condCompare
  rw [compareFlags_limited]
  exact bind_limited fun f => rfl

/-- Moves have the same effect under another limit. -/
theorem move_limited (rd : Register) (v : Word) :
    (s.limited w).move rd v = (s.move rd v).map (.limited w) := by
  unfold move
  rw [write_limited, Option.map_map, Option.map_map]
  rfl

/-- A conditional branch goes the same way under either limit. -/
theorem jumpIf_limited (c : Condition) (offset : Int) :
    (s.limited w).jumpIf c offset = (s.jumpIf c offset).limited w := by
  unfold jumpIf
  rw [flags_limited]
  split <;> rfl

/-- Loads have the same effect under another limit, be it a value or a fault. -/
theorem load_limited (rt : Register) (m : MemoryRef) (n : Nat) :
    (s.limited w).load rt m n = (s.load rt m n).map (.limited w) := by
  unfold load
  rw [address_limited]
  refine bind_limited fun a => write_bind_limited fun t => ?_
  rw [mayLoad_limited]
  split <;> rfl

/-- Loads of two registers have the same effect under another limit. -/
theorem loadPair_limited (rt rt2 : Register) (m : MemoryRef) (n : Nat) :
    (s.limited w).loadPair rt rt2 m n = (s.loadPair rt rt2 m n).map (.limited w) := by
  unfold loadPair
  rw [address_limited]
  refine bind_limited fun a => write_bind_limited fun t => write_bind_limited fun u => ?_
  rw [mayLoad_limited]
  split <;> rfl

/-- Where the limits do not dispute a store it may be made under both or under none. -/
theorem mayStore_limited {address : Word} {n : Nat}
    (h : s.memory.contains address (BitVec.ofNat 64 n) = true →
      (s.memory.writableStart ≤ address ↔ w ≤ address)) :
    (s.limited w).mayStore address n = s.mayStore address n := by
  show (s.memory.contains address (BitVec.ofNat 64 n) && decide (w ≤ address)) =
    (s.memory.contains address (BitVec.ofNat 64 n) && decide (s.memory.writableStart ≤ address))
  cases hcontains : s.memory.contains address (BitVec.ofNat 64 n) with
  | false => rfl
  | true =>
    rw [Bool.true_and, Bool.true_and]
    exact decide_eq_decide.2 (h hcontains).symm

/-- **A store that the limits do not dispute** has the same effect under both.

**Proof sketch.** It is made under both limits or under none (`mayStore_limited`). If it is made,
the bytes are put where they would have been put under the other limit, and if it is not, both
runs fault at the same address. -/
theorem store_limited {rt : Register} {m : MemoryRef} {n : Nat}
    (h : ∀ address, s.address m = some address →
      s.memory.contains address (BitVec.ofNat 64 n) = true →
        (s.memory.writableStart ≤ address ↔ w ≤ address)) :
    (s.limited w).store rt m n = (s.store rt m n).map (.limited w) := by
  unfold store
  rw [read_limited, address_limited]
  refine bind_limited fun v => ?_
  cases haddress : s.address m with
  | none => rfl
  | some address =>
    simp only [Option.bind_eq_bind, Option.bind_some, Option.map_some,
      mayStore_limited (h address haddress)]
    split <;> rfl

/-- A store of two registers that the limits do not dispute has the same effect under both. The
check covers the bytes of both registers at once. -/
theorem storePair_limited {rt rt2 : Register} {m : MemoryRef} {n : Nat}
    (h : ∀ address, s.address m = some address →
      s.memory.contains address (BitVec.ofNat 64 (2 * n)) = true →
        (s.memory.writableStart ≤ address ↔ w ≤ address)) :
    (s.limited w).storePair rt rt2 m n = (s.storePair rt rt2 m n).map (.limited w) := by
  unfold storePair
  rw [read_limited, read_limited, address_limited]
  refine bind_limited fun v => bind_limited fun v2 => ?_
  cases haddress : s.address m with
  | none => rfl
  | some address =>
    simp only [Option.bind_eq_bind, Option.bind_some, Option.map_some,
      mayStore_limited (h address haddress)]
    split <;> rfl

/-- **Instructions under another limit** do the same, unless the limits dispute a store.

**Proof sketch.** One case for each shape of instruction. The limit is read by stores only,
and where the store lies in the region both limits are on one side of it, unless they dispute it. -/
theorem step_limited {inst : Instruction} (h : Regular inst) (hagree : ¬ Disputes w s inst)
    (pc : Word) : (s.limited w).step pc inst = (s.step pc inst).map (.limited w) := by
  have hstore : ∀ m n, inst.access? = some (true, m, n) → ∀ address,
      s.address m = some address → s.memory.contains address (BitVec.ofNat 64 n) = true →
        (s.memory.writableStart ≤ address ↔ w ≤ address) := by
    intro m n hacc address haddress hcontains
    by_contra hne
    exact hagree ⟨m, n, address, hacc, haddress, hcontains, by tauto⟩
  cases h with
  | sum hop =>
    obtain rfl | rfl | rfl | rfl := hop <;> rw [step, step] <;> exact sum_limited ..
  | logical hop =>
    obtain rfl | rfl | rfl | rfl := hop <;> rw [step, step] <;> exact logical_limited ..
  | compare hop => obtain rfl | rfl := hop <;> rw [step, step] <;> exact compare_limited ..
  | condCompare hop => obtain rfl | rfl := hop <;> rw [step, step] <;> exact condCompare_limited ..
  | move =>
    rw [step, step]
    exact bind_limited fun v => move_limited _ v
  | moveWide hop =>
    obtain rfl | rfl | rfl := hop <;> rw [step, step]
    · exact move_limited ..
    · exact move_limited ..
    · exact bind_limited fun v => move_limited _ _
  | address =>
    rw [step, step]
    exact move_limited ..
  | word hop =>
    obtain rfl | rfl := hop <;> rw [step, step]
    · exact load_limited ..
    · exact store_limited (hstore _ _ rfl)
  | narrow hop =>
    obtain rfl | rfl | rfl | rfl := hop <;> rw [step, step]
    · exact load_limited ..
    · exact load_limited ..
    · exact store_limited (hstore _ _ rfl)
    · exact store_limited (hstore _ _ rfl)
  | pair hop =>
    obtain rfl | rfl := hop <;> rw [step, step]
    · exact loadPair_limited ..
    · exact storePair_limited (hstore _ _ rfl)
  | branch | ret | nop => rfl
  | branchCond =>
    rw [step, step]
    exact congrArg some (jumpIf_limited ..)

end State

/-! ## Lines -/

/-- Running the line comes to an instruction that stores where only one of the limit in force and
another limit allows it. -/
inductive Disputed (w : Word) : List Opcode → Word → State → Prop where
  | here {word : Opcode} {rest : List Opcode} {pc : Word} {s : State} {inst : Instruction}
      (hinst : decode word = some inst) (h : Disputes w (s.setPc pc) inst) :
      Disputed w (word :: rest) pc s
  | later {word : Opcode} {rest : List Opcode} {pc : Word} {s t : State} {inst : Instruction}
      (hinst : decode word = some inst) (hends : inst.op.endsLine = false)
      (hstep : (s.setPc pc).step pc inst = some (.next t))
      (h : Disputed w rest (pc + BitVec.ofNat 64 instructionSize) t) :
      Disputed w (word :: rest) pc s

section Lines

variable {w : Word} {words rest : List Opcode} {word : Opcode} {pc : Word} {s t : State}

/-- **Lines that come to no dispute** come to the same under both limits.

**Proof sketch.** By induction on the words: each instruction that is reached has the same effect,
and if it goes on it leaves states behind that differ in the limit only. -/
theorem lineOutcome_limited (h : ¬ Disputed w words pc s) :
    lineOutcome words pc (s.limited w) =
      (lineOutcome words pc s).map fun o => (o.1, o.2.1, o.2.2.limited w) := by
  induction words generalizing pc s with
  | nil => rfl
  | cons word rest ih =>
    cases hinst : decode word with
    | none =>
      rw [lineOutcome, lineOutcome, hinst]
      rfl
    | some inst =>
      have hagree : ¬ Disputes w (s.setPc pc) inst := fun hdisputes => h (.here hinst hdisputes)
      have hstep := State.step_limited (regular_of_decode hinst) hagree pc
      rw [lineOutcome, lineOutcome, hinst, Option.bind_some, Option.bind_some, State.setPc_limited,
        hstep]
      cases hstep' : (s.setPc pc).step pc inst with
      | none => rfl
      | some effect =>
        cases effect with
        | next t =>
          simp only [Option.map_some, Effect.limited]
          cases hends : inst.op.endsLine with
          | true => rfl
          | false => exact ih fun hlater => h (.later hinst hends hstep' hlater)
        | jump distance t | halt t | fault address t => rfl

/-- A store into the region goes on exactly if it is not below the limit.

**Proof sketch.** The effect of an access goes on exactly if memory grants it, and for a
write into the region that is the comparison with the limit. -/
theorem step_store {inst : Instruction} (h : Regular inst) {m : MemoryRef} {n : Nat}
    (hacc : inst.access? = some (true, m, n)) {address : Word}
    (haddress : s.address m = some address)
    (hcontains : s.memory.contains address (BitVec.ofNat 64 n) = true) {effect : Effect}
    (hstep : s.step pc inst = some effect) :
    (∃ t, effect = .next t) ↔ s.memory.writableStart ≤ address := by
  obtain ⟨address', t, haddress', rfl⟩ := State.step_access h hacc hstep
  rw [haddress] at haddress'
  cases haddress'
  have hgrants : s.memory.grants true address (BitVec.ofNat 64 n) = true ↔
      s.memory.writableStart ≤ address := by
    simp [Memory.grants, hcontains]
  rw [← hgrants]
  split
  · rename_i hgranted
    exact ⟨fun _ => hgranted, fun _ => ⟨t, rfl⟩⟩
  · rename_i hgranted
    refine ⟨?_, fun hgrant => absurd hgrant hgranted⟩
    rintro ⟨u, hu⟩
    cases hu

variable {exit exit' : Exit} {param param' : Word} {t' u : State}

/-- Behind an instruction that faulted the line is left in another way, or at another place.

**Proof sketch.** If the rest of the line faults too, it does so at a later word, and then
the program counter is another: the line is shorter than the address space. -/
theorem ne_of_fault_of_next
    (hlength : (word :: rest).length * instructionSize < 0x10000000000000000)
    (hpc : t.registers.pc = pc)
    (hrest : lineOutcome rest (pc + BitVec.ofNat 64 instructionSize) u = some (exit, param, t')) :
    Exit.fault ≠ exit ∨ t.registers ≠ t'.registers := by
  by_cases hexit : exit = .fault
  · subst hexit
    obtain ⟨k, hk, hpc'⟩ := lineOutcome_fault_pc hrest
    refine .inr fun heq => ?_
    rw [← heq, hpc] at hpc'
    have hnat := congrArg BitVec.toNat hpc'
    have hword := pc.isLt
    unfold instructionSize at *
    rw [List.length_cons] at hlength
    simp only [BitVec.toNat_add, BitVec.toNat_ofNat] at hnat
    omega
  · exact .inl (Ne.symm hexit)

/-- At a disputed store one run faults and the other goes on.

**Proof sketch.** The instruction goes on under one limit exactly if it faults under the
other (`step_store`). The run that goes on leaves in another way or with another program counter
(`ne_of_fault_of_next`). -/
theorem Disputes.parts {inst : Instruction} (hinst : decode word = some inst)
    (h : Disputes w (s.setPc pc) inst)
    (hlength : (word :: rest).length * instructionSize < 0x10000000000000000)
    (hs : lineOutcome (word :: rest) pc s = some (exit, param, t))
    (hw : lineOutcome (word :: rest) pc (s.limited w) = some (exit', param', t')) :
    exit ≠ exit' ∨ t.registers ≠ t'.registers := by
  obtain ⟨m, n, address, hacc, haddress, hcontains, hiff⟩ := h
  obtain ⟨-, -, hends, -⟩ := access?_spec hacc
  have hregular := regular_of_decode hinst
  have hstore : ∀ {effect}, (s.setPc pc).step pc inst = some effect →
      ((∃ t, effect = .next t) ↔ (s.setPc pc).memory.writableStart ≤ address) :=
    fun hstep => step_store hregular hacc haddress hcontains hstep
  have hstore' : ∀ {effect}, ((s.setPc pc).limited w).step pc inst = some effect →
      ((∃ t, effect = .next t) ↔ w ≤ address) :=
    fun hstep => step_store (s := (s.setPc pc).limited w) hregular hacc haddress hcontains hstep
  obtain ⟨inst₁, hinst₁, hcases⟩ := lineOutcome_cases hs
  obtain ⟨inst₂, hinst₂, hcases'⟩ := lineOutcome_cases hw
  rw [hinst] at hinst₁ hinst₂
  cases hinst₁
  cases hinst₂
  rw [State.setPc_limited] at hcases'
  obtain ⟨hends', -⟩ | ⟨-, u, hstep, -, hrest⟩ | ⟨-, hstep, rfl, rfl⟩ := hcases
  · rw [hends] at hends'
    cases hends'
  · obtain ⟨hends', -⟩ | ⟨-, u', hstep', -, hrest'⟩ | ⟨-, hstep', rfl, rfl⟩ := hcases'
    · rw [hends] at hends'
      cases hends'
    · exact absurd ((hstore' hstep').1 ⟨u', rfl⟩) (hiff.1 ((hstore hstep).1 ⟨u, rfl⟩))
    · exact (ne_of_fault_of_next hlength rfl hrest).imp Ne.symm Ne.symm
  · obtain ⟨hends', -⟩ | ⟨-, u', hstep', -, hrest'⟩ | ⟨-, hstep', rfl, rfl⟩ := hcases'
    · rw [hends] at hends'
      cases hends'
    · exact ne_of_fault_of_next hlength rfl hrest'
    · have hboth : ¬ w ≤ address := by
        intro hle
        obtain ⟨v, hv⟩ := (hstore' hstep').2 hle
        cases hv
      obtain ⟨v, hv⟩ := (hstore hstep).2 (hiff.2 hboth)
      cases hv

/-- **Lines that come to a dispute** are left in different ways, or with different registers, under
the two limits.

**Proof sketch.** By induction on how the line comes to the dispute. Before it the step does
the same under both limits, so both runs go on to the rest of the line (`step_limited`), and at
it they part (`Disputes.parts`). -/
theorem Disputed.parts (h : Disputed w words pc s)
    (hlength : words.length * instructionSize < 0x10000000000000000)
    (hs : lineOutcome words pc s = some (exit, param, t))
    (hw : lineOutcome words pc (s.limited w) = some (exit', param', t')) :
    exit ≠ exit' ∨ t.registers ≠ t'.registers := by
  induction h with
  | here hinst h => exact h.parts hinst hlength hs hw
  | @later word rest pc s u inst hinst hends hstep h ih =>
    by_cases hdisputes : Disputes w (s.setPc pc) inst
    · exact hdisputes.parts hinst hlength hs hw
    · have hstep' : ((s.limited w).setPc pc).step pc inst = some (.next (u.limited w)) := by
        rw [State.setPc_limited, State.step_limited (regular_of_decode hinst) hdisputes, hstep]
        rfl
      rw [lineOutcome_of_next hinst hends hstep] at hs
      rw [lineOutcome_of_next hinst hends hstep'] at hw
      refine ih ?_ hs hw
      rw [List.length_cons, Nat.succ_mul] at hlength
      omega

end Lines

end Dynarec.Guest
