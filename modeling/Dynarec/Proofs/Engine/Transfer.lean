import Dynarec.Proofs.Engine.Convention

/-!
# Loads and stores

Loads and stores of one or two registers are one kind of instruction: a transfer of some bytes for
each register, one after another from an address on. Their code makes the whole transfer if the
region allows it and leaves with a fault otherwise, having changed nothing.

## Main definitions

* `Dynarec.Guest.Transfer` — a load or a store.
* `Dynarec.Guest.Transfer.Allowed` — the region has the bytes, and a store may touch them.
* `Dynarec.Guest.Transfer.Performs` — what a transfer does to the guest.

## Main results

* `Dynarec.Guest.State.step_transfer` — the step of a load or a store.
* `Dynarec.Engine.Trial.emitted_transfers` — the code of a load or a store.
-/

set_option autoImplicit false

namespace Dynarec

namespace Guest

/-! ## Transfers -/

/-- A load or a store of registers. -/
structure Transfer where
  /-- Whether it is a store. -/
  write : Bool
  /-- The registers, in the order of their bytes in memory. -/
  registers : List Register
  /-- The number of bytes of each register. -/
  size : Nat
  ref : MemoryRef

namespace Transfer

/-- The number of bytes of a transfer. -/
def length (x : Transfer) : Nat :=
  x.registers.length * x.size

/-- The bytes from an address on lie inside the region, and above its limit if they are stored. -/
def Allowed (x : Transfer) (m : Memory) (address : Word) : Prop :=
  m.base.toNat ≤ address.toNat ∧ address.toNat + x.length ≤ m.base.toNat + m.bytes.size ∧
    (x.write = true → m.writableStart ≤ address)

/-- The number in the bytes of one register, with zeros above. -/
def value (x : Transfer) (s : State) (address : Word) (i : Nat) : Word :=
  BitVec.ofNat 64
    (ofLittleEndian (s.memory.bytesAt ((address - s.memory.base).toNat + i * x.size) x.size))

/-- The bytes of the registers, one after another. -/
def data (x : Transfer) (s : State) : List Byte :=
  x.registers.flatMap fun r => littleEndian x.size ((s.read r).getD 0).toNat

/-- The state after a load: each register in turn takes its number from memory as it was. -/
def loads (x : Transfer) (address : Word) (s : State) : State :=
  x.registers.zipIdx.foldl (fun t p => t.put p.1 (x.value s address p.2)) s

/-- The state `t` is `s` after a store: the bytes from the address on are those of the registers,
and nothing else has changed. -/
structure Stores (x : Transfer) (address : Word) (s t : State) : Prop where
  registers : t.registers = s.registers
  alike : s.memory.Alike t.memory
  bytes : ∀ i, t.memory.bytes[i]? =
    if (address - s.memory.base).toNat ≤ i ∧ i < (address - s.memory.base).toNat + x.length then
      (x.data s)[i - (address - s.memory.base).toNat]?
    else s.memory.bytes[i]?

/-- The state `t` is `s` after a transfer. -/
def Performs (x : Transfer) (address : Word) (s t : State) : Prop :=
  if x.write then x.Stores address s t else t = x.loads address s

/-- The effect of a transfer: it is made if the region allows it, and otherwise it faults and
changes nothing. -/
def Effects (x : Transfer) (s : State) (effect : Effect) : Prop :=
  ∃ address, s.address x.ref = some address ∧
    (x.Allowed s.memory address → ∃ t, effect = .next t ∧ x.Performs address s t) ∧
    (¬ x.Allowed s.memory address → effect = .fault address s)

end Transfer

/-- The transfer that an instruction makes, if it makes one. -/
def Instruction.transfer? (inst : Instruction) : Option Transfer :=
  match inst.op, inst.operands with
  | .ldr, [.reg rt, .mem m] => some ⟨false, [rt], bits rt.width / 8, m⟩
  | .ldrb, [.reg rt, .mem m] => some ⟨false, [rt], 1, m⟩
  | .ldrh, [.reg rt, .mem m] => some ⟨false, [rt], 2, m⟩
  | .str, [.reg rt, .mem m] => some ⟨true, [rt], bits rt.width / 8, m⟩
  | .strb, [.reg rt, .mem m] => some ⟨true, [rt], 1, m⟩
  | .strh, [.reg rt, .mem m] => some ⟨true, [rt], 2, m⟩
  | .ldp, [.reg rt, .reg rt2, .mem m] => some ⟨false, [rt, rt2], bits rt.width / 8, m⟩
  | .stp, [.reg rt, .reg rt2, .mem m] => some ⟨true, [rt, rt2], bits rt.width / 8, m⟩
  | _, _ => none

/-- The operations of loads and stores. -/
def transferOps : List Op := [.ldr, .ldrb, .ldrh, .str, .strb, .strh, .ldp, .stp]

/-- Other operations access nothing. -/
theorem access?_of_not_mem {inst : Instruction} (hop : inst.op ∉ transferOps) :
    inst.access? = none := by
  unfold Instruction.access?
  split
  case h_9 => rfl
  all_goals
    rename_i hinst _
    rw [hinst] at hop
    simp [transferOps] at hop

namespace Transfer

variable {x : Transfer} {s t : State} {m : Memory} {address : Word}

/-- A transfer is allowed where memory grants the access. -/
theorem allowed_iff (hlength : x.length ≤ 16) :
    x.Allowed m address ↔ m.grants x.write address (BitVec.ofNat 64 x.length) = true := by
  have hnat : (BitVec.ofNat 64 x.length).toNat = x.length := by
    rw [BitVec.toNat_ofNat]
    omega
  rw [Memory.grants_iff, hnat, Allowed, BitVec.le_def]
  constructor
  · rintro ⟨hbase, hstop, hlimit⟩
    exact ⟨hbase, by omega, hlimit⟩
  · rintro ⟨hbase, hstop, hlimit⟩
    exact ⟨hbase, by omega, hlimit⟩

/-- The bytes of an allowed transfer, by their position in the region. -/
theorem Allowed.offset (h : x.Allowed m address) :
    (address - m.base).toNat + x.length ≤ m.bytes.size := by
  obtain ⟨hbase, hstop, -⟩ := h
  rw [BitVec.toNat_sub_of_le (BitVec.le_def.2 hbase)]
  omega

/-- The bytes that a store writes are as many as its length says. -/
theorem length_data (x : Transfer) (s : State) : (x.data s).length = x.length := by
  rw [data, length]
  induction x.registers with
  | nil => simp
  | cons r registers ih =>
    rw [List.flatMap_cons, List.length_append, ih, length_littleEndian, List.length_cons,
      Nat.succ_mul, Nat.add_comm]

/-- Replacing bytes of memory is a store. -/
theorem stores_stored (h : x.Allowed s.memory address) :
    x.Stores address s (s.stored address (x.data s)) where
  registers := rfl
  alike := .setBytesAt ..
  bytes i := by
    have hoffset := h.offset
    rw [← length_data x s] at hoffset
    have hget := Memory.getElem?_overwrite s.memory.bytes _ i (x.data s) hoffset
    rw [length_data] at hget
    exact hget

/-- A transfer touches neither the program counter nor the flags.

**Proof sketch.** A store changes no cell. A load puts values into cells of registers one
after the other, and neither the program counter nor the flags are such a cell. -/
theorem Performs.get (h : x.Performs address s t) {c : Cell} (hc : c = .pc ∨ c = .nzcv) :
    t.registers.get c = s.registers.get c := by
  have hputs : ∀ (puts : List (Register × Nat)) (u : State),
      (puts.foldl (fun t p => t.put p.1 (x.value s address p.2)) u).registers.get c =
        u.registers.get c := by
    intro puts
    induction puts with
    | nil => exact fun _ => rfl
    | cons p puts ih =>
      intro u
      rw [List.foldl_cons, ih, State.get_put, if_neg (Register.cell?_ne hc)]
  rw [Performs] at h
  split at h
  · rw [h.registers]
  · rw [h]
    exact hputs _ s

/-- An access is a transfer, if what it leaves behind is what the transfer does. -/
theorem effects_of_access {after : State → Word → Option State} {effect : Effect} {n : Nat}
    (hn : x.length = n) (hlength : n ≤ 16)
    (hafter : ∀ address t, x.Allowed s.memory address → after s address = some t →
      x.Performs address s t)
    (h : accessEffect x.write x.ref n after s = some effect) : x.Effects s effect := by
  subst hn
  obtain ⟨address, haddress, h⟩ := Option.bind_eq_some_iff.1 h
  obtain ⟨t, ht, rfl⟩ := Option.map_eq_some_iff.1 h
  refine ⟨address, haddress, fun hallowed => ⟨t, ?_, hafter address t hallowed ht⟩, fun hnot => ?_⟩
  · rw [if_pos ((allowed_iff hlength).1 hallowed)]
  · rw [if_neg fun hgrants => hnot ((allowed_iff hlength).2 hgrants)]

end Transfer

/-! ## Steps -/

namespace State

variable {s : State} {rt rt2 : Register} {m : MemoryRef} {n : Nat} {effect : Effect}

/-- The effect of a load is that of a transfer into one register. -/
theorem load_effects (hn : n ≤ 8) (h : s.load rt m n = some effect) :
    Transfer.Effects ⟨false, [rt], n, m⟩ s effect := by
  rw [load_effect] at h
  refine Transfer.effects_of_access (Nat.one_mul n) (by omega) (fun address t _ ht => ?_) h
  rw [Transfer.Performs, if_neg Bool.false_ne_true, eq_put_of_write ht]
  simp [Transfer.loads, Transfer.value, loaded]

/-- The effect of a load of two registers is that of a transfer into both.

**Proof sketch.** The address of the second value does not wrap around in the region, since the
region has room for both (`Lower.toNat_second`). -/
theorem loadPair_effects (hn : n ≤ 8) (h : s.loadPair rt rt2 m n = some effect) :
    Transfer.Effects ⟨false, [rt, rt2], n, m⟩ s effect := by
  rw [loadPair_effect] at h
  refine Transfer.effects_of_access (n := 2 * n) rfl (by omega) (fun address t hallowed ht => ?_) h
  obtain ⟨t₁, ht₁, ht⟩ := Option.bind_eq_some_iff.1 ht
  have hsecond := Lower.toNat_second s.memory.size_lt hallowed.offset
  rw [Transfer.Performs, if_neg Bool.false_ne_true, eq_put_of_write ht, eq_put_of_write ht₁]
  simp [Transfer.loads, Transfer.value, loaded, hsecond]

/-- The effect of a store is that of a transfer from one register. -/
theorem store_effects (hn : n ≤ 8) (h : s.store rt m n = some effect) :
    Transfer.Effects ⟨true, [rt], n, m⟩ s effect := by
  rw [store_effect] at h
  refine Transfer.effects_of_access (Nat.one_mul n) (by omega) (fun address t hallowed ht => ?_) h
  obtain ⟨v, hv, rfl⟩ := Option.map_eq_some_iff.1 ht
  rw [Transfer.Performs, if_pos rfl]
  have hdata : Transfer.data ⟨true, [rt], n, m⟩ s = littleEndian n v.toNat := by
    simp [Transfer.data, hv]
  exact hdata ▸ Transfer.stores_stored hallowed

/-- The effect of a store of two registers is that of a transfer from both, the bytes of the
second behind those of the first. -/
theorem storePair_effects (hn : n ≤ 8) (h : s.storePair rt rt2 m n = some effect) :
    Transfer.Effects ⟨true, [rt, rt2], n, m⟩ s effect := by
  rw [storePair_effect] at h
  refine Transfer.effects_of_access (n := 2 * n) rfl (by omega) (fun address t hallowed ht => ?_) h
  obtain ⟨v, hv, ht⟩ := Option.bind_eq_some_iff.1 ht
  obtain ⟨v₂, hv₂, rfl⟩ := Option.map_eq_some_iff.1 ht
  rw [Transfer.Performs, if_pos rfl]
  have hdata : Transfer.data ⟨true, [rt, rt2], n, m⟩ s =
      littleEndian n v.toNat ++ littleEndian n v₂.toNat := by
    simp [Transfer.data, hv, hv₂]
  exact hdata ▸ Transfer.stores_stored hallowed

/-- **The step of a load or a store.**

**Proof sketch.** One case for each shape of instruction. A register is four or eight bytes
long, a narrow access one or two, so none is longer than eight (`load_effects`, `store_effects`
and their pairs). -/
theorem step_transfer {inst : Instruction} (h : Regular inst) (hop : inst.op ∈ transferOps) :
    ∃ x, inst.transfer? = some x ∧ ∀ s pc effect, State.step s pc inst = some effect →
      x.Effects s effect := by
  have hbits : ∀ width, bits width / 8 ≤ 8 := by
    intro width
    obtain h | h := bits_cases width <;> simp [h]
  cases h with
  | word haccess =>
    obtain rfl | rfl := haccess
    · exact ⟨_, rfl, fun _ _ _ hstep => load_effects (hbits _) hstep⟩
    · exact ⟨_, rfl, fun _ _ _ hstep => store_effects (hbits _) hstep⟩
  | narrow haccess =>
    obtain rfl | rfl | rfl | rfl := haccess
    · exact ⟨_, rfl, fun _ _ _ hstep => load_effects (by decide) hstep⟩
    · exact ⟨_, rfl, fun _ _ _ hstep => load_effects (by decide) hstep⟩
    · exact ⟨_, rfl, fun _ _ _ hstep => store_effects (by decide) hstep⟩
    · exact ⟨_, rfl, fun _ _ _ hstep => store_effects (by decide) hstep⟩
  | pair haccess =>
    obtain rfl | rfl := haccess
    · exact ⟨_, rfl, fun _ _ _ hstep => loadPair_effects (hbits _) hstep⟩
    · exact ⟨_, rfl, fun _ _ _ hstep => storePair_effects (hbits _) hstep⟩
  | sum hother | logical hother =>
    obtain rfl | rfl | rfl | rfl := hother <;> simp [transferOps] at hop
  | compare hother | condCompare hother => obtain rfl | rfl := hother <;> simp [transferOps] at hop
  | moveWide hother => obtain rfl | rfl | rfl := hother <;> simp [transferOps] at hop
  | move | address | branch | branchCond | ret | nop => simp [transferOps] at hop

end State

end Guest

/-! ## Code -/

namespace Engine.Trial

/-- **The code of a load or a store.** Take a load or a store that decoding gives, with mapped
registers only, and open memory that does not run on past the end of the address space. The code can
be emitted, wherever it stands and with any host registers in use that leave seven free, and it can
be assembled. Run from any host state with memory at that place, whatever its bytes are, with the
address taken from the registers as they were: if the region allows the transfer, the code goes on
behind its end and has made it, and program counter and flags are as they were. Otherwise it returns
with a fault at that address, and all cells and all of memory are as they were.

**Proof sketch.** Memory that can come about, is open and fits into the address space is
sound, and in sound memory the code does what the instruction does (`exists_code_shows`). If the
transfer is allowed, the effect of the step is to go on with the transfer made, and otherwise it
is a fault at the address (`Guest.State.step_transfer`). -/
theorem emitted_transfers {word : Opcode} {inst : Guest.Instruction} {m : Memory}
    (hword : Guest.decode word = some inst) (hop : inst.op ∈ Guest.transferOps)
    (hmapped : ∀ r ∈ inst.named, r.Mapped) (hm : m.Reachable) (hopen : m.bytes.size ≠ 0)
    (hfits : m.base.toNat + m.bytes.size ≤ 0x10000000000000000) (pc : Word)
    (reserved : List Host.Reg) :
    let t : Trial := { inst := inst, pc := pc, memory := some m, reserved := reserved }
    7 ≤ t.initial.scratch.free →
      t.emitted.1 = .ok () ∧
        ∃ x code, inst.transfer? = some x ∧ t.emitted.2.code.assemble = .ok code ∧
          ∀ s : Host.State, m.Alike s.memory →
            ∃ address, s.guest.address x.ref = some address ∧
              (x.Allowed s.memory address → ∃ u, code.program.run s = .ended u ∧
                x.Performs address s.guest u.guest ∧ u.cells.pc = s.cells.pc ∧
                  u.cells.nzcv = s.cells.nzcv) ∧
              (¬ x.Allowed s.memory address → ∃ u, code.program.run s = .returned u ∧
                u.reg .rax = Exit.fault.number ∧ u.reg .rdx = address ∧ u.cells = s.cells ∧
                  u.memory = s.memory) := by
  intro t hfree
  have hinst : Guest.Regular inst := Guest.regular_of_decode hword
  have hsound : m.Sound := ⟨hm.placed, hopen, hfits⟩
  obtain ⟨hok, code, hcode, hruns⟩ := exists_code_shows (t := t)
    (Lower.instruction_realizes hinst pc m) hmapped hfree
  obtain ⟨x, hx, hsteps⟩ := Guest.State.step_transfer hinst hop
  refine ⟨hok, x, code, hx, hcode, fun s hs => ?_⟩
  obtain ⟨effect, walked, hstep, hrun, hshows⟩ := hruns s ⟨hsound, hs⟩
  obtain ⟨address, haddress, hmade, hfault⟩ := hsteps s.guest pc effect hstep
  refine ⟨address, haddress, fun hallowed => ?_, fun hnot => ?_⟩
  · obtain ⟨g, rfl, hperforms⟩ := hmade hallowed
    cases hshows with
    | @next u _ =>
      exact ⟨u, hrun, hperforms, hperforms.get (.inl rfl), hperforms.get (.inr rfl)⟩
  · obtain rfl := hfault hnot
    cases hshows with
    | @fault u _ _ hleft =>
      have hguest := hleft.guest
      exact ⟨u, hrun, hleft.kind, hleft.param, congrArg Guest.State.registers hguest,
        congrArg Guest.State.memory hguest⟩

/-- Loading a pair of registers, one of which is the base. -/
theorem emitted_transfers_pair :
    let ref : Guest.MemoryRef := { base := { number := 1, width := 64, sp := true }, offset := -16 }
    let inst : Guest.Instruction := { op := .ldp, operands := [.reg (.x 0), .reg (.x 1), .mem ref] }
    let m := Memory.page 0x10000
    let t : Trial := { inst := inst, pc := 0, memory := some m }
    Guest.decode 0xa97f0420 = some inst ∧ m.Reachable ∧ t.emitted.1 = .ok () ∧
      ∃ x code, inst.transfer? = some x ∧ t.emitted.2.code.assemble = .ok code ∧
        ∀ s : Host.State, m.Alike s.memory →
          ∃ address, s.guest.address x.ref = some address ∧
            (x.Allowed s.memory address → ∃ u, code.program.run s = .ended u ∧
              x.Performs address s.guest u.guest ∧ u.cells.pc = s.cells.pc ∧
                u.cells.nzcv = s.cells.nzcv) ∧
            (¬ x.Allowed s.memory address → ∃ u, code.program.run s = .returned u ∧
              u.reg .rax = Exit.fault.number ∧ u.reg .rdx = address ∧ u.cells = s.cells ∧
                u.memory = s.memory) := by
  intro ref inst m t
  have hword : Guest.decode 0xa97f0420 = some inst := by decide
  have hm : m.Reachable := .page _
  have hsize : m.bytes.size = 4096 := by simp [m, Memory.page]
  have hbase : m.base.toNat = 0x10000 := rfl
  exact ⟨hword, hm, emitted_transfers hword (by decide) (by decide) hm (by omega) (by omega) 0 []
    (by decide)⟩

end Engine.Trial

end Dynarec
