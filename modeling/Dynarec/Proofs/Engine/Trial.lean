import Dynarec.Engine.Trial
import Dynarec.Proofs.Engine.Compile

/-!
# Access checks

The code of a load or a store leaves with a fault exactly when memory does not admit the access. In
memory that can come about this is not always what the region grants: the two agree for accesses of
a size, whatever the address, exactly in guarded memory.

## Main definitions

* `Dynarec.Engine.Trial.Faults` — the code leaves with a fault.

## Main results

* `Dynarec.Engine.Trial.faults_iff` — when the code of an access faults.
* `Dynarec.Engine.Trial.check_agrees_iff` — when the code faults exactly where it should.
-/

set_option autoImplicit false

namespace Dynarec.Engine.Trial

open Lower (Lowers Meaning)
open Code (Walked walk)
open Guest (MemoryRef)

/-- The code returns, and leaves with a fault. -/
def Faults (t : Trial) (registers : Registers) : Prop :=
  ∃ r, t.run registers = some r ∧ r.exit = .fault

variable {inst : Guest.Instruction} {write : Bool} {ref : MemoryRef} {n : Nat}

/-- What the code of an access with an exit behind it that halts does from a state: it leaves with a
fault if memory does not admit the access, and otherwise it leaves with that exit or not at all. -/
def Checks (m : Memory) (write : Bool) (ref : MemoryRef) (n : Nat) (w : Meaning) : Prop :=
  ∀ s, ∃ address, s.guest.address ref = some address ∧
    if m.admits write address (BitVec.ofNat 64 n) then
      ∀ u, w s = .returned u → u.reg .rax = Exit.halt.number
    else ∃ u, w s = .returned u ∧ u.reg .rax = Exit.fault.number

/-- The code of an access checks it.

**Proof sketch.** The code compares the address with the limits of memory as it was compiled
(`Lower.instruction_performs`). If the access is admitted, the code does not return by itself, so
whatever returns is the exit behind it, which is no fault. If not, the code returns with a fault. -/
theorem instruction_checks (h : Guest.Regular inst) (hacc : inst.access? = some (write, ref, n))
    (pc : Word) (m : Memory) (e : Lower.Emission) :
    Lowers (Lower.instruction pc (some m) inst >>= fun _ => Lower.exit .halt 0) e
      (fun _ _ w => Checks m write ref n w) (Lower.Refused inst.named 7 e.scratch) := by
  obtain ⟨after, -, hlower⟩ := Lower.instruction_performs h hacc pc
  refine .bind (hlower m e) ?_
  rintro _ e₁ w₁ ⟨-, hperforms⟩
  refine (Lower.exit_lowers .halt 0 e₁ _).mono ?_ fun f hf => hf
  rintro _ e₂ w₂ ⟨-, hexit⟩ s
  obtain ⟨address, g, haddress, -, hrun⟩ := hperforms s
  refine ⟨address, haddress, ?_⟩
  split
  · rename_i hadmits
    rw [if_pos hadmits] at hrun
    intro u hu
    cases hw : w₁ s with
    | fell t =>
      obtain ⟨u', hu', hleft⟩ := hexit t
      rw [Meaning.andThen_of_fell hw, hu'] at hu
      cases hu
      exact hleft.kind
    | returned t => exact absurd hw (hrun.1 t)
    | trapped =>
      rw [Meaning.andThen, hw] at hu
      cases hu
  · rename_i hadmits
    rw [if_neg hadmits] at hrun
    obtain ⟨u, hu, hleft⟩ := hrun
    exact ⟨u, Meaning.andThen_of_returned hu _, hleft.kind⟩

/-- The code of an access can be had if its registers are mapped, and running it is walking through
pieces that check the access.

**Proof sketch.** With nothing in use there are enough scratch registers, so lowering can
fail only for a register that is not mapped. The pieces it gives assemble, and they check the
access (`instruction_checks`). -/
theorem exists_code (h : Guest.Regular inst) (hacc : inst.access? = some (write, ref, n))
    (hmapped : ∀ r ∈ inst.named, r.Mapped) (pc : Word) (m : Memory) :
    ∃ code P, ({ inst := inst, pc := pc, memory := some m } : Trial).code = .ok code ∧
      code.program = Code.place 0 P ∧ Checks m write ref n (walk 0 P) := by
  have hchecks := instruction_checks h hacc pc m {}
  unfold code
  dsimp only
  rcases hact : (Lower.instruction pc (some m) inst >>= fun _ => Lower.exit .halt 0).runOn {} with
    ⟨f | _, e⟩
  · obtain ⟨r, hr, hunmapped, -⟩ := (hchecks.of_error hact).of_unused (by omega)
    exact absurd (hmapped r hr) hunmapped
  · obtain ⟨P, happ, hfits, hP⟩ := hchecks.of_ok hact
    obtain ⟨code, hcode, hprogram, -⟩ := happ.assemble hfits
    refine ⟨code, P, ?_, hprogram, hP⟩
    have hinitial : ({ inst := inst, pc := pc, memory := some m } : Trial).initial = {} := rfl
    rw [hinitial, hact]
    exact hcode

/-- **When the code of an access faults:** when memory does not admit it.

**Proof sketch.** The code is a walk through pieces that check the access (`exists_code`). An
access that is not admitted returns with the number of a fault; one that is admitted returns, if
at all, with that of the exit behind it. -/
theorem faults_iff (h : Guest.Regular inst) (hacc : inst.access? = some (write, ref, n))
    (hmapped : ∀ r ∈ inst.named, r.Mapped) (pc : Word) (m : Memory) (registers : Registers) :
    ∃ address, ({ registers := registers, memory := m } : Guest.State).address ref = some address ∧
      (({ inst := inst, pc := pc, memory := some m } : Trial).Faults registers ↔
        m.admits write address (BitVec.ofNat 64 n) = false) := by
  obtain ⟨code, P, hcode, hprogram, hchecks⟩ := exists_code h hacc hmapped pc m
  obtain ⟨address, haddress, hrun⟩ := hchecks (entryState registers m)
  refine ⟨address, haddress, ?_⟩
  have hcall : ({ inst := inst, pc := pc, memory := some m } : Trial).run registers =
      callCode (Code.place 0 P) registers m := by
    rw [run, hcode, ← hprogram]
    rfl
  rw [Faults, hcall, callCode, Code.run_place]
  cases hadmits : m.admits write address (BitVec.ofNat 64 n) with
  | true =>
    rw [if_pos hadmits] at hrun
    refine ⟨?_, fun hfalse => Bool.noConfusion hfalse⟩
    rintro ⟨r, hr, hfault⟩
    cases hw : walk 0 P (entryState registers m) with
    | returned u =>
      rw [hw] at hr
      cases hr
      rw [hrun u hw] at hfault
      cases hfault
    | fell t | trapped =>
      rw [hw] at hr
      cases hr
  | false =>
    rw [hadmits, if_neg Bool.false_ne_true] at hrun
    obtain ⟨u, hu, hkind⟩ := hrun
    refine ⟨fun _ => rfl, fun _ => ⟨_, by rw [hu]; rfl, ?_⟩⟩
    rw [hkind]
    rfl

/-! ## Where the check agrees with the region -/

/-- A base register that is not the zero register takes an access to every address. -/
theorem exists_registers (hbase : ref.base.isZero = false) (hmapped : ref.base.Mapped)
    (m : Memory) (address : Word) : ∃ registers,
      ({ registers := registers, memory := m } : Guest.State).address ref = some address := by
  obtain ⟨c, hc⟩ := Option.isSome_iff_exists.1
    ((Guest.Register.mapped_iff_isSome_cell hbase).1 hmapped)
  refine ⟨({} : Registers).set c (address - BitVec.ofInt 64 ref.offset), ?_⟩
  rw [Guest.State.address, Guest.State.read, if_neg (ne_true_of_eq_false hbase), hc]
  simp only [Option.map_some, Registers.get_set, if_true, BitVec.sub_add_cancel]

/-- **Where the check of an access agrees with the region.** In memory that can come about, the code
of an access does not fault exactly when memory admits the access. This is what the region contains
and its limit allows, for every value of the base register, if and only if memory is guarded: if it
is open, it does not run on past the end of the address space by the size of the access or more; and
if it is closed, no limit above its base is left behind to check stores against.

**Proof sketch.** The code faults exactly if memory does not admit the access (`faults_iff`),
for each value of the base register, and every address is taken for some such value. So the two
agree everywhere exactly if memory admits what it grants, which is
`Memory.Placed.admits_eq_grants_iff`. -/
theorem check_agrees_iff {m : Memory} (hm : m.Reachable) (h : Guest.Regular inst)
    (hacc : inst.access? = some (write, ref, n)) (hmapped : ∀ r ∈ inst.named, r.Mapped)
    (hbase : ref.base.isZero = false) (pc : Word) :
    let t : Trial := { inst := inst, pc := pc, memory := some m }
    (∀ registers address,
      ({ registers := registers, memory := m } : Guest.State).address ref = some address →
        (¬ t.Faults registers ↔ m.admits write address (BitVec.ofNat 64 n) = true)) ∧
    ((∀ registers address,
      ({ registers := registers, memory := m } : Guest.State).address ref = some address →
        (¬ t.Faults registers ↔ m.contains address (BitVec.ofNat 64 n) = true ∧
          (write = true → m.writableStart ≤ address))) ↔ m.Guarded write n) := by
  intro t
  obtain ⟨hn, hsmall, -, hnamed⟩ := Guest.access?_spec hacc
  have hfaults : ∀ registers address,
      ({ registers := registers, memory := m } : Guest.State).address ref = some address →
        (¬ t.Faults registers ↔ m.admits write address (BitVec.ofNat 64 n) = true) := by
    intro registers address haddress
    obtain ⟨address', haddress', hiff⟩ := faults_iff h hacc hmapped pc m registers
    rw [haddress] at haddress'
    cases haddress'
    rw [show t.Faults registers ↔ _ from hiff, Bool.not_eq_false]
  refine ⟨hfaults, ?_⟩
  have hlength : (BitVec.ofNat 64 n).toNat = n := by
    rw [BitVec.toNat_ofNat]
    omega
  have hguarded : (∀ address, m.admits write address (BitVec.ofNat 64 n) =
      m.grants write address (BitVec.ofNat 64 n)) ↔ m.Guarded write (BitVec.ofNat 64 n).toNat :=
    hm.placed.admits_eq_grants_iff (by omega) (by omega)
  rw [hlength] at hguarded
  rw [← hguarded]
  have hgrants : ∀ address, m.grants write address (BitVec.ofNat 64 n) = true ↔
      m.contains address (BitVec.ofNat 64 n) = true ∧
        (write = true → m.writableStart ≤ address) := by
    intro address
    cases write <;> simp [Memory.grants]
  constructor
  · intro hagree address
    obtain ⟨registers, hregisters⟩ := exists_registers hbase (hmapped _ hnamed) m address
    rw [Bool.eq_iff_iff, ← hfaults registers address hregisters,
      hagree registers address hregisters, hgrants]
  · intro hagree registers address haddress
    rw [hfaults registers address haddress, hagree address, hgrants]

/-- In a page that runs on past the end of the address space a load is let through somewhere that
the page does not contain. -/
theorem check_disagrees_past_end :
    let m := Memory.page 0xfffffffffffff800
    let ref : MemoryRef := { base := { number := 1, width := 64, sp := true }, offset := 0 }
    let inst : Guest.Instruction := { op := .ldr, operands := [.reg (.x 0), .mem ref] }
    m.Reachable ∧ ¬ ∀ registers address,
      ({ registers := registers, memory := m } : Guest.State).address ref = some address →
        (¬ ({ inst := inst, pc := 0, memory := some m } : Trial).Faults registers ↔
          m.contains address 8#64 = true ∧ (false = true → m.writableStart ≤ address)) := by
  intro m ref inst
  have hm : m.Reachable := .page _
  have hguarded : ¬ m.Guarded false 8 := by simp [m, Memory.Guarded, Memory.page]
  clear_value m
  have hinst : Guest.Regular inst := .word (.inl rfl) rfl
  have hmapped : ∀ r ∈ inst.named, r.Mapped := by decide
  exact ⟨hm, fun hagree => hguarded ((check_agrees_iff hm hinst rfl hmapped rfl 0).2.1 hagree)⟩

end Dynarec.Engine.Trial
