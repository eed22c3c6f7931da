import Dynarec.Proofs.Engine.Limit

/-!
# What guest code can change

While the limit on memory stays where it is, nothing that an engine is asked to do changes a byte
below it. A byte at or above it can be changed by a store of one byte. So the bytes that guest code
leaves alone, whatever the program, are exactly those that are immutable.

## Main definitions

* `Dynarec.Engine.Shielded` — no guest code changes a byte.
* `Dynarec.Engine.pokes`, `Dynarec.Engine.poking` — a program that changes one byte, and an engine
  for it.

## Main results

* `Dynarec.Engine.Warm.calls_kept` — calls keep the bytes below the limit.
* `Dynarec.Engine.shielded_iff` — the bytes that guest code leaves alone.
-/

set_option autoImplicit false

namespace Dynarec.Engine

variable {dis : Guest.Disassembler} {e : Engine} {m : Memory} {k : Nat}

/-! ## Bytes below the limit -/

/-- Compiling leaves memory alone. -/
theorem compile_memory [Guest.Disassembler] (e : Engine) (entry : Word) :
    (e.compile entry).1.memory = e.memory := by
  cases hfind : e.find? entry with
  | some b => rw [compile, hfind]
  | none =>
    rcases compile_cases hfind with ⟨-, hcompile⟩ | ⟨-, events, f, -, hcompile⟩ |
      ⟨-, events, pool, b, -, -, hcompile⟩
    · rw [hcompile]
    · rw [hcompile]
      rfl
    · rw [hcompile]
      rfl

/-- Running keeps the bytes below the limit, as executing does. -/
theorem Warm.run_kept (h : e.Warm) (fuel : Nat) (cancellation : Cancellation) (entry : Word) :
    e.memory.Kept (e.run fuel cancellation entry).1.memory := by
  have hexecute : ∀ (e' : Engine) (entry : Word), e'.Warm ∧ e.memory.Kept e'.memory →
      (e'.execute entry).1.Warm ∧ e.memory.Kept (e'.execute entry).1.memory := by
    rintro e' entry ⟨hwarm, hkept⟩
    exact ⟨hwarm.evolves (execute_evolves e' entry), hkept.trans (execute_cases hwarm entry).kept⟩
  exact (runFrom_keeps hexecute ⟨h, .refl _⟩ cancellation fuel 0 entry).2

/-- Every call that sets no limit keeps the bytes below the limit. -/
theorem Warm.call_kept (h : e.Warm) {c : Call} (hc : ∀ address, c ≠ .limit address) :
    e.memory.Kept (e.call c).memory := by
  cases c with
  | compile entry =>
    rw [call, compile_memory]
    exact .refl _
  | execute entry => exact (execute_cases h entry).kept
  | run fuel cancellation entry => exact h.run_kept fuel cancellation entry
  | setRegisters registers => exact .refl _
  | limit address => exact absurd rfl (hc address)

/-- **Calls keep the bytes below the limit** while it stays. -/
theorem Warm.calls_kept (h : e.Warm) {cs : List Call}
    (hcs : ∀ c ∈ cs, ∀ address, c ≠ .limit address) : e.memory.Kept (e.calls cs).memory := by
  induction cs generalizing e with
  | nil => exact .refl _
  | cons c cs ih =>
    rw [List.forall_mem_cons] at hcs
    exact (h.call_kept hcs.1).trans (ih (h.evolves (call_evolves e hcs.1)) hcs.2)

/-! ## Bytes that guest code leaves alone -/

/-- Guest code leaves the byte at a position alone: no engine that is created over the memory, for
whatever stream, changes it, whatever it is asked to do while the limit stays. -/
def Shielded [Guest.Disassembler] (m : Memory) (k : Nat) : Prop :=
  ∀ text loadBias maxBlocks e, create text (some m) loadBias maxBlocks = .ok e →
    text.length * Guest.instructionSize < 0x10000000000000000 →
    ∀ cs : List Call, (∀ c ∈ cs, ∀ address, c ≠ .limit address) →
      (e.calls cs).memory.bytes[k]? = m.bytes[k]?

/-- A program that stores the low byte of the second register at the address in the first, and
returns. -/
def pokes : List Opcode := [0x39000001, 0xd65f03c0]

/-- The store of the stream decodes. -/
theorem decode_store : Guest.decode 0x39000001 = some { op := .strb, operands := [.reg (.w 1),
    .mem { base := { number := 0, width := 64, sp := true }, offset := 0 }] } := by
  decide

/-- The return of the stream decodes. -/
theorem decode_return :
    Guest.decode 0xd65f03c0 = some { op := .ret, operands := [.reg (.x 30)] } := by
  decide

/-- Both words of the stream are translatable. -/
theorem translatable_pokes : ∀ word ∈ Guest.straightLine pokes, Guest.Translatable word := by
  have hline : Guest.straightLine pokes = [0x39000001, 0xd65f03c0] := by decide
  intro word hword
  rw [hline, List.mem_cons, List.mem_singleton] at hword
  rcases hword with rfl | rfl
  · exact ⟨_, decode_store, by decide⟩
  · exact ⟨_, decode_return, by decide⟩

/-- The first instruction makes the store, if the guest may store there. -/
theorem step_store {s : Guest.State} (hstore : s.mayStore s.registers.x0 1 = true) (pc : Word) :
    s.step pc { op := .strb, operands := [.reg (.w 1),
      .mem { base := { number := 0, width := 64, sp := true }, offset := 0 }] } =
        some (.next (s.stored s.registers.x0 (littleEndian 1 s.registers.x1.toNat))) := by
  have hvalue : s.read (.w 1) = some s.registers.x1 := rfl
  have haddress : s.address { base := { number := 0, width := 64, sp := true }, offset := 0 } =
      some s.registers.x0 := by
    show some (s.registers.x0 + BitVec.ofInt 64 0) = _
    rw [BitVec.ofInt_ofNat, BitVec.add_zero]
  show s.store _ _ 1 = _
  simp only [Guest.State.store, hvalue, haddress, Option.bind_eq_bind, Option.bind_some, hstore,
    if_true]

/-- The line of the program makes the store and nothing else in memory. -/
theorem lineOutcome_pokes {s : Guest.State} (hstore : s.mayStore s.registers.x0 1 = true)
    (pc : Word) : ∃ exit param t, Guest.lineOutcome pokes pc s = some (exit, param, t) ∧
      t.memory = (s.stored s.registers.x0 (littleEndian 1 s.registers.x1.toNat)).memory := by
  have hmay : (s.setPc pc).mayStore s.registers.x0 1 = true := hstore
  rw [pokes, Guest.lineOutcome_of_next decode_store rfl (step_store hmay pc)]
  rcases Guest.lineOutcome_of_ends decode_return rfl rfl with ⟨exit, param, hreturns, -⟩
  exact ⟨exit, param, _, hreturns, rfl⟩

/-- An engine for the program. -/
def poking (m : Memory) (registers : Registers) : Engine where
  text := pokes
  loadBias := 0
  registers := registers
  memory := m

/-- Executing the program makes the store, if the guest may store there.

**Proof sketch.** Both words are translatable, so executing comes to what the line comes to,
and that has made the store. -/
theorem execute_poking {r : Registers} (h : m.Sound) (hstore : m.grants true r.x0 1 = true) :
    ((poking m r).execute 0).1.memory =
      m.setBytesAt (r.x0 - m.base).toNat (littleEndian 1 r.x1.toNat) := by
  have hmay : (poking m r).guest.mayStore r.x0 1 = true := by
    rw [Guest.mayStore_eq]
    exact hstore
  rcases lineOutcome_pokes hmay 0 with ⟨exit, param, t, houtcome, hmemory⟩
  have hexecuted : Executed (poking m r) 0 ((poking m r).execute 0) := execute_new h rfl
  rcases hrun : (poking m r).execute 0 with ⟨e, result⟩
  rw [hrun] at hexecuted
  cases hexecuted with
  | outside hentry => cases hentry
  | fails hentry hfails =>
    rcases hfails.exists_mem with ⟨word, hword, hnot⟩
    exact absurd (translatable_pokes word hword) hnot
  | leaves hentry hleaves =>
    have hguest : e.guest = t := by
      have hsame := hleaves.symm.trans houtcome
      cases hsame
      rfl
    show e.guest.memory = _
    rw [hguest, hmemory]
    rfl

/-- A byte that is not below the limit can be changed.

**Proof sketch.** Let the program store the next greater value there. -/
theorem not_shielded (h : m.Sound) (hk : k < m.bytes.size)
    (hlimit : m.writableStart.toNat ≤ m.base.toNat + k) : ¬ Shielded m k := by
  intro hshielded
  let r : Registers := { x0 := m.base + BitVec.ofNat 64 k, x1 := (m.bytes[k] + 1).setWidth 64 }
  have hsame : ((poking m r).execute 0).1.memory.bytes[k]? = m.bytes[k]? :=
    hshielded pokes (some 0) 0 (poking m .reset) rfl (by decide) [.setRegisters r, .execute 0]
      (by simp)
  have hlt := m.size_lt
  have hposition : (r.x0 - m.base).toNat = k := Memory.toNat_base_add_sub (by omega)
  rw [execute_poking h (Memory.grants_base_add h.fits Nat.one_pos hk (fun _ => hlimit)), hposition]
    at hsame
  have hbyte : BitVec.ofNat 8 ((m.bytes[k] + 1).setWidth 64).toNat = m.bytes[k] := by
    have hinside : k + (littleEndian 1 r.x1.toNat).length ≤ m.bytes.size := by
      rw [length_littleEndian]
      exact hk
    have hnew : (m.setBytesAt k (littleEndian 1 r.x1.toNat)).bytes[k]? =
        some (BitVec.ofNat 8 r.x1.toNat) := by
      show (Memory.overwrite m.bytes k (littleEndian 1 r.x1.toNat))[k]? = _
      rw [Memory.getElem?_overwrite _ _ _ _ hinside, length_littleEndian, if_pos (by omega),
        Nat.sub_self]
      rfl
    exact Option.some.inj (hnew.symm.trans (hsame.trans (Array.getElem?_eq_getElem hk)))
  rw [BitVec.ofNat_toNat, BitVec.setWidth_setWidth_of_le _ (by decide), BitVec.setWidth_eq] at hbyte
  bv_omega

/-- A byte below the limit is left alone: every call keeps it. -/
theorem shielded (h : m.Sound) (hlimit : m.base.toNat + k < m.writableStart.toNat) :
    Shielded m k := by
  intro text loadBias maxBlocks e hcreate hsize cs hcs
  cases hcreate
  have hwarm : Warm { text, loadBias := loadBias.getD m.base, memory := m, maxBlocks } :=
    .of_empty (fun _ => rfl) h hsize
  exact (hwarm.calls_kept hcs).below k hlimit

/-- **The bytes that guest code leaves alone** are those that are immutable. -/
theorem shielded_iff (h : m.Sound) (hk : k < m.bytes.size) :
    Shielded m k ↔ m.inspect (m.base + BitVec.ofNat 64 k) = .immutable := by
  rw [h.inspect_base_add hk]
  split
  · rename_i hlimit
    exact iff_of_true (shielded h hlimit) rfl
  · rename_i hlimit
    exact iff_of_false (not_shielded h hk (Nat.le_of_not_lt hlimit)) nofun

end Dynarec.Engine
