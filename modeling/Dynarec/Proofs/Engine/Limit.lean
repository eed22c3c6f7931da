import Dynarec.Proofs.Engine.Refinement
import Dynarec.Proofs.Guest.Limit

/-!
# Executing after the limit has moved

The code of a block checks stores against the limit that was in force when the block was compiled.
When the limit moves, blocks that are cached stay as they are. Executing one of them then protects
what the old limit protected, and does what a block compiled afresh does exactly when the line comes
to no store that only one of the two limits allows.

## Main definitions

* `Dynarec.Engine.Under` — the block was compiled while some limit was in force.
* `Dynarec.Engine.Seasoned` — every cached block was compiled under some limit.
* `Dynarec.Engine.emptied` — the engine with nothing cached.

## Main results

* `Dynarec.Engine.calls_seasoned` — engines stay seasoned, whatever is asked of them.
* `Dynarec.Engine.execute_under` — executing a block that was compiled under some limit.
* `Dynarec.Engine.execute_agrees_iff` — when it does what a block compiled afresh does.
-/

set_option autoImplicit false

namespace Dynarec.Engine

variable {dis : Guest.Disassembler} {e e' : Engine} {b : Block} {entry w : Word}

/-! ## Blocks under other limits -/

/-- The block was compiled from the stream, against memory at this place, while the limit `w` was in
force. -/
def Under [Guest.Disassembler] (e : Engine) (w : Word) (b : Block) : Prop :=
  ∃ m, m.Sound ∧ m.Alike (e.memory.limited w) ∧ Made e.text e.loadBias m b

/-- Memory is sound, the stream fits into the address space, and every cached block was compiled
under some limit. -/
structure Seasoned [Guest.Disassembler] (e : Engine) : Prop where
  sound : e.memory.Sound
  size : e.text.length * Guest.instructionSize < 0x10000000000000000
  blocks : ∀ entry b, e.find? entry = some b → ∃ w, e.Under w b

/-- An engine with nothing cached is seasoned in sound memory. -/
theorem Seasoned.of_empty (hempty : ∀ entry, e.find? entry = none) (hsound : e.memory.Sound)
    (hsize : e.text.length * Guest.instructionSize < 0x10000000000000000) : e.Seasoned where
  sound := hsound
  size := hsize
  blocks entry b hfind := by
    rw [hempty] at hfind
    cases hfind

/-- Engines stay seasoned while the limit stays.

**Proof sketch.** A block that was there before was compiled under some limit and still was.
A new one was compiled under the limit in force, which has stayed. -/
theorem Seasoned.evolves (h : e.Seasoned) (hev : e.Evolves e') : e'.Seasoned where
  sound := hev.memory.sound h.sound
  size := by rw [hev.text]; exact h.size
  blocks entry b' hfind := by
    obtain ⟨b, hits, hfound, rfl⟩ | ⟨-, m, hm, hmade⟩ := hev.blocks entry b' hfind
    · obtain ⟨w, m, hsound, hm, hmade⟩ := h.blocks entry b hfound
      refine ⟨w, m, hsound, hm.trans (hev.memory.limited w), ?_⟩
      rw [hev.text, hev.loadBias]
      exact hmade.setHits hits
    · refine ⟨e'.memory.writableStart, m, hm.sound h.sound, ?_, ?_⟩
      · rw [Memory.limited_self]
        exact hm.symm.trans hev.memory
      · rw [hev.text, hev.loadBias]
        exact hmade

/-- Engines stay seasoned when the limit moves: the place of memory is the same. -/
theorem Seasoned.limit (h : e.Seasoned) {address : Word} {m : Memory}
    (hm : e.memory.setImmutableBelow address = .ok m) : (e.setMemory m).Seasoned := by
  have hplaced : m.Placed := .setImmutableBelow hm
  rcases Memory.setImmutableBelow_eq_ok_iff.1 hm with ⟨-, -, rfl⟩
  exact ⟨⟨hplaced, h.sound.isOpen, h.sound.fits⟩, h.size, h.blocks⟩

/-- Every call keeps an engine seasoned, a limit included. -/
theorem call_seasoned (h : e.Seasoned) (c : Call) : (e.call c).Seasoned := by
  cases c with
  | limit address =>
    rw [call]
    split
    · rename_i m hm
      exact h.limit hm
    · exact h
  | compile | execute | run | setRegisters => exact h.evolves (call_evolves e (by simp))

/-- **Engines stay seasoned**, whatever is asked of them. -/
theorem calls_seasoned (h : e.Seasoned) (cs : List Call) : (e.calls cs).Seasoned := by
  induction cs generalizing e with
  | nil => exact h
  | cons c cs ih => exact ih (call_seasoned h c)

/-! ## Executing -/

/-- Executing where nothing is cached does what the line there does. -/
theorem execute_new (hsound : e.memory.Sound) (hnew : e.find? entry = none) :
    Executed e entry (e.execute entry) := by
  unfold execute
  rw [hnew]
  obtain ⟨hentry, hcompile⟩ | ⟨hentry, events, f, hfails, hcompile⟩ |
    ⟨hentry, events, pool, b, rfl, hmade, hcompile⟩ := compile_cases hnew
  · rw [hcompile]
    exact .outside hentry rfl
  · rw [hcompile]
    exact .fails hentry hfails rfl
  · rw [hcompile]
    have hinvoke := invoke_made (e := (e.addBlock pool b).note events) hsound (.refl _) hmade
    exact hinvoke.of_guest rfl rfl rfl

/-- Whatever executing at an entry gives, it keeps the bytes below the limit. -/
theorem Executed.kept {r : Engine × Except Failure (Exit × Word)} (h : Executed e entry r) :
    e.memory.Kept r.1.memory := by
  cases h with
  | outside hentry hguest | fails hentry hfails hguest =>
    have hmemory := congrArg Guest.State.memory hguest
    show e.memory.Kept (guest _).memory
    rw [hmemory]
    exact .refl _
  | leaves hentry houtcome => exact Guest.lineOutcome_kept houtcome

/-- **Executing a block that was compiled under some limit** does what the line at its entry does
under that limit.

**Proof sketch.** Host code does not read the limit, so calling it in memory under the limit
in force is calling it in memory under the other limit and then putting the limit in force back.
In memory under the limit it was compiled with, the code does what the line does
(`Made.performs`). -/
theorem execute_under (hfind : e.find? entry = some b) (h : e.Under w b) :
    ∃ exit param t, Guest.lineOutcome (wordsAt e.text entry) (e.loadBias + entry)
        (e.guest.limited w) = some (exit, param, t) ∧
      (e.execute entry).2 = .ok (exit, param) ∧
        (e.execute entry).1.guest = t.limited e.memory.writableStart := by
  obtain ⟨m, hsound, hm, hmade⟩ := h
  obtain ⟨exit, param, t, houtcome, hcall⟩ := hmade.performs (e.guest.limited w) hsound hm
  rw [entry_of_find? hfind] at houtcome
  refine ⟨exit, param, t, houtcome, ?_⟩
  have hcall' : callCode b.code.program e.registers (e.memory.limited w) = _ := hcall
  have hrun : callCode b.code.program e.registers e.memory =
      some { exit := exit, param := param, registers := t.registers,
             memory := t.memory.limited e.memory.writableStart } := by
    calc callCode b.code.program e.registers e.memory
        = callCode b.code.program e.registers
            ((e.memory.limited w).limited e.memory.writableStart) := by
          rw [Memory.limited_limited, Memory.limited_self]
      _ = _ := by rw [callCode_limited, hcall', Option.map_some]
  have hpinned : (e.countHit entry).Pinned b := hmade.pinned hm.hostAddress.symm
  have hexecute : e.execute entry = (e.countHit entry).invoke b := by rw [execute, hfind]
  rw [hexecute, invoke_of_callCode hpinned hrun]
  exact ⟨rfl, rfl⟩

/-! ## Executing afresh -/

/-- The engine with nothing cached. -/
def emptied (e : Engine) : Engine :=
  { e with cache := .empty }

/-- A line that a block was compiled from compiles afresh, and is then executed under the limit in
force.

**Proof sketch.** The line compiles afresh, since it did compile: its words are all
translatable and its entry is one. What is executed is then the line in memory as it is
(`execute_new`). -/
theorem execute_emptied (h : e.Seasoned) (hfind : e.find? entry = some b) (hb : e.Under w b) :
    ∃ exit param t, Guest.lineOutcome (wordsAt e.text entry) (e.loadBias + entry) e.guest =
        some (exit, param, t) ∧
      (e.emptied.execute entry).2 = .ok (exit, param) ∧ (e.emptied.execute entry).1.guest = t := by
  obtain ⟨m, -, -, hmade⟩ := hb
  have htranslatable := hmade.translatable
  have hinside := hmade.inside
  have haligned := hmade.aligned
  rw [entry_of_find? hfind] at htranslatable hinside haligned
  have hexecuted : Executed e.emptied entry (e.emptied.execute entry) := execute_new h.sound rfl
  rcases hrun : e.emptied.execute entry with ⟨e', result⟩
  rw [hrun] at hexecuted
  cases hexecuted with
  | outside hentry =>
    have hin : e.emptied.isEntry entry = true := isEntry_iff.2 ⟨haligned, hinside⟩
    rw [hin] at hentry
    cases hentry
  | fails hentry hfails =>
    obtain ⟨word, hword, hnot⟩ := hfails.exists_mem
    exact absurd (htranslatable word hword) hnot
  | leaves hentry houtcome => exact ⟨_, _, _, houtcome, rfl, rfl⟩

/-- The two came to the same result, with the same registers and the same memory. -/
def Agree (r r' : Engine × Except Failure (Exit × Word)) : Prop :=
  r.2 = r'.2 ∧ r.1.guest = r'.1.guest

/-- Executing a block that was compiled under some limit agrees with executing afresh exactly if the
line comes to no store that the limits dispute.

**Proof sketch.** Executing the block does what the line does under the limit it was compiled
with, and executing afresh what it does under the limit in force. Without a dispute the two come
to the same but for the limit (`Guest.lineOutcome_limited`). At a dispute they are left in
different ways or with different registers (`Guest.Disputed.parts`). -/
theorem Under.agree_iff (h : e.Seasoned) (hfind : e.find? entry = some b) (hb : e.Under w b) :
    Agree (e.execute entry) (e.emptied.execute entry) ↔
      ¬ Guest.Disputed w (wordsAt e.text entry) (e.loadBias + entry) e.guest := by
  obtain ⟨exit, param, t, hold, hresult, hguest⟩ := execute_under hfind hb
  obtain ⟨exit', param', t', hnew, hresult', hguest'⟩ := execute_emptied h hfind hb
  unfold Agree
  rw [hresult, hresult', hguest, hguest']
  constructor
  · rintro ⟨hexit, hstate⟩ hdisputed
    have hlength : (wordsAt e.text entry).length * Guest.instructionSize < 0x10000000000000000 := by
      have hsize := h.size
      have hdrop : (wordsAt e.text entry).length ≤ e.text.length := by
        rw [wordsAt, List.length_drop]
        exact Nat.sub_le _ _
      exact Nat.lt_of_le_of_lt (Nat.mul_le_mul_right _ hdrop) hsize
    cases hexit
    have hregisters : (t.limited e.memory.writableStart).registers = t'.registers :=
      congrArg Guest.State.registers hstate
    rcases hdisputed.parts hlength hnew hold with hne | hne
    · exact hne rfl
    · exact hne hregisters.symm
  · intro hdisputed
    rw [Guest.lineOutcome_limited hdisputed, hnew] at hold
    cases hold
    refine ⟨rfl, ?_⟩
    have hlimit : t'.memory.writableStart = e.memory.writableStart :=
      (Guest.lineOutcome_kept hnew).writableStart
    show (t'.limited w).limited e.memory.writableStart = t'
    rw [← hlimit]
    rfl

/-- **Executing after the limit has moved.** Let an engine start with nothing cached, in open memory
that does not run on past the address space, and let it be called in any way, its limit moved at
any time. At an entry where nothing is cached, executing keeps the bytes below the limit in force.
A block that is cached was compiled under some limit. Executing it keeps the bytes below that
limit, and comes to the same result, registers and memory as compiling the line afresh exactly if
the line comes to no store that only one of the limit it was compiled under and the limit in force
allows.

**Proof sketch.** An engine without blocks is seasoned, and calls keep it so. What is
executed afresh keeps the bytes below the limit in force. For a cached block, executing is the
line under the limit it was compiled with (`execute_under`), which keeps the bytes below that
limit (`Guest.lineOutcome_kept`), and the agreement is `Under.agree_iff`. -/
theorem execute_agrees_iff [Guest.Disassembler] (e : Engine)
    (hempty : ∀ entry, e.find? entry = none) (hmemory : e.memory.Reachable)
    (hopen : e.memory.bytes.size ≠ 0)
    (hfits : e.memory.base.toNat + e.memory.bytes.size ≤ 0x10000000000000000)
    (hsize : e.text.length * Guest.instructionSize < 0x10000000000000000) (cs : List Call)
    (entry : Word) :
    let c := e.calls cs
    (c.find? entry = none → c.memory.Kept (c.execute entry).1.memory) ∧
    ∀ b, c.find? entry = some b → (∃ w, c.Under w b) ∧ ∀ w, c.Under w b →
      (c.memory.limited w).Kept ((c.execute entry).1.memory.limited w) ∧
      (Agree (c.execute entry) (c.emptied.execute entry) ↔
        ¬ Guest.Disputed w (wordsAt c.text entry) (c.loadBias + entry) c.guest) := by
  have hstart : e.Seasoned := .of_empty hempty ⟨hmemory.placed, hopen, hfits⟩ hsize
  have hseasoned := calls_seasoned hstart cs
  generalize e.calls cs = c at hseasoned ⊢
  refine ⟨fun hnew => (execute_new hseasoned.sound hnew).kept, fun b hfind => ?_⟩
  refine ⟨hseasoned.blocks entry b hfind, fun w hw => ⟨?_, hw.agree_iff hseasoned hfind⟩⟩
  obtain ⟨exit, param, t, houtcome, -, hguest⟩ := execute_under hfind hw
  have hmem : (c.execute entry).1.memory = t.memory.limited c.memory.writableStart :=
    congrArg Guest.State.memory hguest
  have hkept := Guest.lineOutcome_kept houtcome
  have hlimit : t.memory.writableStart = w := hkept.writableStart
  rw [hmem, Memory.limited_limited, ← hlimit, Memory.limited_self, hlimit]
  exact hkept

/-- A store that was compiled before its page became immutable is still made, while one compiled
afresh faults. -/
theorem execute_disagrees_below_limit :
    let _ : Guest.Disassembler := .least
    let e : Engine := { text := [0xf9000001, 0xd65f03c0], loadBias := 0, memory := .page 0x40000 }
    let c := e.calls
      [.compile 0, .limit 0x41000, .setRegisters { x0 := 0x40ff8, x1 := 1 }]
    e.memory.Reachable ∧ c.memory.writableStart = 0x41000 ∧
      ∃ b, c.find? 0 = some b ∧ ¬ Agree (c.execute 0) (c.emptied.execute 0) := by
  intro _ e c
  have hmemory : e.memory.Reachable := .page 0x40000
  have hopen : e.memory.bytes.size ≠ 0 := by simp [e, Memory.page]
  have hfits : e.memory.base.toNat + e.memory.bytes.size ≤ 0x10000000000000000 := by
    simp [e, Memory.page]
  have hlimit : e.memory.setImmutableBelow 0x41000 = .ok (e.memory.limited 0x41000) := by
    simp [Memory.setImmutableBelow, Memory.limited, Memory.stop, Memory.size, e, Memory.page]
  have hwords : ∀ word ∈ Guest.straightLine (wordsAt e.text 0), Guest.Translatable word := by
    intro word hword
    have hline : Guest.straightLine (wordsAt e.text 0) = [0xf9000001, 0xd65f03c0] := by decide
    rw [hline, List.mem_cons, List.mem_singleton] at hword
    obtain rfl | rfl := hword
    · exact ⟨_, rfl, by decide⟩
    · exact ⟨_, rfl, by decide⟩
  obtain ⟨hentry, -⟩ | ⟨-, events, f, hfails, -⟩ | ⟨-, events, pool, b, hb, hmade, hcompile⟩ :=
    compile_cases (show e.find? 0 = none from rfl)
  · cases hentry
  · obtain ⟨word, hword, hnot⟩ := hfails.exists_mem
    exact absurd (hwords word hword) hnot
  · have hc : c = (((e.addBlock pool b).note events).setMemory
        (e.memory.limited 0x41000)).setRegisters { x0 := 0x40ff8, x1 := 1 } := by
      show ((e.compile 0).1.call (.limit 0x41000)).setRegisters _ = _
      rw [hcompile, call, show ((e.addBlock pool b).note events).memory = e.memory from rfl, hlimit]
    have hfind : c.find? 0 = some b := by
      rw [hc]
      show (e.addBlock pool b).find? 0 = some b
      rw [find?_addBlock, if_pos hb]
    have hunder : c.Under 0x40000 b := by
      rw [hc]
      exact ⟨e.memory, ⟨hmemory.placed, hopen, hfits⟩, .refl _, hmade⟩
    have hdisputed : Guest.Disputed 0x40000 (wordsAt c.text 0) (c.loadBias + 0) c.guest := by
      rw [hc]
      have hdecode : Guest.decode 0xf9000001 = some { op := .str, operands := [.reg (.x 1),
          .mem { base := { number := 0, width := 64, sp := true }, offset := 0 }] } := by
        decide
      refine .here hdecode
        ⟨_, 8, 0x40ff8, rfl, rfl, ?_,
          show (0x41000 : Word) ≤ 0x40ff8 ↔ ¬ 0x40000 ≤ 0x40ff8 by decide⟩
      simp [Guest.State.setPc, guest, setRegisters, setMemory, Memory.contains, Memory.size, e,
        Memory.page]
    refine ⟨hmemory, by rw [hc]; rfl, b, hfind, fun hagree => ?_⟩
    have hcached :=
      (execute_agrees_iff e (fun _ => rfl) hmemory hopen hfits (by decide) _ 0).2 b hfind
    have hiff := hcached.2 _ hunder
    exact hiff.2.1 hagree hdisputed

end Dynarec.Engine
