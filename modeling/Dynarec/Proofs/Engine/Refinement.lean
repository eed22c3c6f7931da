import Dynarec.Proofs.Engine.Cache
import Dynarec.Proofs.Guest.Interpreter

/-!
# Running refines interpreting

An engine runs a stream block by block, out of a cache that earlier calls have filled. The
interpreter runs it one instruction at a time. Both come to the same end: the engine halts exactly
when the interpreter does, in the same state, and when the engine fails the interpreter has faulted
too, has left the stream, or has come to a line with a word that is not translatable.

## Main definitions

* `Dynarec.Engine.guest` — what the guest sees of an engine.
* `Dynarec.Engine.Warm` — the cached blocks belong to the stream and to memory.
* `Dynarec.Engine.Stops` — what the interpreter does when a run fails.

## Main results

* `Dynarec.Engine.execute_cases` — executing at an entry does what the line there does.
* `Dynarec.Engine.advance_spec` — one more block of a run.
* `Dynarec.Engine.run_iff_halted` — running refines interpreting.
-/

set_option autoImplicit false

namespace Dynarec.Engine

/-- What the guest sees of an engine. -/
def guest (e : Engine) : Guest.State where
  registers := e.registers
  memory := e.memory

/-- Memory is sound, the stream fits into the address space, and the cached blocks were compiled
from the stream against memory at this place under this limit. -/
structure Warm [Guest.Disassembler] (e : Engine) : Prop where
  sound : e.memory.Sound
  size : e.text.length * Guest.instructionSize < 0x10000000000000000
  blocks : ∀ entry b, e.find? entry = some b →
    ∃ m, m.Alike e.memory ∧ Made e.text e.loadBias m b

variable {dis : Guest.Disassembler} {e e' : Engine} {b : Block} {entry : Word}

/-- Engines stay warm. -/
theorem Warm.evolves (h : e.Warm) (hev : e.Evolves e') : e'.Warm where
  sound := hev.memory.sound h.sound
  size := by rw [hev.text]; exact h.size
  blocks entry b' hfind := by
    rw [hev.text, hev.loadBias]
    obtain ⟨b, hits, hfound, rfl⟩ | ⟨-, m, hm, hmade⟩ := hev.blocks entry b' hfind
    · obtain ⟨m, hm, hmade⟩ := h.blocks entry b hfound
      exact ⟨m, hm.trans hev.memory, hmade.setHits hits⟩
    · exact ⟨m, hm.symm.trans hev.memory, hmade⟩

/-! ## Executing -/

/-- What executing at an entry gives: nothing at an offset that is no entry or starts a line that
cannot be compiled, and otherwise what the line comes to. -/
inductive Executed (e : Engine) (entry : Word) : Engine × Except Failure (Exit × Word) → Prop where
  | outside {e' : Engine} (hentry : e.isEntry entry = false) (hguest : e'.guest = e.guest) :
      Executed e entry
        (e', .error (.ofAt .fault (e.loadBias + entry) (.entry entry e.text.length)))
  | fails {e' : Engine} {f : Failure} (hentry : e.isEntry entry = true)
      (hfails : FailsAt (wordsAt e.text entry) (e.loadBias + entry) f)
      (hguest : e'.guest = e.guest) : Executed e entry (e', .error f)
  | leaves {e' : Engine} {exit : Exit} {param : Word} (hentry : e.isEntry entry = true)
      (houtcome : Guest.lineOutcome (wordsAt e.text entry) (e.loadBias + entry) e.guest =
        some (exit, param, e'.guest)) : Executed e entry (e', .ok (exit, param))

/-- An offset is an entry if an instruction of the stream starts there. -/
theorem isEntry_iff : e.isEntry entry = true ↔
    entry.toNat % Guest.instructionSize = 0 ∧ entry < e.streamSize := by
  simp [isEntry]

/-- Invoking a block of the stream does what the line at its entry does. -/
theorem invoke_made (hsound : e.memory.Sound) {m : Memory} (hm : m.Alike e.memory)
    (hmade : Made e.text e.loadBias m b) : Executed e b.entry (e.invoke b) := by
  obtain ⟨exit, param, t, houtcome, hcall⟩ := hmade.performs e.guest (hm.symm.sound hsound) hm
  rw [invoke_of_callCode (hmade.pinned hm.hostAddress.symm) hcall]
  exact .leaves (isEntry_iff.2 ⟨hmade.aligned, hmade.inside⟩) houtcome

/-- Executing looks at the stream and at what the guest sees. -/
theorem Executed.of_guest {r : Engine × Except Failure (Exit × Word)} (h : Executed e' entry r)
    (htext : e'.text = e.text) (hbias : e'.loadBias = e.loadBias) (hguest : e'.guest = e.guest) :
    Executed e entry r := by
  have hentry : e'.isEntry entry = e.isEntry entry := by
    rw [isEntry, streamSize, htext, isEntry, streamSize]
  cases h with
  | outside hout hsame =>
    rw [hbias, htext]
    exact .outside (hentry.symm.trans hout) (hsame.trans hguest)
  | fails hin hfails hsame =>
    rw [hbias, htext] at hfails
    exact .fails (hentry.symm.trans hin) hfails (hsame.trans hguest)
  | leaves hin houtcome =>
    rw [hbias, htext, hguest] at houtcome
    exact .leaves (hentry.symm.trans hin) houtcome

/-- **Executing at an entry** of a warm engine does what the line there does, whatever is cached.

**Proof sketch.** A cached block was made against memory at this place, so invoking it does
what the line does (`invoke_made`). Otherwise compiling refuses the entry, fails at a word, or
makes a block that is then invoked (`compile_cases`); counting a hit or adding a block changes
nothing that the guest sees. -/
theorem execute_cases (h : e.Warm) (entry : Word) : Executed e entry (e.execute entry) := by
  unfold execute
  cases hfind : e.find? entry with
  | some b =>
    obtain ⟨m, hm, hmade⟩ := h.blocks entry b hfind
    have hinvoke := invoke_made (e := e.countHit entry) h.sound hm hmade
    rw [entry_of_find? hfind] at hinvoke
    exact hinvoke.of_guest rfl rfl rfl
  | none =>
    obtain ⟨hentry, hcompile⟩ | ⟨hentry, events, f, hfails, hcompile⟩ |
      ⟨hentry, events, pool, b, rfl, hmade, hcompile⟩ := compile_cases hfind
    · rw [hcompile]
      exact .outside hentry rfl
    · rw [hcompile]
      exact .fails hentry hfails rfl
    · rw [hcompile]
      have hinvoke := invoke_made (e := (e.addBlock pool b).note events) h.sound (.refl _) hmade
      exact hinvoke.of_guest rfl rfl rfl

/-! ## Failures -/

/-- What the interpreter does from a state and an offset when a run fails and leaves a state behind:
it faults there, at the instruction that the error names; it leaves the stream; or it gets to a line
with a word that is not translatable, and the error is that of the first such word. -/
inductive Stops (text : List Opcode) (loadBias : Word) (p : Guest.State × Word)
    (t : Guest.State) : Failure → Prop where
  | fault {address : Word} {range : Option (Word × Word)}
      (h : ∃ fuel, Guest.runFrom text loadBias fuel p.1 p.2 = some (.faulted address t)) :
      Stops text loadBias p t (.ofAt .fault t.registers.pc (.access address range))
  | outside {offset : Word}
      (h : ∃ fuel, Guest.runFrom text loadBias fuel p.1 p.2 = some (.outside offset t)) :
      Stops text loadBias p t (.ofAt .fault (loadBias + offset) (.entry offset text.length))
  | untranslatable {offset : Word} {f : Failure}
      (hreach : Guest.Reaches text loadBias p (t, offset))
      (haligned : offset.toNat % Guest.instructionSize = 0)
      (hinside : offset.toNat < text.length * Guest.instructionSize)
      (h : FailsAt (wordsAt text offset) (loadBias + offset) f) : Stops text loadBias p t f

section Stops

variable {text : List Opcode} {loadBias : Word} {p q : Guest.State × Word} {t : Guest.State}
variable {f : Failure}

/-- How the interpreter stops does not depend on how often it was interrupted on the way. -/
theorem Stops.of_reaches (hreach : Guest.Reaches text loadBias p q)
    (h : Stops text loadBias q t f) : Stops text loadBias p t f := by
  cases h with
  | fault h =>
    obtain ⟨fuel, hrun⟩ := h
    exact .fault (hreach.runFrom hrun)
  | outside h =>
    obtain ⟨fuel, hrun⟩ := h
    exact .outside (hreach.runFrom hrun)
  | untranslatable hreach' haligned hinside h =>
    exact .untranslatable (hreach.trans hreach') haligned hinside h

/-- The interpreter does not halt where a run fails.

**Proof sketch.** The interpreter is deterministic (`Guest.runFrom_unique`), so it cannot
halt where it faults or leaves the stream. At a line with a word that is not translatable it
faults before it comes to the word, or is refused there (`Guest.lineOutcome_of_mem`). -/
theorem Stops.not_halted (hsize : text.length * Guest.instructionSize < 0x10000000000000000)
    (h : Stops text loadBias p t f) {fuel : Nat} {s : Guest.State} :
    Guest.runFrom text loadBias fuel p.1 p.2 ≠ some (.halted s) := by
  intro hhalted
  cases h with
  | fault h =>
    obtain ⟨fuel', hrun⟩ := h
    cases Guest.runFrom_unique hhalted hrun
  | outside h =>
    obtain ⟨fuel', hrun⟩ := h
    cases Guest.runFrom_unique hhalted hrun
  | @untranslatable offset f hreach haligned hinside h =>
    -- from the line on the interpreter either faults before the word or is refused at it
    have hline : Guest.Arrives text loadBias (t, offset)
        (Guest.lineOutcome (wordsAt text offset) (loadBias + offset) t) :=
      Guest.lineOutcome_runs hsize _ t offset haligned (Nat.le_of_lt hinside) rfl
    obtain hnone | ⟨address, u, hfault⟩ :=
      Guest.lineOutcome_of_mem h.exists_mem (loadBias + offset) t
    · rw [hnone] at hline
      cases hline with
      | refused hrefused =>
        obtain ⟨n, hn⟩ := hrefused
        obtain ⟨n', hn'⟩ := hreach.runFrom hn
        cases Guest.runFrom_unique hhalted hn'
    · rw [hfault] at hline
      cases hline with
      | fault hfault =>
        obtain ⟨n, hn⟩ := hfault
        obtain ⟨n', hn'⟩ := hreach.runFrom hn
        cases Guest.runFrom_unique hhalted hn'

end Stops

/-! ## Running -/

/-- The size of the stream in bytes does not wrap around. -/
theorem Warm.toNat_streamSize (h : e.Warm) :
    e.streamSize.toNat = e.text.length * Guest.instructionSize := by
  rw [streamSize, BitVec.toNat_ofNat]
  exact Nat.mod_eq_of_lt h.size

/-- The entries are the offsets inside the stream where an instruction stands. -/
theorem Warm.isEntry_iff (h : e.Warm) : e.isEntry entry = true ↔
    entry.toNat % Guest.instructionSize = 0 ∧
      entry.toNat < e.text.length * Guest.instructionSize := by
  rw [Engine.isEntry_iff, BitVec.lt_def, h.toNat_streamSize]

/-- Where there is no entry the interpreter finds no word. -/
theorem Warm.wordAt?_eq_none (h : e.Warm) (hentry : e.isEntry entry = false) :
    Guest.wordAt? e.text entry = none := by
  rw [← Bool.not_eq_true, h.isEntry_iff] at hentry
  unfold Guest.wordAt?
  split
  · rename_i haligned
    unfold Guest.instructionSize at *
    refine List.getElem?_eq_none ?_
    omega
  · rfl

/-- How one more block of a run stands to the interpreter, from the same state and offset. -/
inductive Advanced (e : Engine) (offset : Word) : Engine × Progress → Prop where
  | halted {e' : Engine} (h : ∃ fuel, Guest.runFrom e.text e.loadBias fuel e.guest offset =
      some (.halted e'.guest)) : Advanced e offset (e', .finished (.ok ()))
  | failed {e' : Engine} {f : Failure}
      (h : Stops e.text e.loadBias (e.guest, offset) e'.guest f) :
      Advanced e offset (e', .finished (.error f))
  | next {e' : Engine} {offset' : Word} (h : Relation.TransGen
      (Guest.Moves e.text e.loadBias) (e.guest, offset) (e'.guest, offset')) :
      Advanced e offset (e', .next offset')

/-- **One more block of a run.** The interpreter halts if the run ends well, goes some steps to
where the run goes on, and stops if the run fails.

**Proof sketch.** At the end of the stream both are done. Anywhere else the budget is no
matter, and executing the block comes to what the line comes to (`execute_cases`). The
interpreter gets through that line step by step and arrives where the line is left
(`Guest.lineOutcome_runs`), so each way to leave is one way to go on. -/
theorem advance_spec (h : e.Warm) (hbudget : e.maxBlocks ≤ 0) (executed : Nat) (offset : Word) :
    Advanced e offset (e.advance .never executed offset) := by
  have hlive : ¬ Cancellation.never.done executed = true := Bool.false_ne_true
  unfold advance
  rw [if_neg hlive]
  split
  · rename_i hend
    refine .halted ⟨1, Guest.runFrom_of_inl (p := (e.guest, offset)) ?_⟩
    exact if_pos hend
  · rename_i hend
    have hunlimited : ¬ (0 < e.maxBlocks ∧ e.maxBlocks ≤ (executed : Int)) := by omega
    rw [if_neg hunlimited]
    have hexecute := execute_cases h offset
    have hbias := (execute_evolves e offset).loadBias
    generalize e.execute offset = done at hexecute hbias
    cases hexecute with
    | outside hentry hguest =>
      have houtside : Guest.advance e.text e.loadBias e.guest offset =
          .inl (.outside offset e.guest) := by
        rw [Guest.advance, if_neg (show offset ≠ BitVec.ofNat 64 _ from hend),
          h.wordAt?_eq_none hentry]
      refine .failed (.outside ⟨1, ?_⟩)
      rw [hguest]
      exact Guest.runFrom_of_inl houtside
    | fails hentry hfails hguest =>
      obtain ⟨haligned, hinside⟩ := h.isEntry_iff.1 hentry
      refine .failed ?_
      rw [hguest]
      exact .untranslatable .refl haligned hinside hfails
    | @leaves e' exit param hentry houtcome =>
      obtain ⟨haligned, hinside⟩ := h.isEntry_iff.1 hentry
      have hline : Guest.Arrives e.text e.loadBias (e.guest, offset)
          (Guest.lineOutcome (wordsAt e.text offset) (e.loadBias + offset) e.guest) :=
        Guest.lineOutcome_runs h.size _ e.guest offset haligned (Nat.le_of_lt hinside) rfl
      rw [houtcome] at hline
      cases hline with
      | halt hhalt => exact .halted hhalt
      | branch hbranch =>
        refine .next ?_
        rw [show e'.loadBias = e.loadBias from hbias]
        exact hbranch
      | fault hfault => exact .failed (.fault hfault)

/-- How a run stands to the interpreter, from the same state and offset. -/
inductive Ran (e : Engine) (offset : Word) : Engine × Option (Except Failure Unit) → Prop where
  | spent {e' : Engine} : Ran e offset (e', none)
  | halted {e' : Engine} (h : ∃ fuel, Guest.runFrom e.text e.loadBias fuel e.guest offset =
      some (.halted e'.guest)) : Ran e offset (e', some (.ok ()))
  | failed {e' : Engine} {f : Failure}
      (h : Stops e.text e.loadBias (e.guest, offset) e'.guest f) :
      Ran e offset (e', some (.error f))

/-- What one block of a run comes to, the run comes to.

**Proof sketch.** By induction on the rounds. One more block leads the interpreter to where
the rest of the run starts (`advance_spec`), and what the rest comes to, it comes to from there. -/
theorem runFrom_spec (h : e.Warm) (hbudget : e.maxBlocks ≤ 0) (fuel executed : Nat)
    (offset : Word) : Ran e offset (runFrom .never fuel e executed offset) := by
  induction fuel generalizing e executed offset with
  | zero => exact .spent
  | succ fuel ih =>
    have hadvance := advance_spec h hbudget executed offset
    have hev := advance_evolves e .never executed offset
    rw [runFrom]
    generalize e.advance .never executed offset = progress at hadvance hev
    cases hadvance with
    | halted hhalted => exact .halted hhalted
    | failed hstops => exact .failed hstops
    | @next e' offset' hmoves =>
      have hrest := ih (h.evolves hev) (hev.maxBlocks ▸ hbudget) (executed + 1) offset'
      show e.Ran offset (runFrom .never fuel e' (executed + 1) offset')
      generalize runFrom .never fuel e' (executed + 1) offset' = result at hrest
      cases hrest with
      | spent => exact .spent
      | halted hhalted =>
        obtain ⟨n, hn⟩ := hhalted
        rw [hev.text, hev.loadBias] at hn
        exact .halted (Guest.Reaches.runFrom hmoves.to_reflTransGen hn)
      | failed hstops =>
        rw [hev.text, hev.loadBias] at hstops
        exact .failed (hstops.of_reaches hmoves.to_reflTransGen)

/-- Where the interpreter halts, the run halts with enough fuel.

**Proof sketch.** By induction on the steps that the interpreter needs. A block takes the
interpreter at least one step on its way, or to the end; and it cannot fail, for then the
interpreter would not halt. -/
theorem exists_runFrom_of_halted (h : e.Warm) (hbudget : e.maxBlocks ≤ 0) {n : Nat}
    {offset : Word} {s : Guest.State}
    (hrun : Guest.runFrom e.text e.loadBias n e.guest offset = some (.halted s)) (executed : Nat) :
    ∃ fuel e', runFrom .never fuel e executed offset = (e', some (.ok ())) ∧ e'.guest = s := by
  induction n using Nat.strong_induction_on generalizing e executed offset with
  | _ n ih =>
    have hadvance := advance_spec h hbudget executed offset
    have hev := advance_evolves e .never executed offset
    rcases hprogress : e.advance .never executed offset with ⟨e', progress⟩
    rw [hprogress] at hadvance hev
    cases hadvance with
    | halted hhalted =>
      obtain ⟨n', hn'⟩ := hhalted
      refine ⟨1, e', by rw [runFrom, hprogress], ?_⟩
      cases Guest.runFrom_unique (p := (e.guest, offset)) hrun hn'
      rfl
    | failed hstops => exact absurd hrun (hstops.not_halted h.size)
    | @next _ offset' hmoves =>
      obtain ⟨n', hlt, hn'⟩ := Guest.runFrom_of_transGen (p := (e.guest, offset)) hmoves hrun
      rw [← hev.text, ← hev.loadBias] at hn'
      obtain ⟨fuel, e'', hrest, hguest⟩ :=
        ih n' hlt (h.evolves hev) (hev.maxBlocks ▸ hbudget) hn' (executed + 1)
      exact ⟨fuel + 1, e'', by rw [runFrom, hprogress]; exact hrest, hguest⟩

/-- An engine with nothing cached is warm in sound memory. -/
theorem Warm.of_empty (hempty : ∀ entry, e.find? entry = none) (hsound : e.memory.Sound)
    (hsize : e.text.length * Guest.instructionSize < 0x10000000000000000) : e.Warm where
  sound := hsound
  size := hsize
  blocks entry b hfind := by
    rw [hempty] at hfind
    cases hfind

/-- **Running refines interpreting.** Let an engine start with nothing cached, in open memory that
does not run on past the address space, without a budget, and let it be called in any way that
leaves the limit on its memory alone. From there a run at any entry ends well exactly when the
interpreter halts, and in the same state. If it fails, the interpreter faults at the same
instruction and address in the same state, leaves the stream at the offset the error names, or gets
in the same state to a line whose first word that is not translatable gives the error.

**Proof sketch.** Calls keep the engine warm. One block of a run takes the interpreter to where the
run goes on, so by induction the run ends as the interpreter does; conversely every block takes the
interpreter at least one step, so that a halting run of it bounds the blocks. -/
theorem run_iff_halted [Guest.Disassembler] (e : Engine)
    (hempty : ∀ entry, e.find? entry = none) (hmemory : e.memory.Reachable)
    (hopen : e.memory.bytes.size ≠ 0)
    (hfits : e.memory.base.toNat + e.memory.bytes.size ≤ 0x10000000000000000)
    (hsize : e.text.length * Guest.instructionSize < 0x10000000000000000)
    (hbudget : e.maxBlocks ≤ 0) (cs : List Call) (hcalls : ∀ c ∈ cs, ∀ address, c ≠ .limit address)
    (entry : Word) :
    (∀ s, (∃ fuel e', (e.calls cs).run fuel .never entry = (e', some (.ok ())) ∧ e'.guest = s) ↔
      ∃ n, Guest.runFrom e.text e.loadBias n (e.calls cs).guest entry = some (.halted s)) ∧
    ∀ fuel e' f, (e.calls cs).run fuel .never entry = (e', some (.error f)) →
      Stops e.text e.loadBias ((e.calls cs).guest, entry) e'.guest f := by
  have hev := calls_evolves e hcalls
  have hstart : e.Warm := .of_empty hempty ⟨hmemory.placed, hopen, hfits⟩ hsize
  have hwarm := hstart.evolves hev
  have hbudget' : (e.calls cs).maxBlocks ≤ 0 := hev.maxBlocks ▸ hbudget
  rw [← hev.text, ← hev.loadBias]
  refine ⟨fun s => ⟨?_, ?_⟩, ?_⟩
  · rintro ⟨fuel, e', hrun, rfl⟩
    have hran := runFrom_spec hwarm hbudget' fuel 0 entry
    rw [show runFrom .never fuel (e.calls cs) 0 entry = _ from hrun] at hran
    cases hran with
    | halted h => exact h
  · rintro ⟨n, hn⟩
    exact exists_runFrom_of_halted hwarm hbudget' hn 0
  · intro fuel e' f hrun
    have hran := runFrom_spec hwarm hbudget' fuel 0 entry
    rw [show runFrom .never fuel (e.calls cs) 0 entry = _ from hrun] at hran
    cases hran with
    | failed h => exact h

/-- A stream that branches over a word that is no instruction to a return, which is cached. -/
theorem run_branch_over_halts :
    let _ : Guest.Disassembler := .least
    let e : Engine :=
      { text := [0x14000002, 0, 0xd65f03c0], loadBias := 0x10000, memory := .page 0x40000 }
    e.memory.Reachable ∧ e.memory.bytes.size ≠ 0 ∧
      ∃ fuel e', (e.calls [.compile 8]).run fuel .never 0 = (e', some (.ok ())) := by
  intro _ e
  have hmemory : e.memory.Reachable := .page 0x40000
  have hopen : e.memory.bytes.size ≠ 0 := by simp [e, Memory.page]
  refine ⟨hmemory, hopen, ?_⟩
  have hhalted : ∀ g : Guest.State, Guest.runFrom e.text e.loadBias 2 g 0 =
      some (.halted (g.setPc 0x10008)) := fun g => rfl
  obtain ⟨hiff, -⟩ :=
    run_iff_halted e (fun _ => rfl) hmemory hopen (by simp [e, Memory.page]) (by decide)
      (by decide) [.compile 8] (by simp) 0
  obtain ⟨fuel, e', hok, -⟩ := (hiff _).2 ⟨2, hhalted _⟩
  exact ⟨fuel, e', hok⟩

end Dynarec.Engine
