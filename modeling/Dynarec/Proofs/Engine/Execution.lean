import Dynarec.Proofs.Engine.Cache

/-!
# Executing, case by case

What executing at an entry can come to, in whatever memory and with whatever is cached: the entry is
none, the line there fails to compile, the block is refused, its code is trapped, or its code
returns. A run is a sequence of such executions, and its result is that of the last of them.

## Main definitions

* `Dynarec.Engine.Fetched` — the block at an entry is at hand.
* `Dynarec.Engine.Execution` — what executing at an entry comes to.
* `Dynarec.Engine.Stocked` — every cached block was compiled from the stream.
* `Dynarec.Engine.Stage` — a run on its way.

## Main results

* `Dynarec.Engine.execution` — executing at an entry.
* `Dynarec.Engine.exists_last_stage` — where a run ends.
-/

set_option autoImplicit false

namespace Dynarec.Engine

variable {dis : Guest.Disassembler} {e e' : Engine} {b : Block} {entry : Word}

/-! ## Executing -/

/-- The block at an entry is at hand: it was cached, and the hit is counted, or it has just been
compiled. -/
inductive Fetched [Guest.Disassembler] (e : Engine) (entry : Word) : Engine → Block → Prop where
  | cached {b : Block} (hfind : e.find? entry = some b) (hpinned : e.Pinned b) :
      Fetched e entry (e.countHit entry) b
  | compiled {events : List Event} {pool : Code.Pool} {b : Block} (hnew : e.find? entry = none)
      (hb : b.entry = entry) (hmade : Made e.text e.loadBias e.memory b) :
      Fetched e entry ((e.addBlock pool b).note events) b

/-- What executing at an entry comes to. -/
inductive Execution [Guest.Disassembler] (e : Engine) (entry : Word) :
    Engine × Except Failure (Exit × Word) → Prop where
  | outside (hnew : e.find? entry = none) (hentry : e.isEntry entry = false) :
      Execution e entry
        (e, .error (.ofAt .fault (e.loadBias + entry) (.entry entry e.text.length)))
  | fails {events : List Event} {f : Failure} (hnew : e.find? entry = none)
      (hfails : FailsAt (wordsAt e.text entry) (e.loadBias + entry) f) :
      Execution e entry (e.note events, .error f)
  | refused {b : Block} (hfind : e.find? entry = some b) (hother : ¬ e.Pinned b) :
      Execution e entry
        (e.countHit entry, .error (.ofAt .fault (e.loadBias + entry) .otherAddresses))
  | trapped {e₁ : Engine} {b : Block} (h : Fetched e entry e₁ b)
      (hcall : callCode b.code.program e.registers e.memory = none) :
      Execution e entry ({ e₁ with executions := e₁.executions + 1 },
        .error (.ofAt .fault (e.loadBias + entry) .trapped))
  | leaves {e₁ : Engine} {b : Block} {r : Returned} (h : Fetched e entry e₁ b)
      (hcall : callCode b.code.program e.registers e.memory = some r) :
      Execution e entry ({ e₁ with executions := e₁.executions + 1, registers := r.registers,
                                   memory := r.memory }, .ok (r.exit, r.param))

/-- Invoking a block that is at hand.

**Proof sketch.** A block at hand was cached, and is pinned, or has just been compiled, and
is pinned for that reason. Either way registers and memory are still those of the engine before,
so the call of its code is the one that the statement speaks of. -/
theorem Fetched.invoke {e₁ : Engine} (h : Fetched e entry e₁ b) :
    Execution e entry (e₁.invoke b) := by
  have hsame : e₁.registers = e.registers ∧ e₁.memory = e.memory ∧
      e₁.loadBias + b.entry = e.loadBias + entry ∧ e₁.Pinned b := by
    cases h with
    | cached hfind hpinned =>
      rw [entry_of_find? hfind]
      exact ⟨rfl, rfl, rfl, hpinned⟩
    | compiled hnew hb hmade =>
      rw [hb]
      exact ⟨rfl, rfl, rfl, hmade.cellsBase, hmade.memoryBase⟩
  obtain ⟨hregisters, hmemory, hpc, hpinned⟩ := hsame
  cases hcall : callCode b.code.program e₁.registers e₁.memory with
  | none =>
    rw [invoke_of_trapped hpinned hcall, hpc]
    rw [hregisters, hmemory] at hcall
    exact .trapped h hcall
  | some r =>
    rw [invoke_of_callCode hpinned hcall]
    rw [hregisters, hmemory] at hcall
    exact .leaves h hcall

/-- **Executing at an entry**, whatever is cached and whatever memory is like.

**Proof sketch.** If a block is found, it is pinned and invoked, or it is refused. Otherwise
compiling refuses the entry, fails or makes a block, which is then invoked. -/
theorem execution [Guest.Disassembler] (e : Engine) (entry : Word) :
    Execution e entry (e.execute entry) := by
  unfold execute
  cases hfind : e.find? entry with
  | some b =>
    obtain rfl := entry_of_find? hfind
    by_cases hpinned : e.Pinned b
    · exact (Fetched.cached hfind hpinned).invoke
    · have hrefused := invoke_of_not_pinned (e := e.countHit b.entry) hpinned
      simp only [hrefused]
      exact .refused hfind hpinned
  | none =>
    obtain ⟨hentry, hcompile⟩ | ⟨-, events, f, hfails, hcompile⟩ |
      ⟨-, events, pool, b, hb, hmade, hcompile⟩ := compile_cases hfind
    · rw [hcompile]
      exact .outside hfind hentry
    · rw [hcompile]
      exact .fails hfind hfails
    · rw [hcompile]
      exact (Fetched.compiled hfind hb hmade).invoke

/-! ## Where blocks come from -/

/-- Every cached block was compiled from the stream, against memory at this place under some
limit. -/
def Stocked [Guest.Disassembler] (e : Engine) : Prop :=
  ∀ entry b, e.find? entry = some b →
    ∃ m w, m.Alike (e.memory.limited w) ∧ Made e.text e.loadBias m b

/-- Engines stay stocked.

**Proof sketch.** A block that was there before was made against memory at this place, under some
limit; where memory has stayed, that is memory at this place still. A new block was made under
the limit that is set now. -/
theorem Stocked.evolves (h : e.Stocked) (hev : e.Evolves e') : e'.Stocked := by
  intro entry b' hfind
  rw [hev.text, hev.loadBias]
  obtain ⟨b, hits, hfound, rfl⟩ | ⟨-, m, hm, hmade⟩ := hev.blocks entry b' hfind
  · obtain ⟨m, w, hm, hmade⟩ := h entry b hfound
    exact ⟨m, w, hm.trans (hev.memory.limited w), hmade.setHits hits⟩
  · refine ⟨m, e'.memory.writableStart, ?_, hmade⟩
    rw [Memory.limited_self]
    exact hm.symm.trans hev.memory

/-- Every call keeps an engine stocked, and so does a limit: a block may have been made under any
limit. -/
theorem Stocked.call (h : e.Stocked) (c : Call) : (e.call c).Stocked := by
  cases c with
  | limit address =>
    rw [Engine.call]
    split
    · rename_i m hm
      unfold Memory.setImmutableBelow at hm
      split at hm
      · cases hm
      · cases hm
        exact h
    · exact h
  | compile | execute | run | setRegisters => exact h.evolves (call_evolves e (by simp))

/-- **Engines stay stocked**, whatever is asked of them. -/
theorem Stocked.calls (h : e.Stocked) (cs : List Call) : (e.calls cs).Stocked := by
  induction cs generalizing e with
  | nil => exact h
  | cons c cs ih => exact ih (h.call c)

/-- A new engine is stocked, having no blocks. -/
theorem create_stocked {text : List Opcode} {memory : Option Memory} {loadBias : Option Word}
    {maxBlocks : Int} (h : create text memory loadBias maxBlocks = .ok e) : e.Stocked := by
  obtain ⟨bias, m, rfl⟩ := create_eq h
  intro entry b hfind
  cases hfind

/-- The block at hand is the one that is found afterwards, but for its hits. -/
theorem Fetched.find? {e₁ : Engine} (h : Fetched e entry e₁ b) :
    ∃ hits, e₁.find? entry = some { b with hits := hits } := by
  cases h with
  | cached hfind hpinned =>
    refine ⟨b.hits + 1, ?_⟩
    rw [find?_countHit, hfind, Option.map_some, entry_of_find? hfind, if_pos rfl]
  | compiled hnew hb hmade =>
    refine ⟨b.hits, ?_⟩
    rw [find?_note, find?_addBlock, if_pos hb]

/-- The block at hand was compiled from the line at the entry. -/
theorem Fetched.made {e₁ : Engine} (h : Fetched e entry e₁ b) (he : e.Stocked) :
    ∃ m w, m.Alike (e.memory.limited w) ∧ Made e.text e.loadBias m b ∧ b.entry = entry := by
  cases h with
  | cached hfind hpinned =>
    obtain ⟨m, w, hm, hmade⟩ := he entry b hfind
    exact ⟨m, w, hm, hmade, entry_of_find? hfind⟩
  | compiled hnew hb hmade =>
    refine ⟨e.memory, e.memory.writableStart, ?_, hmade, hb⟩
    rw [Memory.limited_self]
    exact .refl _

/-! ## Running -/

/-- A run on its way: the engine, the number of blocks executed, and the offset to go on at. -/
structure Stage where
  engine : Engine
  executed : Nat
  offset : Word

/-- One more block takes a run from one stage to another. -/
def Stage.Leads [Guest.Disassembler] (c : Cancellation) (p q : Stage) : Prop :=
  p.engine.advance c p.executed p.offset = (q.engine, .next q.offset) ∧
    q.executed = p.executed + 1

/-- A run for one block does not end where it goes on. -/
theorem Stage.Leads.runFrom_one {c : Cancellation} {p q : Stage} (h : Stage.Leads c p q) :
    (runFrom c 1 p.engine p.executed p.offset).2 = none := by
  rw [runFrom, h.1]
  rfl

/-- **Where a run ends:** one more block takes its last stage to the result. -/
theorem exists_last_stage {c : Cancellation} {fuel : Nat} {p : Stage}
    {result : Except Failure Unit}
    (h : runFrom c fuel p.engine p.executed p.offset = (e', some result)) :
    ∃ q, Relation.ReflTransGen (Stage.Leads c) p q ∧
      q.engine.advance c q.executed q.offset = (e', .finished result) := by
  induction fuel generalizing p with
  | zero => cases h
  | succ fuel ih =>
    rw [runFrom] at h
    rcases hadvance : p.engine.advance c p.executed p.offset with ⟨e₁, result' | offset⟩
    · rw [hadvance] at h
      cases h
      exact ⟨p, .refl, hadvance⟩
    · rw [hadvance] at h
      obtain ⟨q, hleads, hq⟩ := ih (p := ⟨e₁, p.executed + 1, offset⟩) h
      exact ⟨q, .head ⟨hadvance, rfl⟩ hleads, hq⟩

/-- What one block of a run keeps, the run keeps on its way. -/
theorem evolves_of_leads {c : Cancellation} {p q : Stage}
    (h : Relation.ReflTransGen (Stage.Leads c) p q) : p.engine.Evolves q.engine := by
  induction h with
  | refl => exact .refl _
  | @tail q r _ hlast ih =>
    have hstep := advance_evolves q.engine c q.executed q.offset
    rw [hlast.1] at hstep
    exact ih.trans hstep

end Dynarec.Engine
