import Dynarec.Proofs.Engine.Compile
import Dynarec.Proofs.Engine.Index
import Dynarec.Proofs.Host.Machine

/-!
# The cache of an engine

Whatever an engine is asked to do, it runs the same stream, its memory stays where it is, and the
blocks it has cached stay cached. A block that is new was compiled against memory as it was then.

## Main definitions

* `Dynarec.Engine.Pinned` — a block was compiled against the addresses in use.
* `Dynarec.Engine.Evolves` — what can become of an engine while the limit on its memory stays.
* `Dynarec.Engine.Call`, `Dynarec.Engine.call` — what an engine is asked to do.

## Main results

* `Dynarec.Engine.find?_addBlock`, `Dynarec.Engine.find?_countHit` — what is found afterwards.
* `Dynarec.Engine.execute_evolves`, `Dynarec.Engine.runFrom_evolves` — executing and running.
* `Dynarec.Engine.runFrom_keeps` — what executing keeps, a run keeps.
* `Dynarec.Engine.call_evolves` — every call that sets no limit.
-/

set_option autoImplicit false

namespace Dynarec.Engine

variable {dis : Guest.Disassembler} {e e' e'' : Engine} {b : Block} {entry : Word}

/-! ## Finding blocks -/

/-- A block is found at its own entry. -/
theorem entry_of_find? (h : e.find? entry = some b) : b.entry = entry :=
  Cache.entry_of_find? h

/-- A note in the journal changes nothing about the blocks that are found. -/
@[simp] theorem find?_note (e : Engine) (events : List Event) (entry : Word) :
    (e.note events).find? entry = e.find? entry := rfl

/-- A block that is added is found at its entry, and the others where they were. -/
theorem find?_addBlock (e : Engine) (pool : Code.Pool) (b : Block) (entry : Word) :
    (e.addBlock pool b).find? entry = if b.entry = entry then some b else e.find? entry :=
  e.cache.find?_add b entry

/-- Counting a hit changes nothing else about the blocks that are found. -/
theorem find?_countHit (e : Engine) (hit entry : Word) :
    (e.countHit hit).find? entry = (e.find? entry).map fun b =>
      if b.entry = hit then { b with hits := b.hits + 1 } else b :=
  e.cache.find?_update hit Block.hit (fun _ => rfl) entry

/-! ## Invoking blocks -/

/-- The block was compiled against the addresses that are in use. -/
def Pinned (e : Engine) (b : Block) : Prop :=
  b.cellsBase = Cell.hostBase ∧ b.memoryBase = e.memory.hostAddress

/-- A block that was made against memory at an address is pinned while memory is there. -/
theorem Made.pinned {m : Memory} (h : Made e.text e.loadBias m b)
    (hm : m.hostAddress = e.memory.hostAddress) : e.Pinned b :=
  ⟨h.cellsBase, h.memoryBase.trans hm⟩

/-- Invoking a block that was compiled against these addresses leaves what its code leaves. -/
theorem invoke_of_callCode {r : Returned} (h : e.Pinned b)
    (hcall : callCode b.code.program e.registers e.memory = some r) :
    e.invoke b = ({ e with executions := e.executions + 1, registers := r.registers,
                           memory := r.memory }, .ok (r.exit, r.param)) := by
  simp [invoke, h.1, h.2, hcall]

/-- Invoking a pinned block whose code traps counts the execution and reports the trap. -/
theorem invoke_of_trapped (h : e.Pinned b)
    (hcall : callCode b.code.program e.registers e.memory = none) :
    e.invoke b = ({ e with executions := e.executions + 1 },
      .error (.ofAt .fault (e.loadBias + b.entry) .trapped)) := by
  simp [invoke, h.1, h.2, hcall]

/-- Invoking any other block changes nothing. -/
theorem invoke_of_not_pinned (h : ¬ e.Pinned b) :
    e.invoke b = (e, .error (.ofAt .fault (e.loadBias + b.entry) .otherAddresses)) := by
  unfold invoke
  rw [if_pos (Decidable.not_and_iff_or_not.1 h)]

/-! ## What stays -/

/-- The engine runs the same stream in memory at the same place under the same limit. What it had
cached it still has, and what it has cached since was compiled against such memory. The map and the
index of its cache agree if they did. -/
structure Evolves [Guest.Disassembler] (e e' : Engine) : Prop where
  text : e'.text = e.text
  loadBias : e'.loadBias = e.loadBias
  maxBlocks : e'.maxBlocks = e.maxBlocks
  memory : e.memory.Alike e'.memory
  agrees : e.cache.Agrees → e'.cache.Agrees
  kept : ∀ entry, e'.find? entry = none → e.find? entry = none
  blocks : ∀ entry b', e'.find? entry = some b' →
    (∃ b hits, e.find? entry = some b ∧ b' = { b with hits := hits }) ∨
      (e.find? entry = none ∧ ∃ m, e.memory.Alike m ∧ Made e.text e.loadBias m b')

/-- How a block was made has nothing to do with its hits. -/
theorem Made.setHits {text : List Opcode} {loadBias : Word} {m : Memory}
    (h : Made text loadBias m b) (hits : Nat) : Made text loadBias m { b with hits := hits } :=
  ⟨h.aligned, h.inside, h.line, h.cellsBase, h.memoryBase⟩

namespace Evolves

/-- Changes that leave the cache alone. -/
theorem of_cache (htext : e'.text = e.text) (hbias : e'.loadBias = e.loadBias)
    (hmax : e'.maxBlocks = e.maxBlocks) (hmemory : e.memory.Alike e'.memory)
    (hcache : e'.cache = e.cache) : e.Evolves e' where
  text := htext
  loadBias := hbias
  maxBlocks := hmax
  memory := hmemory
  agrees h := by rwa [hcache]
  kept entry h := by rwa [find?, hcache] at h
  blocks entry b' h := by
    rw [find?, hcache] at h
    exact .inl ⟨b', b'.hits, h, rfl⟩

/-- An engine that is left alone has evolved into itself. -/
theorem refl (e : Engine) : e.Evolves e :=
  of_cache rfl rfl rfl (.refl _) rfl

/-- **Evolutions add up.**

**Proof sketch.** A block that is found at the end was new in the second step or was there before
it, with other hits. In the latter case it was new in the first step or was there from the start.
Memory has stayed at one place throughout, so what a new block was compiled against is such
memory in either case. -/
theorem trans (h : e.Evolves e') (h' : e'.Evolves e'') : e.Evolves e'' where
  text := h'.text.trans h.text
  loadBias := h'.loadBias.trans h.loadBias
  maxBlocks := h'.maxBlocks.trans h.maxBlocks
  memory := h.memory.trans h'.memory
  agrees hagrees := h'.agrees (h.agrees hagrees)
  kept entry hnone := h.kept entry (h'.kept entry hnone)
  blocks entry b'' hfind := by
    obtain ⟨b', hits, hfind', rfl⟩ | ⟨hnone, m, hm, hmade⟩ := h'.blocks entry b'' hfind
    · obtain ⟨b, hits', hfound, rfl⟩ | ⟨hnone, m, hm, hmade⟩ := h.blocks entry b' hfind'
      · exact .inl ⟨b, hits, hfound, rfl⟩
      · exact .inr ⟨hnone, m, hm, hmade.setHits hits⟩
    · rw [h.text, h.loadBias] at hmade
      exact .inr ⟨h.kept entry hnone, m, h.memory.trans hm, hmade⟩

end Evolves

/-- A note in the journal is an evolution. -/
theorem note_evolves (e : Engine) (events : List Event) : e.Evolves (e.note events) :=
  .of_cache rfl rfl rfl (.refl _) rfl

/-- Adding a block is an evolution, if nothing was cached at its entry and it was compiled
against memory as it is. Since the entry is new, the map and the index both gain it
(`Cache.Agrees.add`). -/
theorem addBlock_evolves (hnew : e.find? b.entry = none) (hmade : Made e.text e.loadBias e.memory b)
    (pool : Code.Pool) : e.Evolves (e.addBlock pool b) where
  text := rfl
  loadBias := rfl
  maxBlocks := rfl
  memory := .refl _
  agrees h := h.add hnew
  kept entry hnone := by
    rw [find?_addBlock] at hnone
    split at hnone
    · cases hnone
    · exact hnone
  blocks entry b' hfind := by
    rw [find?_addBlock] at hfind
    split at hfind
    · rename_i hentry
      cases hfind
      rw [← hentry]
      exact .inr ⟨hnew, e.memory, .refl _, hmade⟩
    · exact .inl ⟨b', b'.hits, hfind, rfl⟩

/-- Counting a hit is an evolution: the block that is found afterwards is the one found before,
with one hit more. -/
theorem countHit_evolves (e : Engine) (hit : Word) : e.Evolves (e.countHit hit) where
  text := rfl
  loadBias := rfl
  maxBlocks := rfl
  memory := .refl _
  agrees h := h.update hit Block.hit fun _ => rfl
  kept entry hnone := by
    rw [find?_countHit] at hnone
    exact Option.map_eq_none_iff.1 hnone
  blocks entry b' hfind := by
    rw [find?_countHit] at hfind
    obtain ⟨b, hb, rfl⟩ := Option.map_eq_some_iff.1 hfind
    refine .inl ⟨b, if b.entry = hit then b.hits + 1 else b.hits, hb, ?_⟩
    split <;> rfl

/-- **Compiling** is an evolution, be it refused, failed or successful.

**Proof sketch.** One case for each thing compiling can do (`compile_cases`). A block that is
added was just made against memory as it is, and nothing was found at its entry. -/
theorem compile_evolves [Guest.Disassembler] (e : Engine) (entry : Word) :
    e.Evolves (e.compile entry).1 := by
  cases hfind : e.find? entry with
  | some b =>
    rw [compile, hfind]
    exact .refl e
  | none =>
    obtain ⟨-, hcompile⟩ | ⟨-, events, f, -, hcompile⟩ |
      ⟨-, events, pool, b, rfl, hmade, hcompile⟩ := compile_cases hfind
    · rw [hcompile]
      exact .refl e
    · rw [hcompile]
      exact note_evolves e events
    · rw [hcompile]
      exact (addBlock_evolves hfind hmade pool).trans (note_evolves _ events)

/-- Invoking a block is an evolution, since its code leaves memory where it is. -/
theorem invoke_evolves (e : Engine) (b : Block) : e.Evolves (e.invoke b).1 := by
  unfold invoke
  dsimp only
  split
  · exact .refl e
  · split
    · exact .of_cache rfl rfl rfl (.refl _) rfl
    · rename_i r hcall
      exact .of_cache rfl rfl rfl (callCode_alike hcall) rfl

/-- **Executing** a block. -/
theorem execute_evolves [Guest.Disassembler] (e : Engine) (entry : Word) :
    e.Evolves (e.execute entry).1 := by
  unfold execute
  cases e.find? entry with
  | some b => exact (countHit_evolves e entry).trans (invoke_evolves _ b)
  | none =>
    have hcompile := compile_evolves e entry
    generalize e.compile entry = made at hcompile
    obtain ⟨e', f | b⟩ := made
    · exact hcompile
    · exact hcompile.trans (invoke_evolves e' b)

/-- What executing a block keeps, one more block of a run keeps.

**Proof sketch.** A round that is cancelled, comes to the end of the stream or has no budget
leaves the engine alone; otherwise it executes one block and leaves what that leaves, whatever
the exit. -/
theorem advance_keeps {P : Engine → Prop} (hexecute : ∀ e entry, P e → P (e.execute entry).1)
    (h : P e) (c : Cancellation) (executed : Nat) (offset : Word) :
    P (e.advance c executed offset).1 := by
  unfold advance
  have hdone := hexecute e offset h
  split
  · exact h
  · split
    · exact h
    · split
      · exact h
      · generalize e.execute offset = done at hdone
        obtain ⟨e', f | ⟨exit, param⟩⟩ := done
        · exact hdone
        · cases exit <;> exact hdone

/-- What executing a block keeps, a run keeps. -/
theorem runFrom_keeps {P : Engine → Prop} (hexecute : ∀ e entry, P e → P (e.execute entry).1)
    (h : P e) (c : Cancellation) (fuel executed : Nat) (offset : Word) :
    P (runFrom c fuel e executed offset).1 := by
  induction fuel generalizing e executed offset with
  | zero => exact h
  | succ fuel ih =>
    have hadvance := advance_keeps hexecute h c executed offset
    rw [runFrom]
    generalize e.advance c executed offset = progress at hadvance
    obtain ⟨e', result | next⟩ := progress
    · exact hadvance
    · exact ih hadvance (executed + 1) next

/-- One more block of a run is an evolution, also when the run stops there. -/
theorem advance_evolves [Guest.Disassembler] (e : Engine) (c : Cancellation) (executed : Nat)
    (offset : Word) : e.Evolves (e.advance c executed offset).1 :=
  advance_keeps (fun e' entry h => h.trans (execute_evolves e' entry)) (.refl e) c executed
    offset

/-- **Running**, block by block. -/
theorem runFrom_evolves (c : Cancellation) (fuel : Nat) (e : Engine) (executed : Nat)
    (offset : Word) : e.Evolves (runFrom c fuel e executed offset).1 :=
  runFrom_keeps (fun e' entry h => h.trans (execute_evolves e' entry)) (.refl e) c fuel
    executed offset

/-! ## Calls -/

/-- A fresh engine has nothing cached and nothing counted.

**Proof sketch.** Memory is the one that was passed in, or one created for the stream, which
is all that can fail. -/
theorem create_eq {text : List Opcode} {memory : Option Memory} {loadBias : Option Word}
    {maxBlocks : Int} (h : create text memory loadBias maxBlocks = .ok e) :
    ∃ bias m, e = { text := text, loadBias := bias, memory := m, maxBlocks := maxBlocks } := by
  cases memory with
  | some m =>
    cases h
    exact ⟨_, m, rfl⟩
  | none =>
    rw [create] at h
    cases hmemory : streamMemory (loadBias.getD defaultBase) text with
    | error f =>
      rw [hmemory] at h
      cases h
    | ok m =>
      rw [hmemory] at h
      cases h
      exact ⟨_, m, rfl⟩

/-- What an engine is asked to do, and what the owner of its memory does. -/
inductive Call where
  | compile (entry : Word)
  | execute (entry : Word)
  | run (fuel : Nat) (cancellation : Cancellation) (entry : Word)
  | setRegisters (registers : Registers)
  /-- Makes memory immutable below an address, if the region allows it. -/
  | limit (address : Word)

/-- The engine after a call. -/
def call [Guest.Disassembler] (e : Engine) : Call → Engine
  | .compile entry => (e.compile entry).1
  | .execute entry => (e.execute entry).1
  | .run fuel cancellation entry => (e.run fuel cancellation entry).1
  | .setRegisters registers => e.setRegisters registers
  | .limit address =>
    match e.memory.setImmutableBelow address with
    | .ok m => e.setMemory m
    | .error _ => e

/-- The engine after some calls. -/
def calls [Guest.Disassembler] (e : Engine) (cs : List Call) : Engine :=
  cs.foldl call e

/-- **Every call that sets no limit.** -/
theorem call_evolves (e : Engine) {c : Call} (h : ∀ address, c ≠ .limit address) :
    e.Evolves (e.call c) := by
  cases c with
  | compile entry => exact compile_evolves e entry
  | execute entry => exact execute_evolves e entry
  | run fuel cancellation entry => exact runFrom_evolves cancellation fuel e 0 entry
  | setRegisters registers => exact .of_cache rfl rfl rfl (.refl _) rfl
  | limit address => exact absurd rfl (h address)

/-- Any calls that set no limit. -/
theorem calls_evolves [Guest.Disassembler] (e : Engine) {cs : List Call}
    (h : ∀ c ∈ cs, ∀ address, c ≠ .limit address) : e.Evolves (e.calls cs) := by
  induction cs generalizing e with
  | nil => exact .refl e
  | cons c cs ih =>
    rw [List.forall_mem_cons] at h
    exact (call_evolves e h.1).trans (ih (e.call c) h.2)

end Dynarec.Engine
