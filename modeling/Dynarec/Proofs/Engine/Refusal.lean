import Dynarec.Proofs.Engine.Blocks
import Dynarec.Proofs.Engine.Execution

/-!
# Executions that fail

An execution that fails leaves registers and memory as they are. Where no block was cached, it
leaves the cache and the counters as they are, too. A cached block is refused if memory has been
closed since it was compiled; it counts as found again all the same, though it is not executed.

## Main definitions

* `Dynarec.Engine.Unchanged` — registers, memory, blocks and counters are the same.
* `Dynarec.Engine.Stale` — memory has been closed since a block was compiled.
* `Dynarec.Engine.Act`, `Dynarec.Engine.act` — what an engine is asked to do, and what the owner of
  its memory does.
* `Dynarec.Engine.Steady` — no cached block would be refused.
* `Dynarec.Engine.Balanced` — only stale blocks are refused, and without them hits are executions.

## Main results

* `Dynarec.Engine.execute_error_cases` — what an execution that fails leaves.
* `Dynarec.Engine.Balanced.act` — what every act keeps.
* `Dynarec.Engine.execute_error_leaves` — executions that fail, after any acts.
-/

set_option autoImplicit false

namespace Dynarec.Engine

variable {dis : Guest.Disassembler} {e e' : Engine} {b : Block} {entry : Word} {f : Failure}

/-! ## What is left -/

/-- Registers, memory, the cached blocks with their hits and all counters are the same. -/
structure Unchanged (e e' : Engine) : Prop where
  registers : e'.registers = e.registers
  memory : e'.memory = e.memory
  blocks : e'.blocks = e.blocks
  stats : e'.stats = e.stats

/-- Counting a hit adds one to the hits and leaves the other statistics alone. The number of
blocks is read from the map, where a hit replaces an entry by one of the same key. -/
theorem stats_countHit (e : Engine) (entry : Word) :
    (e.countHit entry).stats = { e.stats with hits := e.stats.hits + 1 } := by
  have hsize : (e.countHit entry).cache.size = e.cache.size :=
    e.cache.size_update entry Block.hit fun _ => rfl
  rw [stats, hsize]
  rfl

/-- **What an execution that fails leaves**, unless its code was trapped: either nothing was cached
at the entry and nothing has changed, or the block there was refused after its hit was counted. -/
theorem execute_error_cases (h : e.execute entry = (e', .error f))
    (hf : f ≠ .ofAt .fault (e.loadBias + entry) .trapped) :
    (e.find? entry = none ∧ e.Unchanged e') ∨
      ∃ b, e.find? entry = some b ∧ ¬ e.Pinned b ∧
        f = .ofAt .fault (e.loadBias + entry) .otherAddresses ∧ e' = e.countHit entry := by
  have hcases := execution e entry
  rw [h] at hcases
  cases hcases with
  | outside hnew => exact .inl ⟨hnew, rfl, rfl, rfl, rfl⟩
  | fails hnew => exact .inl ⟨hnew, rfl, rfl, rfl, rfl⟩
  | refused hfind hother => exact .inr ⟨_, hfind, hother, rfl, rfl⟩
  | trapped => exact absurd rfl hf

/-! ## Stale blocks -/

/-- The block was compiled while memory was open, and memory is closed. -/
def Stale (e : Engine) (b : Block) : Prop :=
  b.cellsBase = Cell.hostBase ∧ b.memoryBase = Memory.hostBase ∧ e.memory.bytes.size = 0

/-- A stale block is refused: its code has the address of open memory in it, and closed memory
has none. -/
theorem Stale.not_pinned (h : e.Stale b) : ¬ e.Pinned b := by
  intro hpinned
  have hbase := hpinned.2
  rw [h.2.1, Memory.hostAddress, if_pos h.2.2] at hbase
  exact absurd hbase (by decide)

/-- Closing memory leaves a stale block stale. -/
theorem Stale.close (h : e.Stale b) : (e.setMemory e.memory.close).Stale b :=
  ⟨h.1, h.2.1, rfl⟩

/-- Staleness has nothing to do with the hits of a block. -/
theorem Stale.setHits (h : e.Stale b) (hits : Nat) : e.Stale { b with hits := hits } := h

/-- Whether a block is refused has nothing to do with its hits. -/
theorem Pinned.setHits (h : e.Pinned b) (hits : Nat) : e.Pinned { b with hits := hits } := h

/-- A stale block is refused, and its hit is counted. -/
theorem execute_of_stale (hfind : e.find? entry = some b) (h : e.Stale b) :
    e.execute entry =
      (e.countHit entry, .error (.ofAt .fault (e.loadBias + entry) .otherAddresses)) := by
  have hrefused : ¬ (e.countHit entry).Pinned b := h.not_pinned
  rw [execute, hfind]
  simp only [invoke_of_not_pinned hrefused, entry_of_find? hfind]
  rfl

/-- A block stays stale when it is refused. -/
theorem find?_countHit_stale (hfind : e.find? entry = some b) (h : e.Stale b) :
    ∃ b', (e.countHit entry).find? entry = some b' ∧ (e.countHit entry).Stale b' := by
  refine ⟨{ b with hits := b.hits + 1 }, ?_, h.setHits _⟩
  rw [find?_countHit, hfind, Option.map_some, if_pos (entry_of_find? hfind)]

/-! ## Acts -/

/-- What an engine is asked to do, and what the owner of its memory does. -/
inductive Act where
  | call (c : Call)
  /-- Replaces bytes of memory, if the region contains them. -/
  | write (address : Word) (data : List Byte)
  /-- Closes memory. -/
  | close

/-- The engine after an act. -/
def act [Guest.Disassembler] (e : Engine) : Act → Engine
  | .call c => e.call c
  | .write address data =>
    match e.memory.write address data with
    | .ok m => e.setMemory m
    | .error _ => e
  | .close => e.setMemory e.memory.close

/-- The engine after some acts. -/
def acts [Guest.Disassembler] (e : Engine) (as : List Act) : Engine :=
  as.foldl act e

/-- Writing memory from outside is an evolution: the cache, the registers and the counters stay,
and memory stays where it is with its limit. -/
theorem write_evolves [Guest.Disassembler] (e : Engine) (address : Word) (data : List Byte) :
    e.Evolves (e.act (.write address data)) := by
  rw [act]
  split
  · rename_i m hm
    rcases Memory.write_eq_ok_iff.1 hm with ⟨-, rfl⟩
    exact .of_cache rfl rfl rfl (.setBytesAt _ _ _) rfl
  · exact .refl e

/-- **Every act** keeps the map and the index of the cache in agreement: those that are no calls
leave the cache alone, and so does a limit. -/
theorem act_agrees [Guest.Disassembler] (h : e.cache.Agrees) (a : Act) :
    (e.act a).cache.Agrees := by
  cases a with
  | call c =>
    cases c with
    | limit address =>
      rw [act, call]
      split <;> exact h
    | compile | execute | run | setRegisters => exact (call_evolves e (by simp)).agrees h
  | write address data => exact (write_evolves e address data).agrees h
  | close => exact h

/-- Map and index agree after any acts. -/
theorem acts_agrees [Guest.Disassembler] (h : e.cache.Agrees) (as : List Act) :
    (e.acts as).cache.Agrees := by
  induction as generalizing e with
  | nil => exact h
  | cons a as ih => exact ih (act_agrees h a)

/-- No cached block would be refused. -/
def Steady (e : Engine) : Prop :=
  ∀ entry b, e.find? entry = some b → e.Pinned b

/-- Every cached block that would be refused is stale, and while there is none, every hit is an
execution. -/
structure Balanced (e : Engine) : Prop where
  blocks : ∀ entry b, e.find? entry = some b → e.Pinned b ∨ e.Stale b
  hits : e.Steady → e.hits ≤ e.executions

/-- Whether a block is refused depends on the place of memory, not on its bytes. -/
theorem Pinned.alike (h : e.Pinned b) (hmemory : e.memory.Alike e'.memory) : e'.Pinned b :=
  ⟨h.1, h.2.trans hmemory.hostAddress.symm⟩

/-- Whether a block is stale depends on memory being closed, not on its bytes. -/
theorem Stale.alike (h : e.Stale b) (hmemory : e.memory.Alike e'.memory) : e'.Stale b :=
  ⟨h.1, h.2.1, hmemory.size.trans h.2.2⟩

/-- No block would have been refused before if none would be refused afterwards.

**Proof sketch.** A block that was found before is still found, with other hits. It is pinned
afterwards, and so it was before, for memory has stayed where it was. -/
theorem Steady.of_evolves (hev : e.Evolves e') (h : e'.Steady) : e.Steady := by
  intro entry b hfind
  cases hfind' : e'.find? entry with
  | none =>
    rw [hev.kept entry hfind'] at hfind
    cases hfind
  | some b' =>
    have hpinned := (h entry b' hfind').alike hev.memory.symm
    obtain ⟨b₀, hits, hfound, rfl⟩ | ⟨hnone, -⟩ := hev.blocks entry b' hfind'
    · rw [hfind] at hfound
      cases hfound
      exact hpinned
    · rw [hnone] at hfind
      cases hfind

/-- Blocks that were compiled against memory where it is are not refused. -/
theorem Stocked.steady (h : e.Stocked) : e.Steady := by
  intro entry b hfind
  obtain ⟨m, w, hm, hmade⟩ := h entry b hfind
  exact hmade.pinned hm.hostAddress.symm

/-- Engines stay stocked until memory is closed. -/
theorem Stocked.acts (h : e.Stocked) {as : List Act} (hopen : .close ∉ as) :
    (e.acts as).Stocked := by
  induction as generalizing e with
  | nil => exact h
  | cons a as ih =>
    rw [List.mem_cons, not_or] at hopen
    refine ih ?_ hopen.2
    cases a with
    | call c => exact h.call c
    | write address data => exact h.evolves (write_evolves e address data)
    | close => exact absurd rfl hopen.1

namespace Balanced

/-- **Whatever keeps memory in its place** keeps an engine balanced, if it counts no hit of a pinned
block without executing it.

**Proof sketch.** A block that was there before has at most other hits, and is pinned or stale as
before because memory is where it was; a new one was made against memory where it is. If no block
would be refused afterwards, none would have been refused before (`Steady.of_evolves`), so the
counters were in order before and are so afterwards. -/
theorem evolves (h : e.Balanced) (hev : e.Evolves e')
    (hcounts : e.Steady → e.hits ≤ e.executions → e'.hits ≤ e'.executions) : e'.Balanced where
  blocks entry b' hfind := by
    obtain ⟨b, hits, hfound, rfl⟩ | ⟨-, m, hm, hmade⟩ := hev.blocks entry b' hfind
    · obtain hpinned | hstale := h.blocks entry b hfound
      · exact .inl ((hpinned.setHits hits).alike hev.memory)
      · exact .inr ((hstale.setHits hits).alike hev.memory)
    · refine .inl ⟨hmade.cellsBase, ?_⟩
      rw [hmade.memoryBase, hm.hostAddress, hev.memory.hostAddress]
  hits hsteady := by
    have hbefore : e.Steady := .of_evolves hev hsteady
    exact hcounts hbefore (h.hits hbefore)

/-- Compiling keeps an engine balanced: it counts neither a hit nor an execution, and a new block
is pinned to memory where it is. -/
theorem compile (h : e.Balanced) (entry : Word) : (e.compile entry).1.Balanced := by
  refine h.evolves (compile_evolves e entry) fun _ hle => ?_
  cases hfind : e.find? entry with
  | some b =>
    rw [Engine.compile, hfind]
    exact hle
  | none =>
    obtain ⟨-, hcompile⟩ | ⟨-, events, f, -, hcompile⟩ |
      ⟨-, events, pool, b, -, -, hcompile⟩ := compile_cases hfind <;> rw [hcompile] <;> exact hle

/-- Executing counts a hit only together with an execution, unless the block is refused.

**Proof sketch.** A block that is at hand was found, and then a hit and an execution are
counted, or it was compiled, and then an execution only. A block that would be refused is
excluded while the engine is steady. -/
theorem execute (h : e.Balanced) (entry : Word) : (e.execute entry).1.Balanced := by
  refine h.evolves (execute_evolves e entry) fun hsteady hle => ?_
  have hcases := execution e entry
  generalize e.execute entry = result at hcases
  have hfetched : ∀ {e₁ b}, Fetched e entry e₁ b → e₁.hits ≤ e₁.executions + 1 := by
    intro e₁ b hfetched
    cases hfetched with
    | cached => exact Nat.succ_le_succ hle
    | compiled => exact Nat.le_succ_of_le hle
  cases hcases with
  | outside | fails => exact hle
  | refused hfind hother => exact absurd (hsteady entry _ hfind) hother
  | trapped hat | leaves hat => exact hfetched hat

/-- Every call keeps an engine balanced.

**Proof sketch.** Runs are executions one after the other. Setting the registers or the limit
touches neither the blocks nor the counters, and leaves memory where it is. -/
theorem call (h : e.Balanced) (c : Call) : (e.call c).Balanced := by
  cases c with
  | compile entry => exact h.compile entry
  | execute entry => exact h.execute entry
  | run fuel cancellation entry =>
    exact runFrom_keeps (fun _ entry h => h.execute entry) h cancellation fuel 0 entry
  | setRegisters registers => exact ⟨h.blocks, h.hits⟩
  | limit address =>
    rw [Engine.call]
    split
    · rename_i m hm
      unfold Memory.setImmutableBelow at hm
      split at hm
      · cases hm
      · cases hm
        exact ⟨h.blocks, h.hits⟩
    · exact h

/-- Blocks that were compiled against open memory become stale when memory is closed.

**Proof sketch.** A block that is pinned to open memory is stale once it is closed, and one
that is pinned to closed memory is pinned still. If all are pinned after closing, they were
pinned before, so the counters were in order. -/
theorem close (h : e.Balanced) : (e.setMemory e.memory.close).Balanced where
  blocks entry b hfind := by
    obtain ⟨hcells, hbase⟩ | hstale := h.blocks entry b hfind
    · by_cases hclosed : e.memory.bytes.size = 0
      · refine .inl ⟨hcells, ?_⟩
        rw [hbase, Memory.hostAddress, if_pos hclosed]
        rfl
      · refine .inr ⟨hcells, ?_, rfl⟩
        rw [hbase, Memory.hostAddress, if_neg hclosed]
    · exact .inr hstale.close
  hits hsteady := by
    refine h.hits fun entry b hfind => ?_
    obtain hpinned | hstale := h.blocks entry b hfind
    · exact hpinned
    · exact absurd (hsteady entry b hfind) hstale.close.not_pinned

/-- **Every act** keeps an engine balanced. -/
theorem act (h : e.Balanced) (a : Act) : (e.act a).Balanced := by
  cases a with
  | call c => exact h.call c
  | write address data =>
    refine h.evolves (write_evolves e address data) fun _ hle => ?_
    rw [Engine.act]
    split <;> exact hle
  | close => exact h.close

/-- Any acts keep an engine balanced. -/
theorem acts (h : e.Balanced) (as : List Act) : (e.acts as).Balanced := by
  induction as generalizing e with
  | nil => exact h
  | cons a as ih => exact ih (h.act a)

end Balanced

/-- A new engine is balanced: it has no blocks, and has counted nothing. -/
theorem create_balanced {text : List Opcode} {memory : Option Memory} {loadBias : Option Word}
    {maxBlocks : Int} (h : create text memory loadBias maxBlocks = .ok e) : e.Balanced := by
  obtain ⟨bias, m, rfl⟩ := create_eq h
  refine ⟨fun entry b hfind => ?_, fun _ => Nat.le_refl 0⟩
  cases hfind

/-- In a new engine map and index agree: both are empty. -/
theorem create_agrees {text : List Opcode} {memory : Option Memory} {loadBias : Option Word}
    {maxBlocks : Int} (h : create text memory loadBias maxBlocks = .ok e) : e.cache.Agrees := by
  obtain ⟨bias, m, rfl⟩ := create_eq h
  exact Cache.agrees_empty

/-! ## From creation on -/

/-- **Executing a stale block over and over** counts hits and does nothing else.

**Proof sketch.** By induction on the number of executions: a refused block stays stale, since
its hit is all that changes (`find?_countHit_stale`). -/
theorem acts_of_stale (hfind : e.find? entry = some b) (h : e.Stale b) (n : Nat) :
    let e' := e.acts (List.replicate n (.call (.execute entry)))
    e'.registers = e.registers ∧ e'.memory = e.memory ∧
      e'.stats = { e.stats with hits := e.stats.hits + n } := by
  induction n generalizing e b with
  | zero => exact ⟨rfl, rfl, rfl⟩
  | succ n ih =>
    have hstep : e.acts (List.replicate (n + 1) (.call (.execute entry))) =
        (e.countHit entry).acts (List.replicate n (.call (.execute entry))) := by
      show (e.execute entry).1.acts _ = _
      rw [execute_of_stale hfind h]
    obtain ⟨b', hfind', hstale⟩ := find?_countHit_stale hfind h
    obtain ⟨hregisters, hmemory, hstats⟩ := ih hfind' hstale
    rw [hstep]
    refine ⟨hregisters, hmemory, ?_⟩
    rw [hstats, stats_countHit, Nat.add_right_comm]
    rfl

/-- **Executions that fail.** Let an engine be created, and let it and its memory be used in any
way. An execution that fails leaves registers and memory alone; a trap, which ends the host, is no
such failure. It leaves the blocks with their hits and all counters alone exactly if no block was
cached at the entry. A cached block is refused only if memory was open when it was compiled and has
been closed since; then a hit is counted, for the block and for the engine, and nothing else
changes. While there is no such block, hits do not exceed executions. Executing one `n` times counts
`n` hits and no execution.

**Proof sketch.** The engine is balanced after any acts, and map and index agree
(`Balanced.acts`, `acts_agrees`). An execution that fails found nothing and changed nothing, or
refused a block after counting its hit (`execute_error_cases`). A balanced engine refuses stale
blocks only, and without them counts no hit that is no execution. Until memory is closed there
are none, since blocks are pinned to memory where it is (`Stocked.steady`). -/
theorem execute_error_leaves [Guest.Disassembler] (text : List Opcode) (memory : Option Memory)
    (loadBias : Option Word) (maxBlocks : Int) (start : Engine)
    (hstart : create text memory loadBias maxBlocks = .ok start) (as : List Act) :
    let e := start.acts as
    (∀ entry e' f, e.execute entry = (e', .error f) →
      f ≠ .ofAt .fault (e.loadBias + entry) .trapped →
        e'.registers = e.registers ∧ e'.memory = e.memory ∧
        (e.Unchanged e' ↔ e.find? entry = none) ∧
        ∀ b, e.find? entry = some b → e.Stale b ∧
          f = .ofAt .fault (e.loadBias + entry) .otherAddresses ∧
          e'.blocks = e.blocks.map (Block.hitAt entry) ∧
          e'.stats = { e.stats with hits := e.stats.hits + 1 }) ∧
    (.close ∉ as → ∀ entry b, e.find? entry = some b → ¬ e.Stale b) ∧
    ((∀ entry b, e.find? entry = some b → ¬ e.Stale b) → e.stats.hits ≤ e.stats.executions) ∧
    ∀ entry b, e.find? entry = some b → e.Stale b → ∀ n,
      let e' := e.acts (List.replicate n (.call (.execute entry)))
      e'.registers = e.registers ∧ e'.memory = e.memory ∧
        e'.stats = { e.stats with hits := e.stats.hits + n } := by
  intro e
  have h : e.Balanced := (create_balanced hstart).acts as
  have hagrees : e.cache.Agrees := acts_agrees (create_agrees hstart) as
  refine ⟨fun entry e' f hexecute hf => ?_, fun hopen entry b hfind hstale => ?_, fun hnone => ?_,
    fun entry b hfind hstale => acts_of_stale hfind hstale⟩
  · obtain ⟨hnew, hsame⟩ | ⟨b, hfind, hother, hrefused, rfl⟩ := execute_error_cases hexecute hf
    · refine ⟨hsame.registers, hsame.memory, iff_of_true hsame hnew, fun b hfind => ?_⟩
      rw [hnew] at hfind
      cases hfind
    · refine ⟨rfl, rfl, iff_of_false ?_ (by simp [hfind]), fun c hc => ?_⟩
      · intro hsame
        have hhits := congrArg Stats.hits hsame.stats
        rw [stats_countHit] at hhits
        exact absurd hhits (Nat.succ_ne_self _)
      · rw [hfind] at hc
        cases hc
        exact ⟨(h.blocks entry b hfind).resolve_left hother, hrefused,
          hagrees.blocks_update entry Block.hit fun _ => rfl, stats_countHit e entry⟩
  · exact hstale.not_pinned (((create_stocked hstart).acts hopen).steady entry b hfind)
  · exact h.hits fun entry b hfind => (h.blocks entry b hfind).resolve_right (hnone entry b hfind)

/-- A block is compiled, memory is closed, and the block is refused: a hit, and no execution. -/
theorem execute_error_counts_hit :
    let _ : Guest.Disassembler := .least
    let text : List Opcode := [0xd65f03c0]
    let start : Engine := { text := text, loadBias := 0x40000, memory := .page 0x40000 }
    let e := start.acts [.call (.compile 0), .close]
    create text (some (.page 0x40000)) none 0 = .ok start ∧
      (e.execute 0).2 = .error (.ofAt .fault 0x40000 .otherAddresses) ∧
      (e.execute 0).1.registers = e.registers ∧ (e.execute 0).1.memory = e.memory ∧
      ¬ e.Unchanged (e.execute 0).1 ∧ e.stats.hits = 0 ∧ (e.execute 0).1.stats.hits = 1 ∧
      (e.execute 0).1.stats.executions = 0 := by
  intro _ text start e
  have hstart : create text (some (.page 0x40000)) none 0 = .ok start := rfl
  have hresult : (e.execute 0).2 = .error (.ofAt .fault 0x40000 .otherAddresses) := by
    decide +kernel
  have hcached : (e.find? 0).isSome = true := by decide +kernel
  have hcounts : e.stats.hits = 0 ∧ e.stats.executions = 0 := by decide +kernel
  have hleaves := (execute_error_leaves text (some (.page 0x40000)) none 0 start hstart
    [.call (.compile 0), .close]).1
  rw [show start.acts [.call (.compile 0), .close] = e from rfl] at hleaves
  clear_value e
  have hexecute : e.execute 0 =
      ((e.execute 0).1, .error (.ofAt .fault 0x40000 .otherAddresses)) := Prod.ext rfl hresult
  obtain ⟨b, hfind⟩ := Option.isSome_iff_exists.1 hcached
  obtain ⟨hregisters, hmemory, hunchanged, hblock⟩ :=
    hleaves 0 _ _ hexecute (by simp [Failure.ofAt])
  obtain ⟨-, -, -, hstats⟩ := hblock b hfind
  refine ⟨hstart, hresult, hregisters, hmemory, ?_, hcounts.1, ?_, ?_⟩
  · rw [hunchanged, hfind]
    simp
  · rw [hstats, hcounts.1]
  · rw [hstats, hcounts.2]

end Dynarec.Engine
