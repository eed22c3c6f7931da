import Dynarec.Engine.Cache

/-!
# The engine

An engine runs an instruction stream. It owns the guest registers, guest memory and a cache of
compiled blocks. Running follows branches from block to block until the program halts, faults,
spends its budget or is cancelled, which is looked at before each block.

## Main definitions

* `Dynarec.Engine` — the state of an engine.
* `Dynarec.Engine.create` — a fresh engine, with memory of its own if it is given none.
* `Dynarec.Engine.compile` — the block at an entry, compiled if it is not cached.
* `Dynarec.Engine.execute` — runs the block at an entry.
* `Dynarec.Engine.Cancellation` — when a run is cancelled.
* `Dynarec.Engine.run` — runs from an entry until the program ends.
-/

set_option autoImplicit false

namespace Dynarec

open Engine (Block Cache Stats Event)

/-- The state of an engine. Everything a run can change is in here, so running is a function from
engines to engines; the instruction stream, its address and the budget stay as they were created. -/
structure Engine where
  text : List Opcode
  /-- The guest address of the first instruction. -/
  loadBias : Word
  registers : Registers := .reset
  memory : Memory
  pool : Code.Pool := {}
  /-- The compiled blocks. -/
  cache : Cache := .empty
  compilations : Nat := 0
  executions : Nat := 0
  hits : Nat := 0
  /-- The number of blocks that one run may execute; no limit if not positive. -/
  maxBlocks : Int := 0
  journal : Array Event := #[]

namespace Engine

/-! ## Creation -/

/-- Where the first instruction lies unless something else is asked for. -/
def defaultBase : Word := 0x10000

/-- The bytes of an instruction stream: every word in little endian, one behind the other. -/
def streamBytes (text : List Opcode) : List Byte :=
  text.flatMap fun w => littleEndian 4 w.toNat

/-- Memory that holds a stream at a base, immutable, and one writable page behind it. The stream
is rounded up to whole pages, and the limit on stores is set where the last of them ends. -/
def streamMemory (base : Word) (text : List Opcode) : Except MemoryError Memory := do
  let textSize := roundToPages (text.length * Guest.instructionSize)
  let m ← Memory.create base (textSize + pageSize)
  let m ← m.write base (streamBytes text)
  m.setImmutableBelow (base + BitVec.ofInt 64 textSize)

/-- A fresh engine for a stream. The stream starts at the given address, or else at the start of
the memory given. -/
def create (text : List Opcode) (memory : Option Memory) (loadBias : Option Word)
    (maxBlocks : Int) : Except MemoryError Engine :=
  match memory with
  | some m =>
    .ok { text := text, loadBias := loadBias.getD m.base, memory := m, maxBlocks := maxBlocks }
  | none => do
    let base := loadBias.getD defaultBase
    let m ← streamMemory base text
    .ok { text := text, loadBias := base, memory := m, maxBlocks := maxBlocks }

/-! ## Views -/

/-- The size of the stream in bytes. An offset of this size is the end of the stream, where a run
comes to its end. -/
def streamSize (e : Engine) : Word :=
  BitVec.ofNat 64 (e.text.length * Guest.instructionSize)

/-- The counters. The number of blocks is that of the cache, and the sizes are those of the pages
of finished code. -/
def stats (e : Engine) : Stats where
  blocks := e.cache.size
  compilations := e.compilations
  executions := e.executions
  hits := e.hits
  codeBytes := e.pool.used
  codeMapped := e.pool.mapped

/-- The cached blocks in the order of their entries, as the index has them. -/
def blocks (e : Engine) : List Block :=
  e.cache.blocks

/-- The cached block with an entry, as the map has it. -/
def find? (e : Engine) (entry : Word) : Option Block :=
  e.cache.find? entry

/-- The cached block with the highest entry that covers an offset, as the index has it. Blocks
may overlap, since a line can be entered in its middle. -/
def blockContaining? (e : Engine) (offset : Word) : Option Block :=
  e.cache.containing? offset

/-- Overwrites the guest registers, the program counter and the flags among them. -/
def setRegisters (e : Engine) (r : Registers) : Engine :=
  { e with registers := r }

/-- Replaces guest memory, as its owner may by closing it or moving its limit. -/
def setMemory (e : Engine) (m : Memory) : Engine :=
  { e with memory := m }

/-! ## Compiling -/

/-- Adds events to the journal, behind those that are there. -/
def note (e : Engine) (events : List Event) : Engine :=
  { e with journal := e.journal ++ events.toArray }

/-- The block of a straight line, compiled against the register file and memory as they are now. -/
def blockOf (e : Engine) (entry : Word) (line : Line) (code : Code.Assembled) : Block where
  entry := entry
  stop := entry + BitVec.ofNat 64 (line.count * Guest.instructionSize)
  count := line.count
  code := code
  cellsBase := Cell.hostBase
  memoryBase := e.memory.hostAddress

/-- Whether an offset is the offset of an instruction of the stream: inside it, and a multiple of
the size of an instruction. -/
def isEntry (e : Engine) (entry : Word) : Bool :=
  entry.toNat % Guest.instructionSize = 0 && entry < e.streamSize

/-- The block at an entry, compiled if it is not cached. An entry that is no instruction is
refused before any word is looked at. When anything fails, nothing is cached and no compilation
is counted, but the words that were understood stay in the journal. -/
def compile [Guest.Disassembler] (e : Engine) (entry : Word) : Engine × Except Failure Block :=
  match e.find? entry with
  | some b => (e, .ok b)
  | none =>
    let pc := e.loadBias + entry
    if !e.isEntry entry then (e, .error (.ofAt .fault pc (.entry entry e.text.length)))
    else
      let words := e.text.drop (entry.toNat / Guest.instructionSize)
      let (events, result) := compileLine e.memory words pc {}
      let e := e.note events
      match result with
      | .error f => (e, .error f)
      | .ok line =>
        match (line.withTail.finalize e.pool).2 with
        | .error f => (e, .error (f.attributeTo pc .encoding))
        | .ok (code, pool) =>
          let b := e.blockOf entry line code
          let e :=
            { e with
              cache := e.cache.add b
              pool := pool
              compilations := e.compilations + 1 }
          (e.note [.compiled pc b.count code], .ok b)

/-! ## Executing -/

/-- Counts that the block at an entry was found again, in the block itself and in the counters of
the engine. -/
def countHit (e : Engine) (entry : Word) : Engine :=
  let e := { e with cache := e.cache.update entry Block.hit fun _ => rfl, hits := e.hits + 1 }
  e.note [.found (e.loadBias + entry)]

/-- Runs a block. Blocks compiled against other addresses are refused, and then no execution is
counted. Otherwise registers and memory are what the code left behind. -/
def invoke (e : Engine) (b : Block) : Engine × Except Failure (Exit × Word) :=
  let pc := e.loadBias + b.entry
  if b.cellsBase ≠ Cell.hostBase ∨ b.memoryBase ≠ e.memory.hostAddress then
    (e, .error (.ofAt .fault pc .otherAddresses))
  else
    let e := { e with executions := e.executions + 1 }
    match callCode b.code.program e.registers e.memory with
    | none => (e, .error (.ofAt .fault pc .trapped))
    | some r => ({ e with registers := r.registers, memory := r.memory }, .ok (r.exit, r.param))

/-- Runs the block at an entry, compiled first if it is not cached. For a cached block a hit is
counted before the block is run, whatever comes of that. -/
def execute [Guest.Disassembler] (e : Engine) (entry : Word) :
    Engine × Except Failure (Exit × Word) :=
  match e.find? entry with
  | some b => (e.countHit entry).invoke b
  | none =>
    match e.compile entry with
    | (e, .error f) => (e, .error f)
    | (e, .ok b) => e.invoke b

/-! ## Running -/

/-- The failure of an access outside guest memory, with the range of the block that covers the
program counter, if there is one. The block is looked up now and not remembered from the
execution. -/
def faultAt (e : Engine) (address : Word) : Failure :=
  let pc := e.registers.pc
  let range := (e.blockContaining? (pc - e.loadBias)).map fun b =>
    (e.loadBias + b.entry, e.loadBias + b.stop)
  .ofAt .fault pc (.access address range)

/-- When a run is cancelled. A run looks at this before each block, so it is a function of the
number of blocks executed so far and not one answer for the whole run. -/
structure Cancellation where
  /-- Whether the run is found to be cancelled when it has executed so many blocks. -/
  done : Nat → Bool

namespace Cancellation

/-- A run that is never cancelled, however many blocks it executes. -/
def never : Cancellation :=
  ⟨fun _ => false⟩

/-- A run that is cancelled before it begins, or never. -/
instance : Coe Bool Cancellation :=
  ⟨fun cancelled => ⟨fun _ => cancelled⟩⟩

end Cancellation

/-- How a run stands after one more block: it has come to its result, or goes on at an offset. -/
inductive Progress where
  | finished (result : Except Failure Unit)
  | next (offset : Word)

/-- One more block of a run that has executed some already. Cancellation is looked at first, then
the end of the stream, then the budget. A branch goes on at its distance from the program
counter, which is the address of the last instruction that was run. -/
def advance [Guest.Disassembler] (e : Engine) (c : Cancellation) (executed : Nat) (offset : Word) :
    Engine × Progress :=
  if c.done executed then (e, .finished (.error (.plain .cancelled)))
  else if offset = e.streamSize then (e, .finished (.ok ()))
  else if 0 < e.maxBlocks ∧ e.maxBlocks ≤ executed then
    (e, .finished (.error (.ofAt .budget (e.loadBias + offset) (.budget e.maxBlocks))))
  else
    match e.execute offset with
    | (e, .error f) => (e, .finished (.error f))
    | (e, .ok (.halt, _)) => (e, .finished (.ok ()))
    | (e, .ok (.branch, param)) => (e, .next (e.registers.pc - e.loadBias + param))
    | (e, .ok (.fault, param)) => (e, .finished (.error (e.faultAt param)))
    | (e, .ok (.other n, _)) =>
      (e, .finished (.error (.ofAt .fault e.registers.pc (.exitKind (Exit.other n).name))))

/-- Runs on for at most `fuel` more blocks. There is no result when they were not enough, and the
engine is then the one reached so far. -/
def runFrom [Guest.Disassembler] (c : Cancellation) :
    Nat → Engine → Nat → Word → Engine × Option (Except Failure Unit)
  | 0, e, _, _ => (e, none)
  | fuel + 1, e, executed, offset =>
    match e.advance c executed offset with
    | (e, .finished result) => (e, some result)
    | (e, .next offset) => runFrom c fuel e (executed + 1) offset

/-- Runs from an entry until the program ends, for at most `fuel` blocks. The budget of the
engine is another matter: it ends the run with an error. -/
def run [Guest.Disassembler] (e : Engine) (fuel : Nat) (c : Cancellation) (entry : Word) :
    Engine × Option (Except Failure Unit) :=
  runFrom c fuel e 0 entry

/-! ## Spoiling blocks -/

/-- Makes the cached block at an entry one that was compiled against other addresses, of guest
memory or of the register file. Such a block is refused when it is to be run. -/
def spoil (e : Engine) (entry : Word) (ofMemory : Bool) : Engine :=
  let change (b : Block) : Block :=
    if ofMemory then { b with memoryBase := b.memoryBase + 1 }
    else { b with cellsBase := b.cellsBase + 1 }
  { e with cache := e.cache.update entry change fun _ => by cases ofMemory <;> rfl }

end Engine

end Dynarec
