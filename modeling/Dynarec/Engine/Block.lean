import Dynarec.Lower.Instruction
import Dynarec.Guest.Decode
import Dynarec.Text.Size

/-!
# Compiled blocks

A block is the code of a straight line of guest instructions: from an entry up to the first branch
or return, or to the end of the stream. Before each instruction the code sets the program counter;
behind the last one it leaves the block.

## Main definitions

* `Dynarec.Engine.Block` — a compiled block.
* `Dynarec.Engine.compileLine` — the code of a straight line of words.
* `Dynarec.Engine.callCode` — what happens when finished code is called.
* `Dynarec.Engine.Stats` — counters of the work done.
-/

set_option autoImplicit false

namespace Dynarec.Engine

/-! ## Blocks -/

/-- A compiled block: the finished code of a straight line, and what it was compiled against.
Entry and end are offsets into the instruction stream, not guest addresses, so a block does not
know where the stream lies. The two addresses tell a block whose register file or memory has
since moved, which must not be run. -/
structure Block where
  entry : Word
  /-- The offset behind the last instruction. -/
  stop : Word
  /-- The number of guest instructions. -/
  count : Nat
  code : Code.Assembled
  /-- How often the block was found again. -/
  hits : Nat := 0
  /-- The address of the register file that the code was compiled against. -/
  cellsBase : Word
  /-- The address of guest memory that the code was compiled against. -/
  memoryBase : Word

namespace Block

/-- Whether the block covers an offset: its entry does, and the offset behind its last
instruction does not. -/
def covers (b : Block) (offset : Word) : Bool :=
  b.entry ≤ offset && offset < b.stop

/-- The block found once more. The entry stays, so an index by entries keeps its order. -/
def hit (b : Block) : Block :=
  { b with hits := b.hits + 1 }

/-- One line about a block: its guest addresses, its size and its hits. The addresses are those
of the first instruction and of the place behind the last one. -/
def text (b : Block) (loadBias : Word) : String :=
  "block " ++ Text.hexWord (loadBias + b.entry) ++ "-" ++ Text.hexWord (loadBias + b.stop) ++
    ": " ++ Text.decimal b.count ++ " instructions, " ++ Text.decimal b.hits ++ " hits, " ++
    Text.decimalSize b.code.size

end Block

/-! ## Counters -/

/-- Counters of the work done. A block that is found again adds a hit and no compilation, and
every block that is run adds an execution. -/
structure Stats where
  blocks : Nat := 0
  compilations : Nat := 0
  executions : Nat := 0
  hits : Nat := 0
  codeBytes : Nat := 0
  codeMapped : Nat := 0
  deriving DecidableEq, Repr

/-- One line about the counters. -/
def Stats.text (s : Stats) : String :=
  Text.decimal s.blocks ++ " blocks, " ++ Text.decimal s.compilations ++ " translations, " ++
    Text.decimal s.executions ++ " executions (" ++ Text.decimal s.hits ++ " cache hits), " ++
    Text.decimalSize s.codeBytes ++ " code in " ++ Text.decimalSize s.codeMapped ++ " mapped"

/-! ## Events -/

/-- Something worth a line in a log. Events are data, so compiling can report them without
writing anything itself. -/
inductive Event where
  /-- The word at a guest address was understood. -/
  | decoded (pc : Word) (word : Opcode)
  /-- A block was compiled: its address, the number of its guest instructions, and its code. -/
  | compiled (pc : Word) (count : Nat) (code : Code.Assembled)
  /-- The block at a guest address was found again. -/
  | found (pc : Word)
  deriving DecidableEq, Repr

/-! ## Compiling a straight line -/

/-- The code of a straight line so far. The line is stopped when its last instruction ended it;
otherwise the stream ended first, or the line is not finished. -/
structure Line where
  code : Code.Builder
  count : Nat
  /-- Whether the last instruction ends the line. -/
  stopped : Bool

/-- The actions that compile one instruction at an address. The program counter is stored first,
so that a fault inside the instruction is reported at its own address. -/
def compileOne (memory : Memory) (pc : Word) (inst : Guest.Instruction) : Lower.Emit Unit := do
  Lower.storeCellImm .pc pc
  Lower.instruction pc (some memory) inst

/-- Compiles words from an address on, up to the first that ends the line. Gives the words that
were understood on the way, also when it fails. -/
def compileLine [Guest.Disassembler] (memory : Memory) :
    List Opcode → Word → Code.Builder → List Event × Except Failure Line
  | [], _, code => ([], .ok { code := code, count := 0, stopped := false })
  | word :: rest, pc, code =>
    match Guest.decodeAccepted word with
    | none => ([], .error (.ofAt .decode pc (.rejected word)))
    | some inst =>
      match (compileOne memory pc inst).runOn { code := code } with
      | (.error f, _) => ([.decoded pc word], .error (f.attributeTo pc .encoding))
      | (.ok (), e) =>
        if e.goesOn then
          let (events, result) :=
            compileLine memory rest (pc + BitVec.ofNat 64 Guest.instructionSize) e.code
          (.decoded pc word :: events, result.map fun line => { line with count := line.count + 1 })
        else ([.decoded pc word], .ok { code := e.code, count := 1, stopped := true })

/-- The code of a straight line with the exit behind it: on to the next instruction if the line
was ended by an instruction, and out of the stream otherwise. -/
def Line.withTail (line : Line) : Code.Builder :=
  let tail :=
    if line.stopped then Lower.exit .branch (BitVec.ofNat 64 Guest.instructionSize)
    else Lower.exit .halt 0
  (tail.runOn { code := line.code }).2.code

/-! ## Calling code -/

/-- The host state in which code is called. Registers and flags start out cleared; code may not
rely on any of them. -/
def entryState (registers : Registers) (memory : Memory) : Host.State where
  regs := Vector.replicate 16 0
  flags := {}
  cells := registers
  memory := memory

/-- What finished code left behind when it returned: the kind of exit and its parameter, which
are handed over in two host registers, the cells of the register file, and guest memory. -/
structure Returned where
  exit : Exit
  param : Word
  registers : Registers
  memory : Memory

/-- Calls finished code. There is no result when the code never returns properly: when it traps,
or runs past its end. -/
def callCode (program : Host.Program) (registers : Registers) (memory : Memory) :
    Option Returned :=
  match program.run (entryState registers memory) with
  | .returned s =>
    some
      { exit := .ofNumber (s.reg .rax)
        param := s.reg .rdx
        registers := s.cells
        memory := s.memory }
  | _ => none

end Dynarec.Engine
