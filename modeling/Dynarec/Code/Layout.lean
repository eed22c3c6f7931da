import Dynarec.Failure
import Dynarec.Host.Machine
import Dynarec.Host.Scan.Length

/-!
# Layout of code

Code is laid out from chunks: instructions with their bytes, and branches to the start of a chunk.
A branch has a short form for near targets and a long form. All branches start short; those that do
not reach are widened together, which moves code apart, until all reach.

## Main definitions

* `Dynarec.Code.Chunk` — an instruction with its bytes, or a branch.
* `Dynarec.Code.start` — the offset at which a chunk starts.
* `Dynarec.Code.displacement` — the distance from the end of a branch to its target.
* `Dynarec.Code.relax` — widening until all branches reach.
* `Dynarec.Code.Assembled`, `Dynarec.Code.assemble` — the finished code.
-/

set_option autoImplicit false

namespace Dynarec.Code

/-! ## Chunks -/

/-- A piece of code with a known length: an instruction with its bytes, or a branch to the start
of a chunk, in its short or its long form. -/
inductive Chunk where
  | inst (i : Host.Inst) (bytes : List Byte)
  | branch (cond : Host.Cond) (target : Nat) (wide : Bool)
  deriving DecidableEq, Repr

namespace Chunk

/-- The length of a chunk in bytes. That of a branch depends on its form, not on its distance. -/
def size : Chunk → Nat
  | inst _ bytes => bytes.length
  | branch cond _ wide => Host.Jump.size cond wide

/-- What a chunk does. The two forms of a branch do the same. -/
def step : Chunk → Host.Step
  | inst i _ => .inst i
  | branch cond target _ => .jump cond target

end Chunk

/-- The offset at which a chunk starts: the lengths of the chunks in front of it. For the
position past the last one it is the length of the code. -/
def start (chunks : List Chunk) (k : Nat) : Nat :=
  (chunks.take k).foldr (fun c n => c.size + n) 0

/-- The distance to the start of the target from the end of the branch at position `i`, as the
host counts it. It depends on the forms of all branches in between. -/
def displacement (chunks : List Chunk) (i target : Nat) : Int :=
  (start chunks target : Int) - start chunks (i + 1)

/-! ## Widening -/

/-- The chunk at position `i`, widened if it is a short branch that does not reach. A long branch
stays long. -/
def widenAt (chunks : List Chunk) (i : Nat) : Chunk → Chunk
  | .branch cond target false =>
    .branch cond target (!fitsInt8 (displacement chunks i target))
  | chunk => chunk

/-- All short branches that do not reach, widened together: each is judged by the layout as it
was before. -/
def widen (chunks : List Chunk) : List Chunk :=
  chunks.mapIdx (widenAt chunks)

/-- Widens until nothing changes, at most `rounds` times. -/
def relax : Nat → List Chunk → List Chunk
  | 0, chunks => chunks
  | rounds + 1, chunks =>
    if widen chunks = chunks then chunks else relax rounds (widen chunks)

/-! ## Bytes -/

/-- The bytes of the chunk at position `i`. A branch gets its displacement from the layout of all
chunks, which must fit into 32 bits. -/
def chunkBytes (chunks : List Chunk) (i : Nat) : Chunk → Except Failure (List Byte)
  | .inst _ bytes => .ok bytes
  | .branch cond target wide =>
    let distance := displacement chunks i target
    if !fitsInt32 distance then .error (.of .encoding (.branchRange distance))
    else
      match Host.Jump.encode { cond := cond, rel := BitVec.ofInt 32 distance, wide := wide } with
      | .ok bytes => .ok bytes
      | .error e => .error (.wrap (.located .encoding 0 .hostBranch) (.plain (.encode e)))

/-- The bytes of the chunks from position `i` on, one behind the other, or the failure of the
first branch that does not reach. -/
def bytesFrom (chunks : List Chunk) : Nat → List Chunk → Except Failure (List Byte)
  | _, [] => .ok []
  | i, chunk :: rest => do
    let bytes ← chunkBytes chunks i chunk
    let more ← bytesFrom chunks (i + 1) rest
    .ok (bytes ++ more)

/-- Finished code: its chunks, for what it does, and its bytes, for how it is written down. -/
structure Assembled where
  chunks : List Chunk
  bytes : List Byte
  deriving DecidableEq, Repr

namespace Assembled

/-- The length of the code in bytes. -/
def size (a : Assembled) : Nat :=
  a.bytes.length

/-- What the code does, chunk by chunk. A branch leads to a position, so the bytes do not matter
for it. -/
def program (a : Assembled) : Host.Program :=
  a.chunks.map Chunk.step

/-- The offset of every host instruction, as the bytes show it and not as the chunks say. -/
def offsets (a : Assembled) : List Nat :=
  (Host.Scan.lines a.bytes).map Prod.fst

/-- One line for every host instruction: its offset and its bytes. -/
def listing (a : Assembled) : List String :=
  (Host.Scan.lines a.bytes).map fun line => Text.hex line.1 ++ ": " ++ Text.hexBytes line.2

end Assembled

/-- Lays chunks out. Every changing round widens a branch, so as many rounds as there are chunks
are enough. -/
def assemble (chunks : List Chunk) : Except Failure Assembled := do
  let final := relax chunks.length chunks
  let bytes ← bytesFrom final 0 final
  .ok { chunks := final, bytes := bytes }

end Dynarec.Code
