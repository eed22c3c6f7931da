import Dynarec.Code.Layout

/-!
# Building code with labels

A builder collects instructions and branches to labels. A label can be branched to before it is
bound; binding it makes it stand for the next item added, or for the end of the code. Misuse of
labels is remembered and reported when the code is assembled.

## Main definitions

* `Dynarec.Code.Builder` — the items and labels so far.
* `Dynarec.Code.Builder.createLabel`, `bind`, `add`, `addLabelled`, `branch` — building.
* `Dynarec.Code.Builder.assemble` — the finished code.
* `Dynarec.Code.Pool`, `Dynarec.Code.Builder.finalize` — placing finished code in pages.
-/

set_option autoImplicit false

namespace Dynarec.Code

/-! ## Items -/

/-- What a builder collects: an instruction, or a branch to a label. Bytes come later, when the
distances are known. -/
inductive Item where
  | inst (i : Host.Inst)
  | branch (cond : Host.Cond) (label : Nat)
  deriving DecidableEq, Repr

/-- The items and labels of code under construction. Misuse does not stop the building: the first
one is remembered, and is what assembling reports. -/
structure Builder where
  items : Array Item := #[]
  /-- The position each label created so far is bound to. -/
  labels : Array (Option Nat) := #[]
  /-- The first misuse. -/
  failure : Option Failure := none
  finalized : Bool := false

namespace Builder

/-- The number of items added so far, which is the position of the next one. -/
def length (b : Builder) : Nat :=
  b.items.size

/-- The position a label is bound to, if the label was created and bound. -/
def position? (b : Builder) (label : Nat) : Option Nat :=
  (b.labels[label]?).join

/-- Remembers a misuse unless there already was one: the first misuse is the one reported. -/
def fail (b : Builder) (reason : Reason) : Builder :=
  { b with failure := some (b.failure.getD (.of .encoding reason)) }

/-- A fresh label, not bound to anything yet. Labels are numbered in the order they are created. -/
def createLabel (b : Builder) : Builder × Nat :=
  ({ b with labels := b.labels.push none }, b.labels.size)

/-- Binds a label to the next item, or to the end of the code if there is none. Binding a label
twice is a misuse, and so is binding one that was not created. -/
def bind (b : Builder) (label : Nat) : Builder :=
  if (b.position? label).isSome then b.fail (.labelBoundTwice label)
  else if b.labels.size ≤ label then b.fail (.labelUnknown label)
  else { b with labels := b.labels.setIfInBounds label (some b.length) }

/-- Adds an instruction. Whether it has an encoding is found out when the code is assembled. -/
def add (b : Builder) (i : Host.Inst) : Builder :=
  { b with items := b.items.push (.inst i) }

/-- Adds an instruction and binds a label to it, in one step. -/
def addLabelled (b : Builder) (i : Host.Inst) (label : Nat) : Builder :=
  (b.bind label).add i

/-- Adds a branch to a label, taken when the condition holds. The label need not be bound yet,
but the condition must be one of the sixteen or the one that always holds. -/
def branch (b : Builder) (cond : Host.Cond) (label : Nat) : Builder :=
  if Host.Cond.always.code < cond.code then b.fail (.branchCondition cond)
  else { b with items := b.items.push (.branch cond label) }

/-! ## Assembling -/

/-- The chunk of the item at position `i`: an instruction with its bytes, or a short branch to
the position of its label. An instruction without an encoding fails, and so does a branch to a
label that is not bound. -/
def resolve (b : Builder) (i : Nat) : Item → Except Failure Chunk
  | .inst inst =>
    match inst.encode with
    | .ok bytes => .ok (.inst inst bytes)
    | .error e => .error (.wrap (.located .encoding 0 .hostInstruction) (.plain (.encode e)))
  | .branch cond label =>
    match b.position? label with
    | some target => .ok (.branch cond target false)
    | none => .error (.of .encoding (.labelUnbound i label))

/-- The chunks of the items from position `i` on, or the failure of the first item that has none. -/
def resolveFrom (b : Builder) : Nat → List Item → Except Failure (List Chunk)
  | _, [] => .ok []
  | i, item :: rest => do
    let chunk ← b.resolve i item
    let more ← b.resolveFrom (i + 1) rest
    .ok (chunk :: more)

/-- Lays the code out. A misuse that was remembered comes before any failure of an item. -/
def assemble (b : Builder) : Except Failure Assembled :=
  match b.failure with
  | some f => .error f
  | none => do
    let chunks ← b.resolveFrom 0 b.items.toList
    Code.assemble chunks

end Builder

/-! ## Pages of finished code -/

/-- Counters of the pages that hold finished code: the bytes of code, and the bytes of the pages.
Every piece of code has its own pages. -/
structure Pool where
  used : Nat := 0
  mapped : Nat := 0
  deriving DecidableEq, Repr

namespace Pool

/-- The bytes of the pages that hold code of a length, rounded up to whole pages. -/
def pagesFor (length : Nat) : Nat :=
  (length + 4095) / 4096 * 4096

/-- Places code in pages of its own. Code without a byte has no page to go to, so it is an error. -/
def allocate (p : Pool) (bytes : List Byte) : Except Failure Pool :=
  if bytes.isEmpty then .error (.plain .emptyCode)
  else .ok { used := p.used + bytes.length, mapped := p.mapped + pagesFor bytes.length }

end Pool

namespace Builder

/-- Assembles the code and places it in pages. A builder can be finalized once, whether that
succeeds or not. -/
def finalize (b : Builder) (p : Pool) : Builder × Except Failure (Assembled × Pool) :=
  if b.finalized then (b, .error (.of .encoding .alreadyFinalized))
  else
    ({ b with finalized := true }, do
      let code ← b.assemble
      let pool ← p.allocate code.bytes
      .ok (code, pool))

end Builder

end Dynarec.Code
