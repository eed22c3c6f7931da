import Dynarec.Guest.Instruction
import Dynarec.Host.Encode
import Dynarec.Memory

/-!
# Failures

A failure is a chain of links, the outermost first. A link may be located: it then names a kind of
failure and the guest address it is attributed to, and its text is followed by that of its causes.
A link that is not located carries the text of the whole rest of the chain, fixed when it was made;
the links behind it still decide the kind of the failure.

## Main definitions

* `Dynarec.Kind` — the kinds of located failures.
* `Dynarec.Reason` — what went wrong, with its wording.
* `Dynarec.Failure` — a chain of links, with its text.
* `Dynarec.Failure.attributeTo` — attributing a failure to an address.
-/

set_option autoImplicit false

namespace Dynarec

/-! ## Kinds -/

/-- The kinds of failures. -/
inductive Kind where
  | decode | resourceExhaustion | encoding | unmapped | fault | budget
  /-- A number that stands for no kind. -/
  | other (number : Int)
  deriving DecidableEq, Repr

namespace Kind

/-- The kind with a number. -/
def ofNumber (n : Int) : Kind :=
  if n = 0 then decode
  else if n = 1 then resourceExhaustion
  else if n = 2 then encoding
  else if n = 3 then unmapped
  else if n = 4 then fault
  else if n = 5 then budget
  else other n

/-- The name of a kind. -/
def name : Kind → String
  | decode => "decode"
  | resourceExhaustion => "resource exhaustion"
  | encoding => "encoding"
  | unmapped => "unmapped register"
  | fault => "fault"
  | budget => "budget"
  | other n => "kind(" ++ Text.decimalInt n ++ ")"

end Kind

/-! ## Reasons -/

/-- The shapes an operand can be required to have. -/
inductive Shape where
  | register | immediate | condition | label | memory
  deriving DecidableEq, Repr

/-- The wording of a required shape. -/
def Shape.text : Shape → String
  | register => "a register"
  | immediate => "an immediate"
  | condition => "a condition"
  | label => "a label"
  | memory => "a memory reference"

/-- What went wrong. -/
inductive Reason where
  /-- The word is no instruction understood here. -/
  | rejected (word : Opcode)
  | noEmitter (op : Guest.Op)
  | operandCount (op : Guest.Op) (expected got : Nat)
  | operandShape (op : Guest.Op) (position : Nat) (expected : Shape) (got : Guest.Operand)
  | operandUnsupported (op : Guest.Op) (got : Guest.Operand)
  | compareUnsupported (got : Guest.Operand)
  | flagsRange (value : Word)
  | noMemory
  | unmappedRegister (r : Guest.Register)
  | scratchInUse (count : Nat)
  | labelBoundTwice (label : Nat)
  | labelUnknown (label : Nat)
  | labelUnbound (branch label : Nat)
  | branchCondition (cond : Host.Cond)
  | branchRange (displacement : Int)
  | hostInstruction
  | hostBranch
  | encode (error : Host.EncodeError)
  | alreadyFinalized
  | emptyCode
  | entry (offset : Word) (count : Nat)
  | otherAddresses
  | exitKind (name : String)
  | trapped
  /-- An access outside guest memory, with the range of the block that made it. -/
  | access (address : Word) (block : Option (Word × Word))
  | budget (blocks : Int)
  | cancelled
  | compilation
  | memory (error : MemoryError)
  /-- Words from outside. -/
  | text (message : String)
  deriving DecidableEq, Repr

/-- The wording of a reason. -/
def Reason.message : Reason → String
  | rejected word => "rejected encoding " ++ Text.hex8 word.toNat
  | noEmitter op => "no emitter for " ++ op.name
  | operandCount op expected got =>
    op.name ++ ": expected " ++ Text.decimal expected ++ " operands, got " ++ Text.decimal got
  | operandShape op position expected got =>
    op.name ++ ": operand " ++ Text.decimal position ++ " must be " ++ expected.text ++ ", got " ++
      got.text
  | operandUnsupported op got => op.name ++ ": unsupported operand " ++ got.text
  | compareUnsupported got => "unsupported compare operand " ++ got.text
  | flagsRange value => "nzcv immediate " ++ Text.hexWord value ++ " out of range"
  | noMemory => "no guest memory attached"
  | unmappedRegister r => "unmapped register " ++ r.name
  | scratchInUse count => "all " ++ Text.decimal count ++ " scratch registers in use"
  | labelBoundTwice label => "label " ++ Text.decimal label ++ " bound twice"
  | labelUnknown label => "label " ++ Text.decimal label ++ " was never created"
  | labelUnbound branch label =>
    "branch " ++ Text.decimal branch ++ " targets unbound label " ++ Text.decimal label
  | branchCondition cond => "invalid branch condition " ++ Text.hex cond.code.toNat
  | branchRange displacement =>
    "branch displacement " ++ Text.decimalInt displacement ++ " out of range"
  | hostInstruction => "cannot encode host instruction"
  | hostBranch => "cannot encode branch"
  | encode error => error.message
  | alreadyFinalized => "builder already finalized"
  | emptyCode => "refusing to map an empty code region"
  | entry offset count =>
    "entry " ++ Text.hexWord offset ++ " outside the " ++ Text.decimal count ++
      "-instruction stream"
  | otherAddresses => "block compiled against other addresses"
  | exitKind name => "block returned unknown exit " ++ name
  | trapped => "block touched host memory that is not mapped"
  | access address none => "access to " ++ Text.hexWord address ++ " outside guest memory"
  | access address (some block) =>
    "access to " ++ Text.hexWord address ++ " outside guest memory in block " ++
      Text.hexWord block.1 ++ "-" ++ Text.hexWord block.2
  | budget blocks => "block budget of " ++ Text.decimalInt blocks ++ " exhausted"
  | cancelled => "context canceled"
  | compilation => "translation failed"
  | memory error => error.message
  | text message => message

/-! ## Chains -/

/-- One link of a failure. -/
inductive Link where
  /-- A reason of a kind, attributed to a guest address; address zero stands for none yet. -/
  | located (kind : Kind) (pc : Word) (reason : Reason)
  | plain (reason : Reason)
  deriving DecidableEq, Repr

namespace Link

/-- The text of a link. -/
def text : Link → String
  | located kind pc reason =>
    kind.name ++ " error at pc " ++ Text.hexWord pc ++ ": " ++ reason.message
  | plain reason => reason.message

/-- The kind of a located link. -/
def kind? : Link → Option Kind
  | located kind _ _ => some kind
  | plain _ => none

/-- Attributes a located link to an address unless it already has one. -/
def locate (pc : Word) : Link → Link
  | located kind old reason => located kind (if old = 0 then pc else old) reason
  | plain reason => plain reason

end Link

/-- A failure: the outermost link and the causes behind it. -/
structure Failure where
  head : Link
  causes : List Link := []
  deriving DecidableEq, Repr

namespace Failure

/-- A failure of one link with a kind and no address yet. -/
def of (kind : Kind) (reason : Reason) : Failure :=
  { head := .located kind 0 reason }

/-- A failure of one link at an address. -/
def ofAt (kind : Kind) (pc : Word) (reason : Reason) : Failure :=
  { head := .located kind pc reason }

/-- A failure without a kind. -/
def plain (reason : Reason) : Failure :=
  { head := .plain reason }

/-- A failure caused by another one. -/
def wrap (link : Link) (cause : Failure) : Failure :=
  { head := link, causes := cause.head :: cause.causes }

/-- All links, outermost first. -/
def links (f : Failure) : List Link :=
  f.head :: f.causes

/-- The text of a link and of the causes behind it. -/
def chainText : Link → List Link → String
  | .located kind pc reason, next :: rest =>
    (Link.located kind pc reason).text ++ ": " ++ chainText next rest
  | link, _ => link.text

/-- The text of a failure: located links are followed by their cause after a colon. -/
def text (f : Failure) : String :=
  chainText f.head f.causes

/-- A failure with a remark in front, whose text is fixed from now on. -/
def remark (message : String) (cause : Failure) : Failure :=
  wrap (.plain (.text (message ++ ": " ++ cause.text))) cause

/-- The number of causes behind the outermost link. -/
def depth (f : Failure) : Nat :=
  f.causes.length

/-- The kind of the first located link. -/
def kind? (f : Failure) : Option Kind :=
  f.links.findSome? Link.kind?

/-- Whether the first located link has a kind. -/
def isKind (f : Failure) (kind : Kind) : Bool :=
  f.kind? == some kind

/-- Attributes the first located link of a chain to an address. -/
def locateFirst (pc : Word) : List Link → List Link
  | [] => []
  | .located kind old reason :: rest => (Link.located kind old reason).locate pc :: rest
  | .plain reason :: rest => .plain reason :: locateFirst pc rest

/-- Attributes a failure to an address. A failure that already has one keeps it; one without any
located link becomes the cause of a failure of the given kind. -/
def attributeTo (f : Failure) (pc : Word) (fallback : Kind) : Failure :=
  match f.kind? with
  | none => wrap (.located fallback pc .compilation) f
  | some _ =>
    match f.head with
    | .located kind old reason =>
      { f with head := (Link.located kind old reason).locate pc }
    | .plain _ => { f with causes := locateFirst pc f.causes }

end Failure

end Dynarec
