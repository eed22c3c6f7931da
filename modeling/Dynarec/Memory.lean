import Dynarec.Text.Number

/-!
# Guest memory

Guest memory is one region of zeroed bytes at a base address, a whole number of pages long. Guest
stores are confined to the part at or above a limit; what lies below it is immutable to the guest,
though not to the loader.

The region sits at a fixed host address while it is open. Closing it leaves a region of no bytes.

## Main definitions

* `Dynarec.Memory` — the region, its contents and the limit for guest stores.
* `Dynarec.Memory.contains` — whether a range of addresses lies inside.
* `Dynarec.Memory.read`, `Dynarec.Memory.write`, `Dynarec.Memory.readWord` — host access.
* `Dynarec.Memory.setImmutableBelow`, `Dynarec.Memory.inspect` — guest access rights.
-/

set_option autoImplicit false

namespace Dynarec

/-! ## Pages -/

/-- The page size of guest memory in bytes, which all regions are made of. -/
def pageSize : Nat := 4096

/-- A size rounded up to whole pages, in wrapping 64-bit arithmetic with a quotient that is cut
toward zero. -/
def roundToPages (size : Int) : Int :=
  wrapInt64 (pageSize * (wrapInt64 (pageSize + size - 1)).tdiv pageSize)

/-! ## Errors and access rights -/

/-- Why an operation on guest memory failed, with the numbers that the message names. -/
inductive MemoryError where
  | size (size : Int)
  | unmappable
  | limit (address base stop : Word)
  | write (length : Nat) (address : Word)
  | read (length : Nat) (address : Word)
  deriving DecidableEq, Repr

/-- The wording of a memory error. Addresses are in hexadecimal, and lengths in decimal. -/
def MemoryError.message : MemoryError → String
  | size n => "invalid guest memory size " ++ Text.decimalInt n
  | unmappable => "failed to mmap guest memory: invalid argument"
  | limit address base stop =>
    "immutable limit " ++ Text.hexWord address ++ " outside guest memory [" ++ Text.hexWord base ++
      ", " ++ Text.hexWord stop ++ ")"
  | write length address =>
    "write of " ++ Text.decimal length ++ " bytes at " ++ Text.hexWord address ++
      " outside guest memory"
  | read length address =>
    "read of " ++ Text.decimal length ++ " bytes at " ++ Text.hexWord address ++
      " outside guest memory"

/-- What the guest may do at an address: nothing, load only, or load and store. -/
inductive Access where
  | inaccessible | immutable | mutable
  deriving DecidableEq, Repr

namespace Access

/-- The name of an access right. -/
def name : Access → String
  | inaccessible => "inaccessible"
  | immutable => "immutable"
  | mutable => "mutable"

/-- The access right with a number; numbers without one grant nothing. -/
def ofNumber (n : Int) : Access :=
  if n = 1 then immutable else if n = 2 then mutable else inaccessible

end Access

/-! ## The region -/

/-- A region of guest memory. Its contents are an array, and the size of the array is that of the
region. -/
structure Memory where
  /-- The guest address of the first byte. -/
  base : Word
  /-- The contents; none when the region is closed. -/
  bytes : Array Byte
  /-- The lowest guest address that a guest store may touch. -/
  writableStart : Word
  /-- A region is smaller than half the address space. -/
  size_lt : bytes.size < 0x8000000000000000

namespace Memory

/-- The size in bytes as an address, which it fits into with room to spare. -/
def size (m : Memory) : Word :=
  BitVec.ofNat 64 m.bytes.size

/-- The first guest address past the region, modulo the address space. -/
def stop (m : Memory) : Word :=
  m.base + m.size

/-- The host address of the first byte of an open region. Compiled code has it as a constant. -/
def hostBase : Word := 0x7f0000000000

/-- The host address of the region; zero when it is closed. -/
def hostAddress (m : Memory) : Word :=
  if m.bytes.size = 0 then 0 else hostBase

/-- A region of no bytes, with a base and a limit all the same. -/
def closed (base writableStart : Word) : Memory where
  base := base
  bytes := #[]
  writableStart := writableStart
  size_lt := by decide

/-- A signed 64-bit number that is not negative is below half the address space. -/
theorem wrapInt64_toNat_lt (v : Int) : (wrapInt64 v).toNat < 0x8000000000000000 := by
  have h : 2 * (wrapInt64 v) < 0x10000000000000000 := (BitVec.ofInt 64 v).two_mul_toInt_lt
  omega

/-- A zeroed region of at least `size` bytes, rounded up to pages, all of it mutable. A size that
is not positive is refused, and so is one that rounding carries out of range. -/
def create (base : Word) (size : Int) : Except MemoryError Memory :=
  if size ≤ 0 then .error (.size size)
  else if roundToPages size ≤ 0 then .error .unmappable
  else
    .ok
      { base := base
        bytes := Array.replicate (roundToPages size).toNat 0
        writableStart := base
        size_lt := by simpa [roundToPages] using wrapInt64_toNat_lt _ }

/-- Closes the region: its bytes are gone, its limits stay. -/
def close (m : Memory) : Memory :=
  closed m.base m.writableStart

/-! ## Bytes by position -/

/-- `n` bytes from position `i` on; positions outside the region read as zero. -/
def bytesAt (m : Memory) (i n : Nat) : List Byte :=
  (List.range n).map fun k => m.bytes.getD (i + k) 0

/-- Writes bytes from position `i` on; positions outside an array are skipped. -/
def overwrite (bytes : Array Byte) (i : Nat) : List Byte → Array Byte
  | [] => bytes
  | b :: data => overwrite (bytes.setIfInBounds i b) (i + 1) data

/-- Bytes that are replaced stay as many as they are. What would lie behind the last one is left
out. -/
@[simp] theorem size_overwrite (bytes : Array Byte) (i : Nat) (data : List Byte) :
    (overwrite bytes i data).size = bytes.size := by
  induction data generalizing bytes i with
  | nil => rfl
  | cons b data ih => simp [overwrite, ih]

/-- The region with bytes replaced from position `i` on. Base, size and limit stay. -/
def setBytesAt (m : Memory) (i : Nat) (data : List Byte) : Memory :=
  { m with
    bytes := overwrite m.bytes i data
    size_lt := by simpa using m.size_lt }

/-! ## Ranges and rights -/

/-- Whether the `n` addresses from `address` on lie inside the region. The three comparisons
avoid sums that could wrap around. -/
def contains (m : Memory) (address n : Word) : Bool :=
  m.base ≤ address && n ≤ m.size && address - m.base ≤ m.size - n

/-- Makes everything below an address of the region, or below its end, immutable to the guest.
The limit can be moved in both directions. -/
def setImmutableBelow (m : Memory) (address : Word) : Except MemoryError Memory :=
  if address < m.base || m.stop < address then .error (.limit address m.base m.stop)
  else .ok { m with writableStart := address }

/-- What the guest may do at an address, one byte at a time. -/
def inspect (m : Memory) (address : Word) : Access :=
  if !m.contains address 1 then .inaccessible
  else if address < m.writableStart then .immutable
  else .mutable

/-! ## Host access -/

/-- Replaces bytes from a guest address on, whatever the guest's rights are. A range that does
not lie inside is refused as a whole. -/
def write (m : Memory) (address : Word) (data : List Byte) : Except MemoryError Memory :=
  if m.contains address (BitVec.ofNat 64 data.length) then
    .ok (m.setBytesAt (address - m.base).toNat data)
  else .error (.write data.length address)

/-- The `n` bytes from a guest address on. A range that does not lie inside is refused as a
whole. -/
def read (m : Memory) (address n : Word) : Except MemoryError (List Byte) :=
  if m.contains address n then .ok (m.bytesAt (address - m.base).toNat n.toNat)
  else .error (.read n.toNat address)

/-- The little-endian word at a guest address: eight bytes, read as one number. -/
def readWord (m : Memory) (address : Word) : Except MemoryError Word :=
  if m.contains address 8 then
    .ok (BitVec.ofNat 64 (ofLittleEndian (m.bytesAt (address - m.base).toNat 8)))
  else .error (.read 8 address)

end Memory

end Dynarec
