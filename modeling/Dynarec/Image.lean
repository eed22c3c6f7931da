import Dynarec.Memory
import Dynarec.Text.Quoted

/-!
# Images

An image is a file that holds a guest program: either a flat stream of instruction words, or an
executable with a header that locates its text, read-only and data segments. The header also says
how much memory the program wants, and a second header, where there is one, how much of it is
uninitialised.

## Main definitions

* `Dynarec.Image` — a validated image.
* `Dynarec.Image.parse`, `Dynarec.Image.ofWords` — reading the two formats.
* `Dynarec.Image.text`, `Dynarec.Image.memorySize` — the program and the memory it needs.
* `Dynarec.Image.build` — placing the image in guest memory.
-/

set_option autoImplicit false

namespace Dynarec

/-! ## Headers -/

/-- Where a segment lies, in the file and in guest memory alike: offset and size in bytes. -/
structure Segment where
  offset : Nat
  size : Nat
  deriving DecidableEq, Repr

namespace Segment

/-- The offset behind the segment, which is not cut to the width that offsets have in the header. -/
def stop (s : Segment) : Nat :=
  s.offset + s.size

/-- The bytes of a segment. A segment that reaches past the end of the file has fewer than its
size says. -/
def bytes (s : Segment) (file : List Byte) : List Byte :=
  (file.drop s.offset).take s.size

end Segment

/-- The header of an executable, with all its fields in the order of the file. Only some of them
decide how the image is loaded. -/
structure ImageHeader where
  unused : Nat
  moduleOffset : Nat
  padding : Nat
  magic : List Byte
  version : Nat
  size : Nat
  flags : Nat
  text : Segment
  readOnly : Segment
  data : Segment
  bssSize : Nat
  reserved : Nat
  moduleId : List Byte
  dsoHandleOffset : Nat
  reserved2 : Nat
  apiInfo : Segment
  dynStr : Segment
  dynSym : Segment
  deriving DecidableEq, Repr

/-- The module header. Its offsets are signed and relative to the header itself. -/
structure ModuleHeader where
  magic : List Byte
  dynamic : Int
  bssStart : Int
  bssEnd : Int
  ehStart : Int
  ehEnd : Int
  moduleObject : Int
  deriving DecidableEq, Repr

/-- The unsigned number in `n` bytes of a file, in little endian. -/
def numberAt (file : List Byte) (offset n : Nat) : Nat :=
  ofLittleEndian ((file.drop offset).take n)

/-- The signed 32-bit number at an offset of a file, in two's complement. -/
def signedAt (file : List Byte) (offset : Nat) : Int :=
  (BitVec.ofNat 32 (numberAt file offset 4)).toInt

/-- The segment described at an offset of a file: its offset, and its size right behind. -/
def segmentAt (file : List Byte) (offset : Nat) : Segment where
  offset := numberAt file offset 4
  size := numberAt file (offset + 4) 4

namespace ImageHeader

/-- The length of the header in bytes. -/
def length : Nat := 0x80

/-- What an executable has at offset 16. -/
def expectedMagic : List Byte := [0x4E, 0x52, 0x4F, 0x30]

/-- The header at the start of a file. -/
def read (file : List Byte) : ImageHeader where
  unused := numberAt file 0x00 4
  moduleOffset := numberAt file 0x04 4
  padding := numberAt file 0x08 8
  magic := (file.drop 0x10).take 4
  version := numberAt file 0x14 4
  size := numberAt file 0x18 4
  flags := numberAt file 0x1C 4
  text := segmentAt file 0x20
  readOnly := segmentAt file 0x28
  data := segmentAt file 0x30
  bssSize := numberAt file 0x38 4
  reserved := numberAt file 0x3C 4
  moduleId := (file.drop 0x40).take 0x20
  dsoHandleOffset := numberAt file 0x60 4
  reserved2 := numberAt file 0x64 4
  apiInfo := segmentAt file 0x68
  dynStr := segmentAt file 0x70
  dynSym := segmentAt file 0x78

end ImageHeader

namespace ModuleHeader

/-- The length of the module header in bytes. -/
def length : Nat := 28

/-- What a module header starts with. -/
def expectedMagic : List Byte := [0x4D, 0x4F, 0x44, 0x30]

/-- The module header at an offset of a file. -/
def read (file : List Byte) (offset : Nat) : ModuleHeader where
  magic := (file.drop offset).take 4
  dynamic := signedAt file (offset + 4)
  bssStart := signedAt file (offset + 8)
  bssEnd := signedAt file (offset + 12)
  ehStart := signedAt file (offset + 16)
  ehEnd := signedAt file (offset + 20)
  moduleObject := signedAt file (offset + 24)

/-- The module header that an image header points to. Offset zero, an offset too close to the end
of the file and a wrong start all mean that there is none. -/
def find? (file : List Byte) (offset : Nat) : Option ModuleHeader :=
  if offset = 0 ∨ file.length < offset + length then none
  else
    let header := read file offset
    if header.magic = expectedMagic then some header else none

end ModuleHeader

/-! ## Images -/

/-- Why a file is no image, or does not fit into memory, with what the message names. -/
inductive ImageError where
  | tooShort (length : Nat)
  | magic (found : List Byte)
  | segment (name : String) (segment : Segment) (length : Nat)
  | textSize (size : Nat)
  | words (length : Nat)
  | room (available : Nat) (needed : Int)
  | memory (error : MemoryError)
  deriving DecidableEq, Repr

/-- The wording of an image error. -/
def ImageError.message : ImageError → String
  | tooShort length =>
    "invalid nro file: " ++ Text.decimal length ++ " bytes is shorter than the header"
  | magic found => "invalid nro file: bad magic " ++ Text.quoteBytes found
  | segment name s length =>
    "invalid " ++ name ++ " segment: segment [" ++ Text.hex s.offset ++ ", " ++ Text.hex s.stop ++
      ") past end of file (" ++ Text.hex length ++ ")"
  | textSize size => "invalid text segment size " ++ Text.hex size
  | words length =>
    "invalid raw image: size " ++ Text.decimal length ++ " is not a positive multiple of 4"
  | room available needed =>
    "guest memory of " ++ Text.decimal available ++ " bytes cannot hold image of " ++
      Text.decimalInt needed ++ " bytes"
  | memory error => error.message

/-- The format of an image. Which one a file is read in is chosen by whoever reads it and not by
its contents. -/
inductive ImageFormat where
  /-- Instruction words from the first byte to the last. -/
  | words
  /-- An executable with its headers. -/
  | executable (header : ImageHeader) (module : Option ModuleHeader)
  deriving DecidableEq, Repr

/-- A validated image: a file with the format it was accepted in. -/
structure Image where
  file : List Byte
  format : ImageFormat
  deriving DecidableEq, Repr

namespace Image

/-! ## Reading -/

/-- Requires a segment to lie inside the file. Segments may overlap each other, and the header
too. -/
def checkSegment (file : List Byte) (name : String) (s : Segment) : Except ImageError Unit :=
  if file.length < s.stop then .error (.segment name s file.length) else .ok ()

/-- Validates an executable. The tests are made in this order: length of the file, start of the
header, the three segments, size of the text. The size that the header states is not compared
with the segments. -/
def parse (file : List Byte) : Except ImageError Image :=
  if file.length < ImageHeader.length then .error (.tooShort file.length)
  else
    let header := ImageHeader.read file
    if header.magic ≠ ImageHeader.expectedMagic then .error (.magic header.magic)
    else do
      checkSegment file "text" header.text
      checkSegment file "ro" header.readOnly
      checkSegment file "data" header.data
      if header.text.size = 0 ∨ header.text.size % 4 ≠ 0 then .error (.textSize header.text.size)
      else
        .ok
          { file := file
            format := .executable header (ModuleHeader.find? file header.moduleOffset) }

/-- Validates a flat stream of instruction words, at least one of them. -/
def ofWords (file : List Byte) : Except ImageError Image :=
  if file.isEmpty ∨ file.length % 4 ≠ 0 then .error (.words file.length)
  else .ok { file := file, format := .words }

/-- Validates a file in the chosen format. -/
def read (file : List Byte) (raw : Bool) : Except ImageError Image :=
  if raw then ofWords file else parse file

/-! ## The program -/

/-- Whether the image is a flat stream of words. -/
def isRaw (i : Image) : Bool :=
  match i.format with
  | .words => true
  | .executable _ _ => false

/-- The little-endian instruction words in bytes; an incomplete one at the end is dropped. -/
def words : List Byte → List Opcode
  | a :: b :: c :: d :: rest => BitVec.ofNat 32 (ofLittleEndian [a, b, c, d]) :: words rest
  | _ => []

/-- The instruction words of the program. Of an executable they are the text segment. -/
def text (i : Image) : List Opcode :=
  match i.format with
  | .words => words i.file
  | .executable header _ => words (header.text.bytes i.file)

/-- Where the first instruction lies relative to the start of guest memory, which is where it
lies in the file. -/
def textOffset (i : Image) : Nat :=
  match i.format with
  | .words => 0
  | .executable header _ => header.text.offset

/-! ## Memory -/

/-- The size of the uninitialised data. The module header is preferred where its range is not
empty; its length is a signed 32-bit number. A flat stream has one page. -/
def bssSize (i : Image) : Int :=
  match i.format with
  | .words => pageSize
  | .executable header none => header.bssSize
  | .executable header (some m) =>
    if m.bssStart < m.bssEnd then (BitVec.ofInt 32 (m.bssEnd - m.bssStart)).toInt
    else header.bssSize

/-- The size of the image itself: that of the file for a flat stream, and that in the header
otherwise. -/
def loadedSize (i : Image) : Nat :=
  match i.format with
  | .words => i.file.length
  | .executable header _ => header.size

/-- The guest memory that the image needs: its own size and the uninitialised data, each in whole
pages. -/
def memorySize (i : Image) : Int :=
  wrapInt64 (roundToPages i.loadedSize + roundToPages i.bssSize)

/-- Copies segments into memory, up to the first that does not fit. Where two overlap, the later
one stays. -/
def writeSegments (file : List Byte) : List Segment → Memory → Memory × Except ImageError Unit
  | [], m => (m, .ok ())
  | s :: rest, m =>
    match m.write (m.base + BitVec.ofNat 64 s.offset) (s.bytes file) with
    | .ok m => writeSegments file rest m
    | .error e => (m, .error (.memory e))

/-- Moves the immutable limit. When that fails, memory is as it was. -/
def protect (m : Memory) (limit : Word) : Memory × Except ImageError Unit :=
  match m.setImmutableBelow limit with
  | .ok m => (m, .ok ())
  | .error e => (m, .error (.memory e))

/-- The segments of an image, in the order they are written. -/
def segments (i : Image) : List Segment :=
  match i.format with
  | .words => [{ offset := 0, size := i.file.length }]
  | .executable header _ => [header.text, header.readOnly, header.data]

/-- The size of what is immutable at the start of memory: all pages of a flat stream, and of an
executable what lies in front of its data segment. -/
def immutableSize (i : Image) : Word :=
  match i.format with
  | .words => BitVec.ofInt 64 (roundToPages i.file.length)
  | .executable header _ => BitVec.ofNat 64 header.data.offset

/-- Copies the image into memory and makes what lies in front of its data immutable. What was
written before a failure stays written. -/
def build (i : Image) (m : Memory) : Memory × Except ImageError Unit :=
  if m.size < BitVec.ofInt 64 i.memorySize then
    (m, .error (.room m.bytes.size i.memorySize))
  else
    match writeSegments i.file i.segments m with
    | (m, .error e) => (m, .error e)
    | (m, .ok ()) => protect m (m.base + i.immutableSize)

end Image

end Dynarec
