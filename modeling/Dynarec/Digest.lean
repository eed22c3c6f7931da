import Dynarec.Text.Number

/-!
# Digests of images

Images are told apart by an unkeyed BLAKE2b digest of 32 bytes. The data is cut into blocks of 128
bytes, the last one filled with zeros; each block is mixed into eight words of state in twelve
rounds, together with the number of bytes so far and a mark on the last block.

## Main definitions

* `Dynarec.Digest.mix` — the mixing of four words with two words of the block.
* `Dynarec.Digest.compress` — one block mixed into the state.
* `Dynarec.Digest.ofBytes`, `Dynarec.Digest.text` — the digest and its text.
-/

set_option autoImplicit false

namespace Dynarec.Digest

/-! ## Constants -/

/-- The initial words. -/
def initial : List Word :=
  [0x6a09e667f3bcc908, 0xbb67ae8584caa73b, 0x3c6ef372fe94f82b, 0xa54ff53a5f1d36f1,
    0x510e527fade682d1, 0x9b05688c2b3e6c1f, 0x1f83d9abfb41bd6b, 0x5be0cd19137e2179]

/-- The order in which each round takes the words of the block; the rounds after the tenth start
over. -/
def schedule : List (List Nat) :=
  [[0, 1, 2, 3, 4, 5, 6, 7, 8, 9, 10, 11, 12, 13, 14, 15],
    [14, 10, 4, 8, 9, 15, 13, 6, 1, 12, 0, 2, 11, 7, 5, 3],
    [11, 8, 12, 0, 5, 2, 15, 13, 10, 14, 3, 6, 7, 1, 9, 4],
    [7, 9, 3, 1, 13, 12, 11, 14, 2, 6, 5, 10, 4, 0, 15, 8],
    [9, 0, 5, 7, 2, 4, 10, 15, 14, 1, 11, 12, 6, 8, 3, 13],
    [2, 12, 6, 10, 0, 11, 8, 3, 4, 13, 7, 5, 15, 14, 1, 9],
    [12, 5, 1, 15, 14, 13, 4, 10, 0, 7, 6, 3, 9, 2, 8, 11],
    [13, 11, 7, 14, 12, 1, 3, 9, 5, 0, 15, 4, 8, 6, 2, 10],
    [6, 15, 14, 9, 11, 3, 0, 8, 12, 2, 13, 7, 1, 4, 10, 5],
    [10, 2, 8, 4, 7, 6, 1, 5, 15, 11, 9, 14, 3, 12, 13, 0]]

/-- The four columns and four diagonals that each round mixes. -/
def quarters : List (Nat × Nat × Nat × Nat) :=
  [(0, 4, 8, 12), (1, 5, 9, 13), (2, 6, 10, 14), (3, 7, 11, 15), (0, 5, 10, 15), (1, 6, 11, 12),
    (2, 7, 8, 13), (3, 4, 9, 14)]

/-- The length of a block in bytes. -/
def blockLength : Nat := 128

/-! ## Mixing -/

/-- Mixes four words of the working state with two words of the block. -/
def mix (v : Array Word) (q : Nat × Nat × Nat × Nat) (x y : Word) : Array Word :=
  let (i, j, k, l) := q
  let a := v.getD i 0
  let b := v.getD j 0
  let c := v.getD k 0
  let d := v.getD l 0
  let a := a + b + x
  let d := (d ^^^ a).rotateRight 32
  let c := c + d
  let b := (b ^^^ c).rotateRight 24
  let a := a + b + y
  let d := (d ^^^ a).rotateRight 16
  let c := c + d
  let b := (b ^^^ c).rotateRight 63
  (((v.setIfInBounds i a).setIfInBounds j b).setIfInBounds k c).setIfInBounds l d

/-- One round: all quarters, with the words of the block in the order of the schedule. -/
def round (block : Array Word) (order : List Nat) (v : Array Word) : Array Word :=
  (quarters.zipIdx).foldl
    (fun v (q, i) =>
      let word (n : Nat) : Word := block.getD (order.getD n 0) 0
      mix v q (word (2 * i)) (word (2 * i + 1)))
    v

/-- The words of a block. -/
def blockWords (bytes : List Byte) : Array Word :=
  ((List.range 16).map fun i =>
    BitVec.ofNat 64 (ofLittleEndian ((bytes.drop (8 * i)).take 8))).toArray

/-- Mixes a block into the state. `count` is the number of bytes up to the end of the block. -/
def compress (state : List Word) (bytes : List Byte) (count : Nat) (last : Bool) : List Word :=
  let block := blockWords bytes
  let marks : List Word :=
    [BitVec.ofNat 64 count, BitVec.ofNat 64 (count >>> 64), if last then ~~~0 else 0, 0]
  let marked := List.zipWith (fun a b => a ^^^ b) (initial.drop 4) marks
  let start := (state ++ initial.take 4 ++ marked).toArray
  let v := (schedule ++ schedule.take 2).foldl (fun v order => round block order v) start
  state.zipIdx.map fun (h, i) => h ^^^ v.getD i 0 ^^^ v.getD (i + 8) 0

/-! ## Digests -/

/-- Mixes all data into the state, for at most `blocks` blocks; the last block is marked. -/
def absorb : Nat → List Word → List Byte → Nat → List Word
  | 0, state, _, _ => state
  | blocks + 1, state, data, count =>
    if data.length ≤ blockLength then compress state data (count + data.length) true
    else
      absorb blocks (compress state (data.take blockLength) (count + blockLength) false)
        (data.drop blockLength) (count + blockLength)

/-- The state before the first block of an unkeyed digest of 32 bytes. -/
def start : List Word :=
  match initial with
  | h :: rest => (h ^^^ 0x01010020) :: rest
  | [] => []

/-- The digest of data. -/
def ofBytes (data : List Byte) : List Byte :=
  ((absorb (data.length / blockLength + 1) start data 0).take 4).flatMap fun w =>
    littleEndian 8 w.toNat

/-- The digest of data in hexadecimal. -/
def text (data : List Byte) : String :=
  Text.hexBytes (ofBytes data)

end Dynarec.Digest
