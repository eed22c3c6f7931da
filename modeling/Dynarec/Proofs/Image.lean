import Dynarec.Image
import Dynarec.Proofs.Memory

/-!
# Loading images

An image that is accepted has its segments inside the file. How much memory it asks for depends on
two other numbers: the size that its header states, and the size of its uninitialised data, which is
taken in 32-bit arithmetic and can wrap around. The image can be placed in memory of that size
exactly if none of its segments reaches past it.

## Main definitions

* `Dynarec.Image.Parsed` — what is known of an accepted image with a header.
* `Dynarec.Image.statedBss` — the size of the uninitialised data as the headers state it.
* `Dynarec.Image.BssFits` — the range of the uninitialised data is short enough.
* `Dynarec.Image.Loads` — memory of the size an image asks for can be created, and holds it.
* `Dynarec.Image.Suffices` — no segment reaches past that size.

## Main results

* `Dynarec.Image.parsed_of_parse` — what is accepted.
* `Dynarec.Image.Parsed.bssSize_cases` — the size of the uninitialised data.
* `Dynarec.Image.Parsed.memorySize_eq` — the memory that an image asks for.
* `Dynarec.Image.bssSize_eq_stated_iff` — when the size of the uninitialised data is as stated.
* `Dynarec.Image.writeSegments_cases` — which segments are copied.
* `Dynarec.Image.loads_iff_suffices` — when an image can be loaded.
-/

set_option autoImplicit false

namespace Dynarec

/-! ## Headers -/

/-- A number of `n` bytes of a file is below the `n`th power of 256. -/
theorem numberAt_lt (file : List Byte) (offset n : Nat) :
    numberAt file offset n < Nat.pow 256 n := by
  have hlt := ofLittleEndian_lt ((file.drop offset).take n)
  have hlen : ((file.drop offset).take n).length ≤ n := List.length_take_le n _
  exact Nat.lt_of_lt_of_le hlt (Nat.pow_le_pow_right (by decide) hlen)

/-- The offset and the size of a segment are numbers of 32 bits. -/
theorem segmentAt_lt (file : List Byte) (offset : Nat) :
    (segmentAt file offset).offset < 0x100000000 ∧ (segmentAt file offset).size < 0x100000000 :=
  ⟨numberAt_lt file offset 4, numberAt_lt file (offset + 4) 4⟩

/-- A segment inside the file has as many bytes as its size says. -/
theorem Segment.length_bytes {s : Segment} {file : List Byte} (h : s.stop ≤ file.length) :
    (s.bytes file).length = s.size := by
  unfold Segment.stop at h
  rw [Segment.bytes, List.length_take, List.length_drop]
  omega

namespace Image

variable {file : List Byte} {i : Image}

/-- A file is accepted if something can be computed from the image that it is. -/
theorem eq_ok_of_map_toOption {α : Type} {x : Except ImageError Image} {f : Image → α} {a : α}
    (h : x.toOption.map f = some a) : ∃ i, x = .ok i ∧ f i = a := by
  cases x with
  | error e => cases h
  | ok i => exact ⟨i, rfl, Option.some.inj h⟩

/-- An image that was read from a file with a header: the header locates its segments inside the
file, and its text is not empty and made of whole words. -/
structure Parsed (file : List Byte) (i : Image) : Prop where
  file_eq : i.file = file
  format : i.format = .executable (ImageHeader.read file)
    (ModuleHeader.find? file (ImageHeader.read file).moduleOffset)
  length : ImageHeader.length ≤ file.length
  magic : (ImageHeader.read file).magic = ImageHeader.expectedMagic
  inside : ∀ s ∈ i.segments, s.stop ≤ file.length
  text_ne : (ImageHeader.read file).text.size ≠ 0
  text_mod : (ImageHeader.read file).text.size % 4 = 0

/-- Checking a segment goes on exactly if it lies inside the file. -/
theorem checkSegment_bind_eq_ok {name : String} {s : Segment}
    {rest : Unit → Except ImageError Image} :
    checkSegment file name s >>= rest = .ok i ↔ s.stop ≤ file.length ∧ rest () = .ok i := by
  unfold checkSegment
  split
  · rename_i hlt
    simp [bind, Except.bind, Nat.not_le_of_lt hlt]
  · rename_i hge
    simp [bind, Except.bind, Nat.le_of_not_lt hge]

/-- **What is accepted** as an image with a header.

**Proof sketch.** The reader makes its tests one after the other, and what it accepts has
passed each of them. -/
theorem parsed_of_parse (h : parse file = .ok i) : Parsed file i := by
  unfold parse at h
  split at h
  · cases h
  · rename_i hlength
    dsimp only at h
    split at h
    · cases h
    · rename_i hmagic
      rw [checkSegment_bind_eq_ok, checkSegment_bind_eq_ok, checkSegment_bind_eq_ok] at h
      rcases h with ⟨htext, hreadOnly, hdata, h⟩
      split at h
      · cases h
      · rename_i hsize
        cases h
        rw [not_or, not_not] at hsize
        refine ⟨rfl, rfl, Nat.le_of_not_lt hlength, not_not.1 hmagic, ?_, hsize.1, hsize.2⟩
        intro s hs
        simp only [segments, List.mem_cons, List.not_mem_nil, or_false] at hs
        rcases hs with rfl | rfl | rfl
        · exact htext
        · exact hreadOnly
        · exact hdata

namespace Parsed

/-- The segments of an image with a header, in the order of the header. -/
theorem segments_eq (h : Parsed file i) : i.segments =
    [(ImageHeader.read file).text, (ImageHeader.read file).readOnly,
      (ImageHeader.read file).data] := by
  rw [segments, h.format]

/-- The offset and the size of each segment are numbers of 32 bits. -/
theorem segment_lt (h : Parsed file i) {s : Segment} (hs : s ∈ i.segments) :
    s.offset < 0x100000000 ∧ s.size < 0x100000000 := by
  rw [h.segments_eq] at hs
  simp only [List.mem_cons, List.not_mem_nil, or_false] at hs
  rcases hs with rfl | rfl | rfl <;> exact segmentAt_lt file _

end Parsed

/-! ## Uninitialised data -/

/-- The size of the uninitialised data as the headers of a file state it: the length of the range in
the module header where there is one that is not empty, and otherwise the size in the image
header. -/
def statedBss (file : List Byte) : Int :=
  let header := ImageHeader.read file
  let range := (ModuleHeader.find? file header.moduleOffset).filter fun m => m.bssStart < m.bssEnd
  range.elim header.bssSize fun m => m.bssEnd - m.bssStart

/-- The length of the range in the module header is a signed 32-bit number. -/
def BssFits (file : List Byte) : Prop :=
  ∀ m, ModuleHeader.find? file (ImageHeader.read file).moduleOffset = some m →
    m.bssEnd - m.bssStart < 0x80000000

/-- A signed number of four bytes lies in the range of such numbers. -/
theorem signedAt_bounds (file : List Byte) (offset : Nat) :
    -0x80000000 ≤ signedAt file offset ∧ signedAt file offset < 0x80000000 := by
  have hlow := (BitVec.ofNat 32 (numberAt file offset 4)).le_two_mul_toInt
  have hhigh := (BitVec.ofNat 32 (numberAt file offset 4)).two_mul_toInt_lt
  unfold signedAt
  omega

/-- The ends of the range in a module header are less than the 32-bit range apart.

**Proof sketch.** Both ends are signed 32-bit numbers. -/
theorem bssRange_lt {offset : Nat} {m : ModuleHeader}
    (h : ModuleHeader.find? file offset = some m) : m.bssEnd - m.bssStart < 0x100000000 := by
  have hread : m = ModuleHeader.read file offset := by
    unfold ModuleHeader.find? at h
    split at h
    · cases h
    · dsimp only at h
      split at h
      · exact (Option.some.inj h).symm
      · cases h
  have hstart := signedAt_bounds file (offset + 8)
  have hstop := signedAt_bounds file (offset + 12)
  have hrange : m.bssEnd - m.bssStart =
      signedAt file (offset + 12) - signedAt file (offset + 8) := by
    rw [hread]
    rfl
  omega

/-- A positive difference of signed 32-bit numbers wraps around at most once: it is kept if it is a
signed 32-bit number itself, and becomes negative otherwise. -/
theorem toInt_ofInt_cases {v : Int} (hlow : 0 < v) (hhigh : v < 0x100000000) :
    (v < 0x80000000 ∧ (BitVec.ofInt 32 v).toInt = v) ∨
      (0x80000000 ≤ v ∧ (BitVec.ofInt 32 v).toInt = v - 0x100000000) := by
  rw [BitVec.toInt_ofInt, Int.bmod_def]
  omega

/-- With a range that is not empty, its length is stated, and taken in 32-bit arithmetic. -/
theorem Parsed.bssSize_of_range (h : Parsed file i) {m : ModuleHeader}
    (hfind : ModuleHeader.find? file (ImageHeader.read file).moduleOffset = some m)
    (hrange : m.bssStart < m.bssEnd) : statedBss file = m.bssEnd - m.bssStart ∧
      i.bssSize = (BitVec.ofInt 32 (m.bssEnd - m.bssStart)).toInt := by
  constructor
  · simp [statedBss, hfind, hrange, Option.filter_some]
  · simp [bssSize, h.format, hfind, hrange]

/-- Without such a range, the size in the image header is stated and taken. -/
theorem Parsed.bssSize_of_no_range (h : Parsed file i)
    (hnone : ∀ m, ModuleHeader.find? file (ImageHeader.read file).moduleOffset = some m →
      ¬ m.bssStart < m.bssEnd) :
    statedBss file = (ImageHeader.read file).bssSize ∧
      i.bssSize = (ImageHeader.read file).bssSize := by
  rw [statedBss, bssSize, h.format]
  cases hfind : ModuleHeader.find? file (ImageHeader.read file).moduleOffset with
  | none => simp
  | some m => simp [hnone m hfind, Option.filter_some]

/-- **The size of the uninitialised data** is the one that the headers state, unless it is the
length of a range that is no signed 32-bit number.

**Proof sketch.** If there is a range that is not empty, its length is below the 32-bit
range, so as a signed number it is itself or has wrapped around once (`toInt_ofInt_cases`).
Otherwise the size is the one in the header. -/
theorem Parsed.bssSize_cases (h : Parsed file i) :
    (BssFits file ∧ i.bssSize = statedBss file ∧
        0 ≤ statedBss file ∧ statedBss file < 0x100000000) ∨
      (¬ BssFits file ∧ i.bssSize = statedBss file - 0x100000000 ∧
        0x80000000 ≤ statedBss file ∧ statedBss file < 0x100000000) := by
  by_cases hrange : ∃ m, ModuleHeader.find? file (ImageHeader.read file).moduleOffset = some m ∧
      m.bssStart < m.bssEnd
  · rcases hrange with ⟨m, hfind, hrange⟩
    rcases h.bssSize_of_range hfind hrange with ⟨hstated, hsize⟩
    have hfits : BssFits file ↔ m.bssEnd - m.bssStart < 0x80000000 := by
      simp [BssFits, hfind]
    rw [hfits, hsize, hstated]
    have hlt := bssRange_lt hfind
    rcases toInt_ofInt_cases (Int.sub_pos_of_lt hrange) hlt with ⟨hshort, hkept⟩ | ⟨hlong, hwraps⟩
    · exact .inl ⟨hshort, hkept, by omega, hlt⟩
    · exact .inr ⟨by omega, hwraps, hlong, hlt⟩
  · have hnone : ∀ m, ModuleHeader.find? file (ImageHeader.read file).moduleOffset = some m →
        ¬ m.bssStart < m.bssEnd := fun m hfind hlt => hrange ⟨m, hfind, hlt⟩
    rcases h.bssSize_of_no_range hnone with ⟨hstated, hsize⟩
    have hheader : (ImageHeader.read file).bssSize < 0x100000000 := numberAt_lt file 0x38 4
    refine .inl ⟨fun m hfind => ?_, by rw [hsize, hstated], by omega, by omega⟩
    have hempty := hnone m hfind
    omega

/-! ## The memory that an image asks for -/

namespace Parsed

/-- The uninitialised data has a size of 32 bits, signed or not. -/
theorem bssSize_bounds (h : Parsed file i) :
    -0x80000000 ≤ i.bssSize ∧ i.bssSize < 0x100000000 := by
  rcases h.bssSize_cases with ⟨-, hsize, hlow, hhigh⟩ | ⟨-, hsize, hlow, hhigh⟩
  · omega
  · omega

/-- **The memory that an image asks for.** -/
theorem memorySize_eq (h : Parsed file i) :
    i.memorySize = 4096 * (((ImageHeader.read file).size + 4095) / 4096) +
      4096 * (i.bssSize + 4095).tdiv 4096 := by
  have hsize : (ImageHeader.read file).size < 0x100000000 := numberAt_lt file 0x18 4
  have hbss := h.bssSize_bounds
  have hloaded : i.loadedSize = (ImageHeader.read file).size := by rw [loadedSize, h.format]
  rw [memorySize, hloaded, roundToPages_of_nonneg (by omega) (by omega),
    roundToPages_eq (by omega) (by omega)]
  have hpages := mul_tdiv_bounds (i.bssSize + 4095)
  exact wrapInt64_eq_self (by omega) (by omega)

/-- An image asks for whole pages, and for far less than the address space. -/
theorem memorySize_pages (h : Parsed file i) :
    i.memorySize % 4096 = 0 ∧ i.memorySize < 0x4000000000000000 := by
  have hbss := h.bssSize_bounds
  have hcut := mul_tdiv_bounds (i.bssSize + 4095)
  have hsize : (ImageHeader.read file).size < 0x100000000 := numberAt_lt file 0x18 4
  rw [h.memorySize_eq]
  omega

end Parsed

/-- **When the size of the uninitialised data is the one that the headers state.** Let an image with
a header be accepted. The size is the one stated if and only if it is not negative, and this is so
exactly if the length of the range in the module header, where there is one, is a signed 32-bit
number; otherwise the size has wrapped around. The memory that the image asks for always has room
for the size that the header states, in whole pages, and for the size of the uninitialised data; it
has room for the size stated exactly if that did not wrap around.

**Proof sketch.** In the first case of `Parsed.bssSize_cases` all four sides hold. In the
second the size is negative, and dividing it by the size of a page cuts towards zero, so at most
the page of the remainder is left for it. -/
theorem bssSize_eq_stated_iff (file : List Byte) (i : Image) (h : parse file = .ok i) :
    let header := ImageHeader.read file
    (i.bssSize = statedBss file ↔ BssFits file) ∧
    (0 ≤ i.bssSize ↔ BssFits file) ∧
    (¬ BssFits file → i.bssSize = statedBss file - 0x100000000) ∧
    roundToPages header.size + i.bssSize ≤ i.memorySize ∧
    (roundToPages header.size + statedBss file ≤ i.memorySize ↔ BssFits file) := by
  intro header
  have hparsed := parsed_of_parse h
  have hsize : header.size < 0x100000000 := numberAt_lt file 0x18 4
  have hpages : roundToPages header.size = 4096 * ((header.size + 4095) / 4096) :=
    roundToPages_of_nonneg (by omega) (by omega)
  have hmemory : i.memorySize =
      4096 * ((header.size + 4095) / 4096) + 4096 * (i.bssSize + 4095).tdiv 4096 :=
    hparsed.memorySize_eq
  have hcut := mul_tdiv_bounds (i.bssSize + 4095)
  rw [hpages, hmemory]
  rcases hparsed.bssSize_cases with ⟨hfits, hstated, hlow, -⟩ | ⟨hfits, hwraps, hlow, hhigh⟩
  · refine ⟨iff_of_true hstated hfits, iff_of_true (by omega) hfits, fun hnot => absurd hfits hnot,
      by omega, iff_of_true (by omega) hfits⟩
  · refine ⟨iff_of_false (by omega) hfits, iff_of_false (by omega) hfits, fun _ => hwraps,
      by omega, iff_of_false (by omega) hfits⟩

/-- A module header whose range reaches from -1 to the greatest signed 32-bit number: the size of
the uninitialised data comes out negative. -/
theorem bssSize_wraps :
    let file : List Byte := List.replicate 4 0 ++ littleEndian 4 0x84 ++ List.replicate 8 0 ++
      ImageHeader.expectedMagic ++ List.replicate 4 0 ++ littleEndian 4 0x1000 ++
      List.replicate 4 0 ++ littleEndian 4 0x80 ++ littleEndian 4 4 ++ List.replicate 92 0 ++
      ModuleHeader.expectedMagic ++ List.replicate 4 0 ++ littleEndian 4 0xffffffff ++
      littleEndian 4 0x7fffffff ++ List.replicate 12 0
    ∃ i, parse file = .ok i ∧ statedBss file = 0x80000000 ∧ i.bssSize = -0x80000000 ∧
      ¬ BssFits file ∧ i.memorySize < 0x80001000 := by
  intro file
  have hsome : (parse file).toOption.map bssSize = some (-0x80000000) := by decide +kernel
  have hstated : statedBss file = 0x80000000 := by decide +kernel
  have hsize : roundToPages (ImageHeader.read file).size = 0x1000 := by decide +kernel
  rcases eq_ok_of_map_toOption hsome with ⟨i, hparse, hbss⟩
  rcases bssSize_eq_stated_iff file i hparse with ⟨hexact, -, -, -, hroom⟩
  have hfits : ¬ BssFits file := by
    rw [← hexact]
    omega
  refine ⟨i, hparse, hstated, hbss, hfits, ?_⟩
  rw [← hroom, hsize, hstated] at hfits
  omega

/-! ## Copying -/

/-- A segment can be written to memory exactly if it does not reach past the end, unless memory
reaches the end of the address space. -/
theorem contains_segment {m : Memory} {s : Segment} (hoffset : s.offset < 0x100000000)
    (hsize : s.size < 0x100000000)
    (hfits : m.base.toNat + m.bytes.size < 0x10000000000000000) :
    m.contains (m.base + BitVec.ofNat 64 s.offset) (BitVec.ofNat 64 s.size) = true ↔
      s.stop ≤ m.bytes.size := by
  have hbase := m.base.isLt
  rw [Memory.contains_iff, BitVec.toNat_add, BitVec.toNat_ofNat, BitVec.toNat_ofNat, Segment.stop]
  omega

/-- **Copying segments**: all are copied if none reaches past the end of memory, which stays where
it is; otherwise the first that does cannot be written.

**Proof sketch.** By induction on the segments. A segment can be written exactly if it ends
inside memory (`contains_segment`), and writing it keeps the place and size of memory, so the
rest is measured against the same end. -/
theorem writeSegments_cases {segs : List Segment} {m : Memory}
    (hsegs : ∀ s ∈ segs, s.stop ≤ file.length ∧ s.offset < 0x100000000 ∧ s.size < 0x100000000)
    (hfits : m.base.toNat + m.bytes.size < 0x10000000000000000) :
    ((∀ s ∈ segs, s.stop ≤ m.bytes.size) ∧
      ∃ m', writeSegments file segs m = (m', .ok ()) ∧ m.Alike m') ∨
    ((∃ s ∈ segs, m.bytes.size < s.stop) ∧
      ∃ m' f, writeSegments file segs m = (m', .error (.memory f))) := by
  induction segs generalizing m with
  | nil => exact .inl ⟨by simp, m, rfl, .refl m⟩
  | cons s segs ih =>
    rw [List.forall_mem_cons] at hsegs
    rcases hsegs with ⟨⟨hinside, hoffset, hsize⟩, hrest⟩
    have hcontains := contains_segment (m := m) hoffset hsize hfits
    rw [writeSegments, Memory.write, Segment.length_bytes hinside]
    by_cases hstop : s.stop ≤ m.bytes.size
    · -- writing keeps the place and size of memory, so the rest is measured against the same end
      rw [if_pos (hcontains.2 hstop)]
      have halike := Memory.Alike.setBytesAt m
        (m.base + BitVec.ofNat 64 s.offset - m.base).toNat (s.bytes file)
      dsimp only
      rcases ih hrest (by rw [halike.base, halike.size]; exact hfits) with
        ⟨hall, m', hwrite, halike'⟩ | ⟨⟨t, ht, hpast⟩, hwrite⟩
      · refine .inl ⟨?_, m', hwrite, halike.trans halike'⟩
        rw [halike.size] at hall
        exact List.forall_mem_cons.2 ⟨hstop, hall⟩
      · rw [halike.size] at hpast
        exact .inr ⟨⟨t, List.mem_cons_of_mem s ht, hpast⟩, hwrite⟩
    · rw [if_neg (fun h => hstop (hcontains.1 h))]
      exact .inr ⟨⟨s, by simp, Nat.lt_of_not_le hstop⟩, m, _, rfl⟩

/-- The limit can be moved to any offset inside memory or to its end. -/
theorem protect_of_le {m : Memory} {offset : Nat} (hoffset : offset ≤ m.bytes.size)
    (hfits : m.base.toNat + m.bytes.size < 0x10000000000000000) :
    protect m (m.base + BitVec.ofNat 64 offset) =
      (m.limited (m.base + BitVec.ofNat 64 offset), .ok ()) := by
  rw [protect, Memory.setImmutableBelow_base_add hfits hoffset]

/-! ## Loading -/

/-- Memory of the size that an image asks for can be created at a base, and holds the image. -/
def Loads (i : Image) (base : Word) : Prop :=
  ∃ m m', Memory.create base i.memorySize = .ok m ∧ i.build m = (m', .ok ())

/-- The size that an image asks for is positive, and none of its segments reaches past it. -/
def Suffices (i : Image) : Prop :=
  0 < i.memorySize ∧ ∀ s ∈ i.segments, (s.stop : Int) ≤ i.memorySize

/-- **Building** an image in memory that has at least the size it asks for.

**Proof sketch.** Memory is large enough for the test that comes first, so building succeeds
or fails with the segments (`writeSegments_cases`). The limit that is set afterwards lies inside
memory, since the data ends there. -/
theorem Parsed.build_ok_iff (h : Parsed file i) {m : Memory} (hsize : i.memorySize ≤ m.bytes.size)
    (hnonneg : 0 ≤ i.memorySize) (hfits : m.base.toNat + m.bytes.size < 0x10000000000000000) :
    (∃ m', i.build m = (m', .ok ())) ↔ ∀ s ∈ i.segments, s.stop ≤ m.bytes.size := by
  have hroom : ¬ m.size < BitVec.ofInt 64 i.memorySize := by
    rw [BitVec.not_lt, BitVec.le_def, m.toNat_size, BitVec.toNat_ofInt]
    have hlt := m.size_lt
    omega
  have hsegs : ∀ s ∈ i.segments,
      s.stop ≤ i.file.length ∧ s.offset < 0x100000000 ∧ s.size < 0x100000000 := by
    intro s hs
    rw [h.file_eq]
    exact ⟨h.inside s hs, h.segment_lt hs⟩
  rw [build, if_neg hroom]
  rcases writeSegments_cases hsegs hfits with
    ⟨hall, m', hwrite, halike⟩ | ⟨⟨s, hs, hpast⟩, m', f, hwrite⟩
  · rw [hwrite]
    refine iff_of_true ?_ hall
    -- the limit is where the data starts, which is inside memory as the end of the data is
    have hdata : (ImageHeader.read file).data.stop ≤ m'.bytes.size := by
      rw [halike.size]
      exact hall _ (by simp [h.segments_eq])
    have hlimit : i.immutableSize = BitVec.ofNat 64 (ImageHeader.read file).data.offset := by
      rw [immutableSize, h.format]
    rw [hlimit]
    refine ⟨_, protect_of_le (Nat.le_trans (Nat.le_add_right _ _) hdata) ?_⟩
    rw [halike.base, halike.size]
    exact hfits
  · rw [hwrite]
    refine iff_of_false ?_ ?_
    · rintro ⟨m', hbuild⟩
      cases hbuild
    · intro hall
      exact absurd (hall s hs) (Nat.not_le_of_lt hpast)

/-- **Loading**: memory of the size that an image asks for can be created and holds it exactly if
that size suffices.

**Proof sketch.** The size asked for is a whole number of pages, so memory of this size is
created as it is, unless the size is not positive. What is left is `Parsed.build_ok_iff`. -/
theorem Parsed.loads_iff (h : Parsed file i) {base : Word}
    (hbase : base.toNat + i.memorySize < 0x10000000000000000) :
    i.Loads base ↔ i.Suffices := by
  rcases h.memorySize_pages with ⟨hpages, hsmall⟩
  have hround : 0 < i.memorySize → roundToPages i.memorySize = i.memorySize := by
    intro hpos
    exact roundToPages_of_mod (by omega) (by omega) hpages
  have hbuild : ∀ m, Memory.create base i.memorySize = .ok m → 0 < i.memorySize →
      ((∃ m', i.build m = (m', .ok ())) ↔ ∀ s ∈ i.segments, (s.stop : Int) ≤ i.memorySize) := by
    intro m hcreate hpos
    rcases Memory.create_eq_ok hcreate with ⟨-, hplace, -, hbytes⟩
    have hsize : (m.bytes.size : Int) = i.memorySize := by
      rw [hbytes, Array.size_replicate, hround hpos]
      omega
    rw [h.build_ok_iff (by omega) (by omega) (by rw [hplace]; omega)]
    refine forall₂_congr fun s hs => ?_
    omega
  constructor
  · rintro ⟨m, m', hcreate, hbuilt⟩
    have hpos : 0 < i.memorySize := (Memory.create_eq_ok hcreate).1
    exact ⟨hpos, (hbuild m hcreate hpos).1 ⟨m', hbuilt⟩⟩
  · rintro ⟨hpos, hall⟩
    rcases Memory.exists_create base hpos (by rw [hround hpos]; exact hpos) with ⟨m, hcreate⟩
    rcases (hbuild m hcreate hpos).2 hall with ⟨m', hbuilt⟩
    exact ⟨m, m', hcreate, hbuilt⟩

/-- **When the memory that an image asks for is enough.** Let an image with a header be accepted,
and let memory of the size it asks for lie inside the address space. That size is the size that the
header states and the size of the uninitialised data, each in whole pages. Memory of this size can
be created and holds the image if and only if the size is positive and no segment reaches past it.
As the text is not empty, this is so exactly if no segment reaches past it; it is so if no segment
reaches past the size that the header states and the uninitialised data has no negative size.

**Proof sketch.** A text is not empty, so a size that holds it is positive. If all segments
end within the size in the header, then that in whole pages holds them. -/
theorem loads_iff_suffices (file : List Byte) (i : Image) (h : parse file = .ok i) (base : Word)
    (hbase : base.toNat + i.memorySize < 0x10000000000000000) :
    let header := ImageHeader.read file
    i.segments = [header.text, header.readOnly, header.data] ∧
    i.memorySize =
      4096 * ((header.size + 4095) / 4096) + 4096 * (i.bssSize + 4095).tdiv 4096 ∧
    (i.Loads base ↔ i.Suffices) ∧
    (i.Suffices ↔ ∀ s ∈ i.segments, (s.stop : Int) ≤ i.memorySize) ∧
    ((∀ s ∈ i.segments, s.stop ≤ header.size) → 0 ≤ i.bssSize → i.Suffices) := by
  intro header
  have hparsed := parsed_of_parse h
  have hsize := hparsed.memorySize_eq
  have hsuffices : i.Suffices ↔ ∀ s ∈ i.segments, (s.stop : Int) ≤ i.memorySize := by
    refine ⟨fun hall => hall.2, fun hall => ⟨?_, hall⟩⟩
    -- the end of a text that is not empty is positive
    have htext := hall header.text (by simp [hparsed.segments_eq, header])
    have hne : header.text.size ≠ 0 := hparsed.text_ne
    unfold Segment.stop at htext
    omega
  refine ⟨hparsed.segments_eq, hsize, hparsed.loads_iff hbase, hsuffices, ?_⟩
  intro hall hbss
  rw [hsuffices]
  intro s hs
  have hstop : s.stop ≤ (ImageHeader.read file).size := hall s hs
  have hcut : (i.bssSize + 4095).tdiv 4096 = (i.bssSize + 4095) / 4096 :=
    Int.tdiv_eq_ediv_of_nonneg (by omega)
  rw [hsize, hcut]
  omega

/-- A header that states the size zero, over a text of one word: the image is accepted, and no
memory of the size it asks for can be created. -/
theorem loads_iff_suffices_zero :
    let file : List Byte := List.replicate 16 0 ++ ImageHeader.expectedMagic ++
      List.replicate 12 0 ++ littleEndian 4 0x80 ++ littleEndian 4 4 ++ List.replicate 92 0
    ∃ i, parse file = .ok i ∧ i.memorySize = 0 ∧ ¬ i.Suffices ∧ ¬ i.Loads 0x10000 := by
  intro file
  have hsome : (parse file).toOption.map memorySize = some 0 := by decide +kernel
  cases hparse : parse file with
  | error f =>
    rw [hparse] at hsome
    cases hsome
  | ok i =>
    rw [hparse] at hsome
    have hzero : i.memorySize = 0 := by simpa [Except.toOption] using hsome
    have hnot : ¬ i.Suffices := by
      rintro ⟨hpos, -⟩
      omega
    rcases loads_iff_suffices file i hparse 0x10000 (by rw [hzero]; decide) with ⟨-, -, hloads, -⟩
    exact ⟨i, rfl, hzero, hnot, fun h => hnot (hloads.1 h)⟩

end Image

end Dynarec
