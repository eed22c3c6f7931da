import Dynarec.Guest.Step
import Dynarec.Proofs.Image

/-!
# What building an image leaves in memory

Building an image copies its segments, one after another, each to the offset that it has in the
file. Wherever they lie, and however they overlap, a byte of memory is then the byte of the file at
the same offset if some segment covers it, and what it was before otherwise. So the words that guest
code loads from the text are the words that are translated.

## Main definitions

* `Dynarec.Segment.Covers`, `Dynarec.Image.Covers` — the offsets of a segment and of an image.
* `Dynarec.Image.textSegment` — where the words of the program lie.
* `Dynarec.Image.Accepted` — what is known of an accepted image of either format.
* `Dynarec.Image.Built` — what is known of memory that an image was built in.

## Main results

* `Dynarec.Image.accepted_of_read` — what is accepted.
* `Dynarec.Image.writeSegments_eq_ok` — what copying segments leaves.
* `Dynarec.Image.Accepted.built` — what building an image leaves.
* `Dynarec.Image.build_contents` — the bytes and words of memory that an image was built in.
-/

set_option autoImplicit false

namespace Dynarec

/-! ## Words -/

/-- Bytes are those of the number that they spell. -/
theorem littleEndian_ofLittleEndian (l : List Byte) :
    littleEndian l.length (ofLittleEndian l) = l := by
  induction l with
  | nil => rfl
  | cons b l ih =>
    have hb := b.isLt
    have hbyte : BitVec.ofNat 8 (b.toNat + 256 * ofLittleEndian l) = b := by
      apply BitVec.eq_of_toNat_eq
      rw [BitVec.toNat_ofNat]
      omega
    have hrest : (b.toNat + 256 * ofLittleEndian l) / 256 = ofLittleEndian l := by omega
    rw [List.length_cons, ofLittleEndian, littleEndian, hbyte, hrest, ih]

/-- Four bytes are those of the instruction word that they spell. -/
theorem littleEndian_opcode {l : List Byte} (h : l.length = 4) :
    littleEndian 4 (BitVec.ofNat 32 (ofLittleEndian l)).toNat = l := by
  have hlt : ofLittleEndian l < 0x100000000 := by
    have hlt := ofLittleEndian_lt l
    rw [h] at hlt
    exact hlt
  rw [BitVec.toNat_ofNat, Nat.mod_eq_of_lt hlt, ← h, littleEndian_ofLittleEndian]

namespace Image

/-- Bytes that do not start with a word are fewer than four. -/
theorem length_lt_of_short {l : List Byte}
    (h : ∀ a b c d rest, l = a :: b :: c :: d :: rest → False) : l.length < 4 := by
  rcases l with _ | ⟨a, _ | ⟨b, _ | ⟨c, _ | ⟨d, rest⟩⟩⟩⟩
  · simp
  · simp
  · simp
  · simp
  · exact absurd rfl (h a b c d rest)

/-- There are a quarter as many words as bytes, rounded down: what is left over at the end is no
word. -/
theorem length_words (l : List Byte) : (words l).length = l.length / 4 := by
  fun_induction words l with
  | case1 a b c d rest ih =>
    simp only [List.length_cons, ih]
    omega
  | case2 l hshort => exact (Nat.div_eq_of_lt (length_lt_of_short hshort)).symm

/-- The bytes of a word, where it was read. -/
theorem take_drop_of_words {l : List Byte} {j : Nat} {w : Opcode} (h : (words l)[j]? = some w) :
    (l.drop (4 * j)).take 4 = littleEndian 4 w.toNat := by
  fun_induction words l generalizing j with
  | case1 a b c d rest ih =>
    cases j with
    | zero =>
      cases h
      exact (littleEndian_opcode rfl).symm
    | succ j => exact ih h
  | case2 l hshort => cases h

end Image

/-! ## Segments -/

namespace Segment

/-- The offsets of a segment. -/
def Covers (s : Segment) (k : Nat) : Prop :=
  s.offset ≤ k ∧ k < s.stop

/-- Whether a segment covers an offset is a comparison of numbers. -/
instance (s : Segment) (k : Nat) : Decidable (s.Covers k) :=
  inferInstanceAs (Decidable (_ ∧ _))

/-- A byte of a segment is the byte of the file at the same offset. -/
theorem getElem?_bytes {s : Segment} {k : Nat} (file : List Byte) (h : s.Covers k) :
    (s.bytes file)[k - s.offset]? = file[k]? := by
  rcases h with ⟨hlow, hhigh⟩
  unfold stop at hhigh
  rw [bytes, List.getElem?_take_of_lt (by omega), List.getElem?_drop, Nat.add_sub_cancel' hlow]

end Segment

namespace Image

variable {file : List Byte} {i : Image} {m m' : Memory}

/-- Some segment of the image covers an offset. -/
def Covers (i : Image) (k : Nat) : Prop :=
  ∃ s ∈ i.segments, s.Covers k

/-- An image has finitely many segments, so whether any covers an offset can be computed. -/
instance (i : Image) (k : Nat) : Decidable (i.Covers k) :=
  inferInstanceAs (Decidable (∃ s ∈ i.segments, s.Covers k))

/-- Where the words of the program lie. -/
def textSegment (i : Image) : Segment where
  offset := i.textOffset
  size := 4 * i.text.length

/-- Where the words of the program end. -/
theorem textSegment_stop (i : Image) : i.textSegment.stop = i.textOffset + 4 * i.text.length := rfl

/-! ## Accepted images -/

/-- An image that was read from a file in either format: its segments lie inside the file, and the
first of them is the text, which is not empty and made of the words of the program. -/
structure Accepted (file : List Byte) (i : Image) : Prop where
  file_eq : i.file = file
  inside : ∀ s ∈ i.segments, s.stop ≤ file.length
  segments : ∃ rest, i.segments = i.textSegment :: rest
  text : i.text = words (i.textSegment.bytes file)
  text_pos : 0 < i.text.length

/-- An image that was parsed is accepted: its text is the first segment, with as many words as its
header says.

**Proof sketch.** Parsing has checked that the segments lie inside the file and that the size of
the text is a multiple of four that is not zero, so the words that were read fill the segment
exactly. -/
theorem Parsed.accepted (h : Parsed file i) : Accepted file i := by
  have hmem : (ImageHeader.read file).text ∈ i.segments := by simp [h.segments_eq]
  have htext : i.text = words ((ImageHeader.read file).text.bytes file) := by
    rw [text, h.format, h.file_eq]
  have hoffset : i.textOffset = (ImageHeader.read file).text.offset := by
    rw [textOffset, h.format]
  have hlength : 4 * i.text.length = (ImageHeader.read file).text.size := by
    have hmod := h.text_mod
    rw [htext, length_words, Segment.length_bytes (h.inside _ hmem)]
    omega
  have hsegment : i.textSegment = (ImageHeader.read file).text := by
    rw [textSegment, hoffset, hlength]
  refine ⟨h.file_eq, h.inside, ?_, ?_, ?_⟩
  · rw [hsegment, h.segments_eq]
    exact ⟨_, rfl⟩
  · rw [hsegment, ← htext]
  · have hne := h.text_ne
    omega

/-- A stream of words is read from a file that is not empty and whose length is a multiple of
four.

**Proof sketch.** The two tests of the reader, and what it returns behind them. -/
theorem ofWords_eq_ok_iff :
    ofWords file = .ok i ↔ file ≠ [] ∧ file.length % 4 = 0 ∧ i = ⟨file, .words⟩ := by
  rw [ofWords]
  split
  · rename_i hnot
    rw [List.isEmpty_iff] at hnot
    refine iff_of_false nofun ?_
    rintro ⟨hne, hmod, -⟩
    exact hnot.elim hne (absurd hmod)
  · rename_i hwords
    rw [not_or, not_not, List.isEmpty_iff] at hwords
    constructor
    · intro h
      cases h
      exact ⟨hwords.1, hwords.2, rfl⟩
    · rintro ⟨-, -, rfl⟩
      rfl

/-- A stream of words is accepted: its only segment is the whole file. -/
theorem accepted_of_ofWords (h : ofWords file = .ok i) :
    Accepted file i ∧ i = ⟨file, .words⟩ ∧ file.length % 4 = 0 := by
  rcases ofWords_eq_ok_iff.1 h with ⟨hne, hmod, rfl⟩
  have hpos : 0 < file.length := List.length_pos_iff.2 hne
  have hlength : 4 * (words file).length = file.length := by
    rw [length_words]
    omega
  refine ⟨⟨rfl, ?_, ?_, ?_, ?_⟩, rfl, hmod⟩
  · simp [Image.segments, Segment.stop]
  · exact ⟨[], by simp [Image.segments, textSegment, textOffset, text, hlength]⟩
  · simp [textSegment, textOffset, text, hlength, Segment.bytes]
  · show 0 < (words file).length
    omega

/-- The text is one of the segments. -/
theorem Accepted.textSegment_mem (h : Accepted file i) : i.textSegment ∈ i.segments := by
  rcases h.segments with ⟨rest, hrest⟩
  rw [hrest]
  exact List.mem_cons_self

/-- **What is accepted**, in either format. -/
theorem accepted_of_read {raw : Bool} (h : read file raw = .ok i) : Accepted file i := by
  cases raw with
  | true => exact (accepted_of_ofWords h).1
  | false => exact (parsed_of_parse h).accepted

/-! ## Copying -/

/-- Copying one segment: it fits into memory, and its bytes are now those of the file.

**Proof sketch.** The file has all bytes of the segment, so as many are written as the
segment is long. Memory has room for them behind its base, and overwriting is known byte by byte
(`Memory.getElem?_overwrite`). -/
theorem write_segment {s : Segment} (hinside : s.stop ≤ file.length)
    (hsmall : s.stop < 0x10000000000000000)
    (h : m.write (m.base + BitVec.ofNat 64 s.offset) (s.bytes file) = .ok m') :
    s.stop ≤ m.bytes.size ∧ m.Alike m' ∧
      ∀ k, m'.bytes[k]? = if s.Covers k then file[k]? else m.bytes[k]? := by
  have hlength := Segment.length_bytes hinside
  unfold Segment.stop at hsmall
  have hposition : (m.base + BitVec.ofNat 64 s.offset - m.base).toNat = s.offset :=
    Memory.toNat_base_add_sub (by omega)
  rw [Memory.write_eq_ok_iff, hlength, hposition] at h
  rcases h with ⟨hcontains, rfl⟩
  have hstop : s.offset + s.size ≤ m.bytes.size := by
    have hword := m.base.isLt
    rw [Memory.contains_iff, BitVec.toNat_add, BitVec.toNat_ofNat, BitVec.toNat_ofNat] at hcontains
    omega
  refine ⟨hstop, .setBytesAt .., fun k => ?_⟩
  show (Memory.overwrite m.bytes s.offset (s.bytes file))[k]? = _
  rw [Memory.getElem?_overwrite _ _ _ _ (by rw [hlength]; exact hstop), hlength]
  by_cases hcovers : s.Covers k
  · rw [if_pos hcovers, ← Segment.getElem?_bytes file hcovers]
    exact if_pos hcovers
  · rw [if_neg hcovers]
    exact if_neg hcovers

/-- Copying one segment is one write. -/
theorem writeSegments_singleton {s : Segment} : writeSegments file [s] m = (m', .ok ()) ↔
    m.write (m.base + BitVec.ofNat 64 s.offset) (s.bytes file) = .ok m' := by
  rw [writeSegments]
  cases hwrite : m.write (m.base + BitVec.ofNat 64 s.offset) (s.bytes file) with
  | error f => simp
  | ok m₁ => simp [writeSegments]

/-- **Copying segments**: they fit into memory, and the bytes that any of them covers are now those
of the file.

**Proof sketch.** By induction on the segments. The bytes of a segment go to the offsets that they
have in the file, so a segment that is copied later can only write again what is there. -/
theorem writeSegments_eq_ok {segs : List Segment}
    (hsegs : ∀ s ∈ segs, s.stop ≤ file.length ∧ s.stop < 0x10000000000000000)
    (h : writeSegments file segs m = (m', .ok ())) :
    (∀ s ∈ segs, s.stop ≤ m.bytes.size) ∧ m.Alike m' ∧
      ∀ k, m'.bytes[k]? = if ∃ s ∈ segs, s.Covers k then file[k]? else m.bytes[k]? := by
  induction segs generalizing m with
  | nil =>
    cases h
    exact ⟨by simp, .refl _, by simp⟩
  | cons s segs ih =>
    rw [List.forall_mem_cons] at hsegs
    rcases hsegs with ⟨⟨hinside, hsmall⟩, hrest⟩
    rw [writeSegments] at h
    cases hwrite : m.write (m.base + BitVec.ofNat 64 s.offset) (s.bytes file) with
    | error f =>
      rw [hwrite] at h
      cases h
    | ok m₁ =>
      rw [hwrite] at h
      rcases write_segment hinside hsmall hwrite with ⟨hstop, halike, hbytes⟩
      rcases ih hrest h with ⟨hstops, halike', hbytes'⟩
      rw [halike.size] at hstops
      refine ⟨List.forall_mem_cons.2 ⟨hstop, hstops⟩, halike.trans halike', fun k => ?_⟩
      rw [hbytes', hbytes]
      by_cases hcovers : s.Covers k <;> by_cases hlater : ∃ s ∈ segs, s.Covers k <;>
        simp [hcovers, hlater]

/-! ## Building -/

/-- Building copies the segments and then moves the limit, if memory is large enough.

**Proof sketch.** Each of the three things that building does can fail, and then building
fails. -/
theorem build_eq_ok_iff : i.build m = (m', .ok ()) ↔
    ¬ m.size < BitVec.ofInt 64 i.memorySize ∧
      ∃ m₁, writeSegments i.file i.segments m = (m₁, .ok ()) ∧
        m₁.setImmutableBelow (m₁.base + i.immutableSize) = .ok m' := by
  rw [build]
  by_cases hroom : m.size < BitVec.ofInt 64 i.memorySize
  · rw [if_pos hroom]
    exact iff_of_false (by simp) fun h => h.1 hroom
  · rw [if_neg hroom]
    rcases hwrite : writeSegments i.file i.segments m with ⟨m₁, f | _⟩
    · refine iff_of_false (by simp) ?_
      rintro ⟨-, m₂, hwrite', -⟩
      cases hwrite'
    · dsimp only
      rw [protect]
      constructor
      · intro h
        split at h
        · rename_i m₂ hlimit
          cases h
          exact ⟨hroom, m₁, rfl, hlimit⟩
        · cases h
      · rintro ⟨-, m₂, hwrite', hlimit⟩
        cases hwrite'
        rw [hlimit]

/-- Memory that an image was built in: it lies where it lay, short of the end of the address space,
with the limit at the given distance from its base, and the bytes that the image covers are those of
the file. -/
structure Built (i : Image) (m m' : Memory) : Prop where
  inside : ∀ s ∈ i.segments, s.stop ≤ m'.bytes.size
  base : m'.base = m.base
  size : m'.bytes.size = m.bytes.size
  sound : m'.Sound
  fits : m'.base.toNat + m'.bytes.size < 0x10000000000000000
  limit : m'.writableStart.toNat = m'.base.toNat + i.immutableSize.toNat
  limit_le : i.immutableSize.toNat ≤ m'.bytes.size
  bytes : ∀ k, m'.bytes[k]? = if i.Covers k then i.file[k]? else m.bytes[k]?

/-- A limit that memory accepts at a distance from its base lies inside it or at its end, and memory
ends short of the end of the address space. -/
theorem limit_of_setImmutableBelow {distance : Word}
    (h : m.setImmutableBelow (m.base + distance) = .ok m') :
    m.base.toNat + m.bytes.size < 0x10000000000000000 ∧ distance.toNat ≤ m.bytes.size ∧
      (m.base + distance).toNat = m.base.toNat + distance.toNat := by
  rcases Memory.setImmutableBelow_eq_ok_iff.1 h with ⟨hlow, hhigh, -⟩
  have hlt := m.size_lt
  have hbase := m.base.isLt
  have hdistance := distance.isLt
  rw [m.toNat_stop] at hhigh
  rw [BitVec.toNat_add] at hlow hhigh ⊢
  omega

/-- **What building an image leaves.**

**Proof sketch.** The segments have been written one after the other, each over those before
(`writeSegments_eq_ok`). Memory is not closed, as it holds the text, and setting a limit keeps
all bytes (`limit_of_setImmutableBelow`). -/
theorem Accepted.built (h : Accepted file i) (hlength : file.length < 0x8000000000000000)
    (hbuild : i.build m = (m', .ok ())) : Built i m m' := by
  rcases build_eq_ok_iff.1 hbuild with ⟨-, m₁, hwrite, hlimit⟩
  have hsegs : ∀ s ∈ i.segments, s.stop ≤ i.file.length ∧ s.stop < 0x10000000000000000 := by
    intro s hs
    have hinside := h.inside s hs
    rw [h.file_eq]
    omega
  rcases writeSegments_eq_ok hsegs hwrite with ⟨hstops, halike, hbytes⟩
  have hopen : m₁.bytes.size ≠ 0 := by
    -- memory holds the text, which is not empty
    have htext := hstops _ h.textSegment_mem
    have hpos := h.text_pos
    rw [textSegment_stop] at htext
    rw [halike.size]
    omega
  rcases limit_of_setImmutableBelow hlimit with ⟨hfits, hle, haddress⟩
  have hplaced : m'.Placed := .setImmutableBelow hlimit
  rcases Memory.setImmutableBelow_eq_ok_iff.1 hlimit with ⟨-, -, rfl⟩
  refine ⟨?_, halike.base, halike.size, ⟨hplaced, hopen, Nat.le_of_lt hfits⟩, hfits, haddress, hle,
    hbytes⟩
  intro s hs
  rw [Memory.limited_bytes, halike.size]
  exact hstops s hs

/-! ## Contents -/

/-- In memory that an image was built in, the bytes of a segment are those of the file.

**Proof sketch.** All offsets in between are covered by the segment, so each of these bytes
is that of the file. -/
theorem Built.bytesAt_segment (h : Built i m m') {s : Segment} (hs : s ∈ i.segments) {k n : Nat}
    (hlow : s.offset ≤ k) (hhigh : k + n ≤ s.stop) (hinside : s.stop ≤ i.file.length) :
    m'.bytesAt k n = (i.file.drop k).take n := by
  have hlength : ((i.file.drop k).take n).length = n := by
    rw [List.length_take, List.length_drop]
    omega
  have hbyte : ∀ j < ((i.file.drop k).take n).length,
      m'.bytes[k + j]? = ((i.file.drop k).take n)[j]? := by
    intro j hj
    rw [hlength] at hj
    have hcovers : i.Covers (k + j) := ⟨s, hs, by omega, by omega⟩
    rw [h.bytes, if_pos hcovers, List.getElem?_take_of_lt hj, List.getElem?_drop]
  have hbytes := Memory.bytesAt_eq hbyte
  rw [hlength] at hbytes
  exact hbytes

/-- The bytes of a word of the program, in the file and in memory that the image was built in.

**Proof sketch.** The text is a segment of the file, and its words are read four bytes at a
time (`take_drop_of_words`). -/
theorem Built.bytesAt_text (h : Built i m m') (haccepted : Accepted file i) {j : Nat} {w : Opcode}
    (hw : i.text[j]? = some w) : i.textOffset + 4 * j + 4 ≤ m'.bytes.size ∧
      m'.bytesAt (i.textOffset + 4 * j) 4 = littleEndian 4 w.toNat := by
  have hj : j < i.text.length := (List.getElem?_eq_some_iff.1 hw).1
  have hmem := haccepted.textSegment_mem
  have hroom := h.inside _ hmem
  have hinside := haccepted.inside _ hmem
  have hbytes : m'.bytesAt (i.textOffset + 4 * j) 4 = (i.file.drop (i.textOffset + 4 * j)).take 4 :=
    h.bytesAt_segment hmem (Nat.le_add_right _ _) (by rw [textSegment_stop]; omega)
      (by rw [haccepted.file_eq]; exact hinside)
  rw [haccepted.text] at hw
  have hword := take_drop_of_words hw
  rw [Segment.bytes, List.drop_take, List.take_take, List.drop_drop] at hword
  rw [textSegment_stop] at hroom
  refine ⟨by omega, ?_⟩
  rw [hbytes, haccepted.file_eq, ← hword]
  show _ = List.take (min 4 (4 * i.text.length - 4 * j)) _
  rw [Nat.min_eq_left (by omega)]
  rfl

/-- **What memory holds after an image was built in it.** Let an image be accepted in either format,
and let it be built in memory that was just created. Memory is then where it was created. The byte
at every offset that a segment covers, of which a flat stream has one that covers all of the file,
is the byte of the file at that offset, whether or not other segments cover it, too; every other
byte is zero. The words of the program fill the text: each of them has its bytes, in order, from its
own offset on. So what a guest load of four bytes gives at the place of an instruction is the word
there that is translated.

**Proof sketch.** Building has copied the segments in order (`Accepted.built`), so an offset
that some segment covers has the byte of the file, and any other has still the zero it was
created with. The words of the program are those bytes, four at a time (`Built.bytesAt_text`). -/
theorem build_contents (file : List Byte) (raw : Bool) (i : Image) (h : read file raw = .ok i)
    (hlength : file.length < 0x8000000000000000) (base : Word) (size : Int) (m m' : Memory)
    (hcreate : Memory.create base size = .ok m) (hbuild : i.build m = (m', .ok ())) :
    (m'.base = base ∧ m'.bytes.size = m.bytes.size) ∧
    (raw = true → ∀ k < file.length, i.Covers k) ∧
    (∀ k, i.Covers k → ∃ b, file[k]? = some b ∧ m'.read (base + BitVec.ofNat 64 k) 1 = .ok [b]) ∧
    (∀ k < m'.bytes.size, ¬ i.Covers k → m'.read (base + BitVec.ofNat 64 k) 1 = .ok [0]) ∧
    (∃ rest, i.segments = i.textSegment :: rest) ∧
    (∀ j w, i.text[j]? = some w →
      m'.read (base + BitVec.ofNat 64 (i.textOffset + 4 * j)) 4 = .ok (littleEndian 4 w.toNat)) ∧
    ∀ offset w, Guest.wordAt? i.text offset = some w → ∀ s : Guest.State, s.memory = m' →
      let address := base + BitVec.ofNat 64 i.textOffset + offset
      s.mayLoad address 4 = true ∧ s.loaded address 4 = w.setWidth 64 := by
  have haccepted := accepted_of_read h
  have hbuilt := haccepted.built hlength hbuild
  rcases Memory.create_eq_ok hcreate with ⟨-, hplace, -, hzero⟩
  have hfits := Nat.le_of_lt hbuilt.fits
  have hbase : m'.base = base := hbuilt.base.trans hplace
  rw [← hbase]
  refine ⟨⟨rfl, hbuilt.size⟩, ?_, ?_, ?_, haccepted.segments, ?_, ?_⟩
  · rintro rfl k hk
    rcases accepted_of_ofWords h with ⟨-, rfl, -⟩
    exact ⟨_, List.mem_singleton_self _, Nat.zero_le k, by simpa [Segment.stop] using hk⟩
  · intro k hcovers
    rcases id hcovers with ⟨s, hs, -, hk⟩
    have hinside := haccepted.inside s hs
    refine ⟨file[k], List.getElem?_eq_getElem (by omega), Memory.read_byte hfits ?_⟩
    rw [hbuilt.bytes, if_pos hcovers, haccepted.file_eq, List.getElem?_eq_getElem (by omega)]
  · intro k hk hcovers
    refine Memory.read_byte hfits ?_
    rw [hbuilt.size, hzero, Array.size_replicate] at hk
    rw [hbuilt.bytes, if_neg hcovers, hzero, Array.getElem?_replicate, if_pos hk]
  · intro j w hw
    rcases hbuilt.bytesAt_text haccepted hw with ⟨hroom, hbytes⟩
    rw [← hbytes]
    exact Memory.read_base_add hfits (by decide) hroom
  · rintro offset w hw s rfl address
    unfold Guest.wordAt? Guest.instructionSize at hw
    split at hw
    · rename_i haligned
      rcases hbuilt.bytesAt_text haccepted hw with ⟨hroom, hbytes⟩
      have haddress : address =
          s.memory.base + BitVec.ofNat 64 (i.textOffset + 4 * (offset.toNat / 4)) := by
        have hoffset : 4 * (offset.toNat / 4) = offset.toNat := by omega
        rw [hoffset, BitVec.ofNat_add, BitVec.ofNat_toNat, BitVec.setWidth_eq, ← BitVec.add_assoc]
      have hlt := s.memory.size_lt
      rw [Guest.State.loaded, haddress, Memory.toNat_base_add_sub (by omega), hbytes,
        ofLittleEndian_littleEndian, Nat.mod_eq_of_lt w.isLt, BitVec.ofNat_toNat]
      exact ⟨Memory.contains_base_add hfits (by decide) hroom, rfl⟩
    · cases hw

/-- Three segments, each of which overlaps the others: the second word of the text is still where it
is translated from. -/
theorem build_contents_overlapping :
    let file : List Byte := List.replicate 16 0 ++ ImageHeader.expectedMagic ++
      List.replicate 4 0 ++ littleEndian 4 0x1000 ++ List.replicate 4 0 ++
      littleEndian 4 0x80 ++ littleEndian 4 8 ++ littleEndian 4 0x84 ++ littleEndian 4 8 ++
      littleEndian 4 0x82 ++ littleEndian 4 0xe ++ List.replicate 72 0 ++
      littleEndian 4 0xd503201f ++ littleEndian 4 0xd65f03c0 ++ List.replicate 8 7
    ∃ i m m', read file false = .ok i ∧ Memory.create 0x10000 4096 = .ok m ∧
      i.build m = (m', .ok ()) ∧
      m'.read (0x10000 + BitVec.ofNat 64 (i.textOffset + 4 * 1)) 4 =
        .ok (littleEndian 4 0xd65f03c0) := by
  intro file
  have hsome : (read file false).toOption.map (fun i => (i.memorySize, i.segments, i.text)) =
      some (4096, [⟨0x80, 8⟩, ⟨0x84, 8⟩, ⟨0x82, 0xe⟩], [0xd503201f, 0xd65f03c0]) := by
    decide +kernel
  have hlength : file.length < 0x8000000000000000 := by decide +kernel
  clear_value file
  rcases eq_ok_of_map_toOption hsome with ⟨i, hread, hfacts⟩
  simp only [Prod.mk.injEq] at hfacts
  rcases hfacts with ⟨hsize, hsegments, htext⟩
  have hsuffices : i.Suffices := by
    rw [Suffices, hsize, hsegments]
    decide
  have hloads : i.Loads 0x10000 :=
    ((parsed_of_parse hread).loads_iff (by rw [hsize]; decide)).2 hsuffices
  rcases hloads with ⟨m, m', hcreate, hbuild⟩
  rw [hsize] at hcreate
  refine ⟨i, m, m', hread, hcreate, hbuild, ?_⟩
  rcases build_contents file false i hread hlength 0x10000 4096 m m' hcreate hbuild
    with ⟨-, -, -, -, -, hwords, -⟩
  exact hwords 1 0xd65f03c0 (by rw [htext]; rfl)

end Image

end Dynarec
