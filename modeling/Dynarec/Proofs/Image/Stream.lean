import Dynarec.Engine.Run
import Dynarec.Proofs.Code.Assemble
import Dynarec.Proofs.Image.Contents

/-!
# Two ways to memory for a stream

A flat stream of words can be run in two ways. As an image it is built in memory of the size that it
asks for; as a list of words it is handed to an engine, which makes memory of its own. The two
compute sizes and bytes apart from each other. They succeed for the same streams and bases, and then
leave the same memory, so that every run comes out the same.

## Main results

* `Dynarec.Image.streamBytes_words` — the bytes of the words of a file.
* `Dynarec.Image.streamMemory_eq_ok_iff` — the two ways leave the same memory.
* `Dynarec.Image.loads_words_iff` — when memory for a stream can be had.
* `Dynarec.Image.loads_iff_create` — the two ways agree.
-/

set_option autoImplicit false

namespace Dynarec.Image

open Code (bind_eq_ok_iff)

variable {file : List Byte} {i : Image} {base : Word} {m m' : Memory}

/-! ## The bytes of a stream -/

/-- The bytes of the words of a file are the file.

**Proof sketch.** By induction on the words that are read: four bytes make a word, whose
bytes they are again, and a rest of less than four is empty. -/
theorem streamBytes_words {l : List Byte} (h : l.length % 4 = 0) :
    Engine.streamBytes (words l) = l := by
  fun_induction words l with
  | case1 a b c d rest ih =>
    have hrest : rest.length % 4 = 0 := by
      simp only [List.length_cons] at h
      omega
    have hword := littleEndian_opcode (l := [a, b, c, d]) rfl
    rw [Engine.streamBytes, List.flatMap_cons, hword, ← Engine.streamBytes, ih hrest]
    rfl
  | case2 l hshort =>
    have hlt : l.length < 4 := length_lt_of_short hshort
    have hempty : l = [] := List.length_eq_zero_iff.1 (by omega)
    rw [hempty]
    rfl

/-! ## The two ways -/

/-- A stream of words asks for the pages that it fills and one page more. -/
theorem memorySize_words :
    memorySize ⟨file, .words⟩ = wrapInt64 (roundToPages file.length + pageSize) := by
  have hpage : roundToPages pageSize = pageSize := by decide
  show wrapInt64 (roundToPages file.length + roundToPages pageSize) = _
  rw [hpage]

/-- Memory for a stream: the pages of the stream and one more are created. -/
theorem create_words_iff : Memory.create base (memorySize ⟨file, .words⟩) = .ok m ↔
    Memory.create base (roundToPages file.length + pageSize) = .ok m := by
  have hbounds := roundToPages_bounds file.length
  have hmod := roundToPages_mod file.length
  have hpage : (pageSize : Int) = 4096 := rfl
  rw [memorySize_words]
  exact Memory.create_wrapInt64 (by omega) (by omega)

/-- Memory that was created for a stream has the size that the stream asks for.

**Proof sketch.** The size asked for is positive, so the sum of the pages and one more has
not wrapped around, and it is a whole number of pages already. -/
theorem size_of_create (h : Memory.create base (memorySize ⟨file, .words⟩) = .ok m) :
    (m.bytes.size : Int) = roundToPages file.length + pageSize ∧
      memorySize ⟨file, .words⟩ = m.bytes.size := by
  have hbounds := roundToPages_bounds file.length
  have hmod := roundToPages_mod file.length
  have hpage : (pageSize : Int) = 4096 := rfl
  have hlt := wrapInt64_bounds (roundToPages file.length + pageSize)
  rcases wrapInt64_eq_add (roundToPages file.length + pageSize) with ⟨n, hn⟩
  rcases Memory.create_eq_ok h with ⟨hpos, -, -, hbytes⟩
  rw [memorySize_words] at hpos hbytes ⊢
  -- the sum is at most one past the range, where it would wrap around to a negative number
  have hsum : wrapInt64 (roundToPages file.length + pageSize) =
      roundToPages file.length + pageSize := by
    omega
  have hsize : (m.bytes.size : Int) = roundToPages file.length + pageSize := by
    rw [hbytes, Array.size_replicate, hsum, roundToPages_of_mod (by omega) (by omega) (by omega)]
    omega
  exact ⟨hsize, hsum.trans hsize.symm⟩

/-- Building a stream in memory of the size that it asks for: the file is copied to the base, and
its pages are made immutable.

**Proof sketch.** There is one segment, which is the whole file at offset zero, and the limit
is behind its pages. The first test of building passes, since the size of memory is the one asked
for. -/
theorem build_words_iff (h : Memory.create base (memorySize ⟨file, .words⟩) = .ok m) :
    build ⟨file, .words⟩ m = (m', .ok ()) ↔ ∃ m₁, m.write base file = .ok m₁ ∧
      m₁.setImmutableBelow (base + BitVec.ofInt 64 (roundToPages file.length)) = .ok m' := by
  have hroom : ¬ m.size < BitVec.ofInt 64 (memorySize ⟨file, .words⟩) := by
    rw [(size_of_create h).2, BitVec.ofInt_natCast]
    exact BitVec.lt_irrefl _
  have hbase : m.base = base := (Memory.create_eq_ok h).2.1
  have hbytes : Segment.bytes ⟨0, file.length⟩ file = file := by simp [Segment.bytes]
  have hstart : m.base + BitVec.ofNat 64 0 = base := by rw [hbase, BitVec.add_zero]
  rw [build_eq_ok_iff, and_iff_right hroom]
  refine exists_congr fun m₁ => ?_
  show writeSegments file [⟨0, file.length⟩] m = _ ∧ _ ↔ _
  rw [writeSegments_singleton, hbytes, hstart]
  refine and_congr_right fun hwrite => ?_
  rcases Memory.write_eq_ok_iff.1 hwrite with ⟨-, rfl⟩
  rw [← hbase]
  rfl

/-- Building leaves memory where it was created. -/
theorem base_of_build_words (h : Memory.create base (memorySize ⟨file, .words⟩) = .ok m)
    (hbuild : build ⟨file, .words⟩ m = (m', .ok ())) : m'.base = base := by
  rcases (build_words_iff h).1 hbuild with ⟨m₁, hwrite, hlimit⟩
  rcases Memory.write_eq_ok_iff.1 hwrite with ⟨-, rfl⟩
  rcases Memory.setImmutableBelow_eq_ok_iff.1 hlimit with ⟨-, -, rfl⟩
  exact (Memory.create_eq_ok h).2.1

/-- **The two ways leave the same memory**, whenever one of them succeeds.

**Proof sketch.** Both create memory of the same size (`create_words_iff`), copy the same
bytes to the base (`streamBytes_words`) and set the same limit (`build_words_iff`). -/
theorem streamMemory_eq_ok_iff (h : ofWords file = .ok i) :
    Engine.streamMemory base i.text = .ok m' ↔
      ∃ m, Memory.create base i.memorySize = .ok m ∧ i.build m = (m', .ok ()) := by
  rcases ofWords_eq_ok_iff.1 h with ⟨-, hmod, rfl⟩
  have hlength : ((text ⟨file, .words⟩).length * Guest.instructionSize : Int) = file.length := by
    show ((words file).length * 4 : Int) = _
    rw [length_words]
    omega
  have hbytes : Engine.streamBytes (text ⟨file, .words⟩) = file := streamBytes_words hmod
  rw [Engine.streamMemory]
  simp only [hlength, hbytes, bind_eq_ok_iff]
  refine exists_congr fun m => ?_
  rw [← create_words_iff]
  refine and_congr_right fun hcreate => ?_
  rw [build_words_iff hcreate]

/-! ## When memory for a stream can be had -/

/-- Memory of the size that a stream asks for holds it, if it ends before the address space does.

**Proof sketch.** The file fits into its pages, and the pages into memory, so it can be
written. The limit behind the pages lies in memory as well, which does not wrap around. -/
theorem exists_build_words (h : Memory.create base (memorySize ⟨file, .words⟩) = .ok m)
    (hpages : file.length ≤ roundToPages file.length)
    (hfits : base.toNat + m.bytes.size < 0x10000000000000000) :
    ∃ m', build ⟨file, .words⟩ m = (m', .ok ()) := by
  have hpage : (pageSize : Int) = 4096 := rfl
  have hbase : m.base = base := (Memory.create_eq_ok h).2.1
  have hsize := (size_of_create h).1
  have hlt := m.size_lt
  have hcontains : m.contains base (BitVec.ofNat 64 file.length) = true := by
    rw [Memory.contains_iff, hbase, BitVec.toNat_ofNat]
    omega
  let m₁ := m.setBytesAt (base - m.base).toNat file
  have hwrite : m.write base file = .ok m₁ := Memory.write_eq_ok_iff.2 ⟨hcontains, rfl⟩
  have halike : m.Alike m₁ := .setBytesAt ..
  -- the pages of the file are a natural number, as they hold it
  have hdistance : BitVec.ofInt 64 (roundToPages file.length) =
      BitVec.ofNat 64 (roundToPages file.length).toNat := by
    rw [← BitVec.ofInt_natCast, Int.toNat_of_nonneg (by omega)]
  have hlimit := Memory.setImmutableBelow_base_add (m := m₁) (k := (roundToPages file.length).toNat)
    (by rw [halike.base, halike.size, hbase]; exact hfits) (by rw [halike.size]; omega)
  rw [← hdistance, halike.base, hbase] at hlimit
  exact ⟨_, (build_words_iff h).2 ⟨m₁, hwrite, hlimit⟩⟩

/-- **When memory for a stream can be had**: the pages of the stream and one more are smaller than
half the address space, and end before its end.

**Proof sketch.** Memory that was built in does not reach the end of the address space
(`Accepted.built`), and its size is known (`size_of_create`). Conversely, such sizes do not wrap
around, so memory is created and built in (`exists_build_words`). -/
theorem loads_words_iff (h : ofWords file = .ok i) (hlength : file.length < 0x8000000000000000) :
    i.Loads base ↔ 4096 * ((file.length + 4095) / 4096) + 4096 < 0x8000000000000000 ∧
      base.toNat + (4096 * ((file.length + 4095) / 4096) + 4096) < 0x10000000000000000 := by
  have haccepted := (accepted_of_ofWords h).1
  rcases ofWords_eq_ok_iff.1 h with ⟨hne, -, rfl⟩
  have hpage : (pageSize : Int) = 4096 := rfl
  constructor
  · rintro ⟨m, m', hcreate, hbuild⟩
    have hbuilt := haccepted.built hlength hbuild
    have hfits := hbuilt.fits
    have hlt := m.size_lt
    have hbase : m'.base = base := hbuilt.base.trans (Memory.create_eq_ok hcreate).2.1
    have hsize := (size_of_create hcreate).1
    have hpages : roundToPages file.length = 4096 * ((file.length + 4095) / 4096) := by
      refine roundToPages_of_nonneg (by omega) ?_
      by_contra hwraps
      have hnegative : roundToPages file.length < -0x4000000000000000 :=
        roundToPages_of_wraps (by omega) (by omega)
      omega
    rw [hbuilt.size, hbase] at hfits
    omega
  · rintro ⟨hsmall, hfits⟩
    have hpages : roundToPages file.length = 4096 * ((file.length + 4095) / 4096) :=
      roundToPages_of_nonneg (by omega) (by omega)
    have hmemory : memorySize ⟨file, .words⟩ = roundToPages file.length + 4096 := by
      rw [memorySize_words, wrapInt64_eq_self (by omega) (by omega), hpage]
    have hpos : 0 < memorySize ⟨file, .words⟩ := by omega
    have hround : roundToPages (memorySize ⟨file, .words⟩) = memorySize ⟨file, .words⟩ :=
      roundToPages_of_mod (by omega) (by omega) (by omega)
    rcases Memory.exists_create base hpos (by omega) with ⟨m, hcreate⟩
    have hsize := (size_of_create hcreate).1
    rcases exists_build_words hcreate (by omega) (by omega) with ⟨m', hbuild⟩
    exact ⟨m, m', hcreate, hbuild⟩

/-! ## Engines -/

/-- An engine can be created for a stream, with memory of its own, if that memory can be. -/
theorem create_stream_iff {text : List Opcode} {maxBlocks : Int} {e : Engine} :
    Engine.create text none (some base) maxBlocks = .ok e ↔
      ∃ m, Engine.streamMemory base text = .ok m ∧
        e = { text, loadBias := base, memory := m, maxBlocks } := by
  rw [Engine.create]
  simp only [bind_eq_ok_iff, Option.getD_some, Except.ok.injEq]
  exact exists_congr fun m => and_congr_right fun _ => eq_comm

/-- **The two ways to memory for a stream agree.** Let a file be not empty and made of whole words.
It is accepted as a flat stream. At any base, memory of the size that the image asks for can be
created and the image built in it if and only if an engine for its words can make memory of its own
there; that is so exactly if the pages of the file and one more are smaller than half the address
space and end before its end. Whatever the two ways leave is then the same memory: it has the same
base, bytes and limit, and a run of the stream over the one gives what a run over the other gives
if both start from the same registers.

**Proof sketch.** Creating an engine without memory makes memory for its stream, which comes
to what creating and building does (`streamMemory_eq_ok_iff`). The engines are then equal but for
how they came about, so their runs are as well. -/
theorem loads_iff_create [Guest.Disassembler] (file : List Byte) (hne : file ≠ [])
    (hwords : file.length % 4 = 0) :
    ∃ i, ofWords file = .ok i ∧ ∀ (base : Word) (maxBlocks : Int),
      (i.Loads base ↔ ∃ e, Engine.create i.text none (some base) maxBlocks = .ok e) ∧
      (file.length < 0x8000000000000000 → (i.Loads base ↔
        4096 * ((file.length + 4095) / 4096) + 4096 < 0x8000000000000000 ∧
          base.toNat + (4096 * ((file.length + 4095) / 4096) + 4096) < 0x10000000000000000)) ∧
      ∀ m m' e, Memory.create base i.memorySize = .ok m → i.build m = (m', .ok ()) →
        Engine.create i.text none (some base) maxBlocks = .ok e →
        (e.memory.base = m'.base ∧ e.memory.bytes = m'.bytes ∧
          e.memory.writableStart = m'.writableStart) ∧
        ∀ loadBias e', loadBias = none ∨ loadBias = some base →
          Engine.create i.text (some m') loadBias maxBlocks = .ok e' →
          ∀ (registers : Registers) fuel cancellation entry,
            (e'.setRegisters registers).run fuel cancellation entry =
              (e.setRegisters registers).run fuel cancellation entry := by
  have haccepted : ofWords file = .ok ⟨file, .words⟩ := ofWords_eq_ok_iff.2 ⟨hne, hwords, rfl⟩
  refine ⟨_, haccepted, fun base maxBlocks => ⟨?_, loads_words_iff haccepted, ?_⟩⟩
  · constructor
    · rintro ⟨m, m', hcreate, hbuild⟩
      have hstream := (streamMemory_eq_ok_iff haccepted).2 ⟨m, hcreate, hbuild⟩
      exact ⟨_, create_stream_iff.2 ⟨m', hstream, rfl⟩⟩
    · rintro ⟨e, he⟩
      rcases create_stream_iff.1 he with ⟨m', hstream, -⟩
      rcases (streamMemory_eq_ok_iff haccepted).1 hstream with ⟨m, hcreate, hbuild⟩
      exact ⟨m, m', hcreate, hbuild⟩
  · intro m m' e hcreate hbuild he
    have hstream := (streamMemory_eq_ok_iff haccepted).2 ⟨m, hcreate, hbuild⟩
    rcases create_stream_iff.1 he with ⟨m'', hstream', rfl⟩
    cases hstream.symm.trans hstream'
    have hbase : m'.base = base := base_of_build_words hcreate hbuild
    refine ⟨⟨rfl, rfl, rfl⟩, ?_⟩
    intro loadBias e' hbias he' registers fuel cancellation entry
    have hbias' : loadBias.getD m'.base = base := by
      rcases hbias with rfl | rfl
      · exact hbase
      · rfl
    cases he'
    rw [hbias']

/-- A stream of one word takes two pages: they can be had by both ways in the usual place, and by
neither where they would end with the address space. -/
theorem loads_iff_create_one_word :
    let _ : Guest.Disassembler := .least
    let file := littleEndian 4 0xd65f03c0
    ∃ i, ofWords file = .ok i ∧
      (i.Loads 0x10000 ∧ ∃ e, Engine.create i.text none (some 0x10000) 0 = .ok e) ∧
      ¬ i.Loads 0xffffffffffffe000 ∧
        ¬ ∃ e, Engine.create i.text none (some 0xffffffffffffe000) 0 = .ok e := by
  intro _ file
  rcases loads_iff_create file (by decide) (by decide) with ⟨i, haccepted, hall⟩
  rcases hall 0x10000 0 with ⟨hsame, hexact, -⟩
  rcases hall 0xffffffffffffe000 0 with ⟨hsame', hexact', -⟩
  have hloads : i.Loads 0x10000 := (hexact (by decide)).2 (by decide)
  have hnot : ¬ i.Loads 0xffffffffffffe000 := by
    rw [hexact' (by decide)]
    decide
  exact ⟨i, haccepted, ⟨hloads, hsame.1 hloads⟩, hnot, fun he => hnot (hsame'.2 he)⟩

end Dynarec.Image
