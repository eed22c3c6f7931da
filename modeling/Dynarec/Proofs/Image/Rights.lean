import Dynarec.Proofs.Engine.Protection
import Dynarec.Proofs.Image.Contents

/-!
# What guest code may change in an image

An executable is placed as its header says, and memory is then immutable up to the start of the
data. Nothing asks that the data come after the text and the read-only data. Where it does, or where
there is no data as in a flat stream, guest code cannot change them; where it does not, what lies at
or behind the start of the data can be changed.

## Main definitions

* `Dynarec.Image.constantSegments`, `Dynarec.Image.dataSegments` — what guest code is not to change,
  and what it is to change.
* `Dynarec.Image.DataLast` — the data comes after all that is constant.

## Main results

* `Dynarec.Image.lt_immutableSize_iff` — the offsets in front of the limit.
* `Dynarec.Image.build_protects_iff` — the rights of guest code where an image was built.
-/

set_option autoImplicit false

namespace Dynarec.Image

variable {file : List Byte} {raw : Bool} {i : Image} {m m' : Memory} {k : Nat}

/-! ## Kinds of segments -/

/-- What guest code is not to change: the text and the read-only data of an executable, and all of a
flat stream. -/
def constantSegments (i : Image) : List Segment :=
  i.segments.take 2

/-- What guest code is to change: the data of an executable, and nothing of a flat stream. -/
def dataSegments (i : Image) : List Segment :=
  i.segments.drop 2

/-- An offset of what guest code is not to change. -/
def Constant (i : Image) (k : Nat) : Prop :=
  ∃ s ∈ i.constantSegments, s.Covers k

/-- An offset of what guest code is to change. -/
def Data (i : Image) (k : Nat) : Prop :=
  ∃ s ∈ i.dataSegments, s.Covers k

/-- The data comes after all that is constant. -/
def DataLast (i : Image) : Prop :=
  ∀ s ∈ i.constantSegments, ∀ d ∈ i.dataSegments, s.size = 0 ∨ s.stop ≤ d.offset

/-- Whether the data comes last is a comparison of finitely many segments. -/
instance (i : Image) : Decidable i.DataLast :=
  inferInstanceAs (Decidable (∀ s ∈ i.constantSegments, ∀ d ∈ i.dataSegments, _))

/-- The kinds of segments, in either format. -/
theorem segments_of_read (h : read file raw = .ok i) :
    let header := ImageHeader.read file
    i.constantSegments = (if raw then [⟨0, file.length⟩] else [header.text, header.readOnly]) ∧
      i.dataSegments = if raw then [] else [header.data] := by
  cases raw with
  | true =>
    rcases accepted_of_ofWords h with ⟨-, rfl, -⟩
    exact ⟨rfl, rfl⟩
  | false =>
    rw [constantSegments, dataSegments, (parsed_of_parse h).segments_eq]
    exact ⟨rfl, rfl⟩

/-- An offset of constant bytes is covered by a segment. -/
theorem Constant.covers (h : i.Constant k) : i.Covers k := by
  rcases h with ⟨s, hs, hcovers⟩
  exact ⟨s, List.mem_of_mem_take hs, hcovers⟩

/-- An offset of data is covered by a segment. -/
theorem Data.covers (h : i.Data k) : i.Covers k := by
  rcases h with ⟨s, hs, hcovers⟩
  exact ⟨s, List.mem_of_mem_drop hs, hcovers⟩

/-- The data comes last exactly if every offset of what is constant lies in front of it.

**Proof sketch.** A segment that is not empty ends in front of the data exactly if its last
offset does. -/
theorem dataLast_iff :
    i.DataLast ↔ ∀ k, i.Constant k → ∀ d ∈ i.dataSegments, k < d.offset := by
  constructor
  · rintro hlast k ⟨s, hs, hlow, hhigh⟩ d hd
    rcases hlast s hs d hd with hempty | hstop
    · unfold Segment.stop at hhigh
      omega
    · omega
  · intro hall s hs d hd
    -- a segment that is not empty has a last offset
    by_cases hempty : s.size = 0
    · exact .inl hempty
    · have hlast : i.Constant (s.stop - 1) := by
        refine ⟨s, hs, ?_, ?_⟩ <;>
        · unfold Segment.stop
          omega
      have hbefore := hall _ hlast d hd
      exact .inr (by omega)

/-! ## The limit -/

/-- Pages that hold a file do not end inside it, unless their size wraps around. -/
theorem length_le_pages (hlength : file.length < 0x8000000000000000)
    (hpages : (BitVec.ofInt 64 (roundToPages file.length)).toNat < 0x8000000000000000) :
    file.length ≤ (BitVec.ofInt 64 (roundToPages file.length)).toNat := by
  rw [BitVec.toNat_ofInt] at hpages ⊢
  by_cases hwraps : file.length + 4095 < 0x8000000000000000
  · rw [roundToPages_of_nonneg (by omega) (by omega)]
    omega
  · have hnegative : roundToPages file.length < -0x4000000000000000 :=
      roundToPages_of_wraps (by omega) (by omega)
    have hbounds := roundToPages_bounds file.length
    omega

/-- **The offsets in front of the limit** are those in front of the data.

**Proof sketch.** A flat stream has no data, and all of it lies within its pages, which are
the limit. An image with a header has one data segment, and the limit is its offset. -/
theorem lt_immutableSize_iff (h : read file raw = .ok i)
    (hlength : file.length < 0x8000000000000000) (hbuilt : Built i m m') (hk : i.Covers k) :
    k < i.immutableSize.toNat ↔ ∀ d ∈ i.dataSegments, k < d.offset := by
  cases raw with
  | true =>
    have hdata : i.dataSegments = [] := (segments_of_read h).2
    rcases accepted_of_ofWords h with ⟨haccepted, rfl, -⟩
    -- there is no data, and all of the file lies in front of the limit
    refine iff_of_true ?_ (by simp [hdata])
    have hle := hbuilt.limit_le
    have hlt := m'.size_lt
    have hpages := length_le_pages hlength (Nat.lt_of_le_of_lt hle hlt)
    rcases hk with ⟨s, hs, -, hstop⟩
    have hinside := haccepted.inside s hs
    exact Nat.lt_of_lt_of_le hstop (Nat.le_trans hinside hpages)
  | false =>
    have hparsed := parsed_of_parse h
    have hoffset : (ImageHeader.read file).data.offset < 0x100000000 := (segmentAt_lt file 0x30).1
    have hlimit : i.immutableSize.toNat = (ImageHeader.read file).data.offset := by
      rw [immutableSize, hparsed.format, BitVec.toNat_ofNat]
      omega
    have hdata : i.dataSegments = [(ImageHeader.read file).data] := (segments_of_read h).2
    rw [hlimit, hdata, List.forall_mem_singleton]

/-! ## Rights -/

/-- What guest code may do at an offset that the image covers. -/
theorem inspect_of_covers (h : read file raw = .ok i) (hlength : file.length < 0x8000000000000000)
    (hbuilt : Built i m m') (hk : i.Covers k) :
    k < m'.bytes.size ∧ m'.inspect (m'.base + BitVec.ofNat 64 k) =
      if ∀ d ∈ i.dataSegments, k < d.offset then .immutable else .mutable := by
  have hinside : k < m'.bytes.size := by
    rcases hk with ⟨s, hs, -, hstop⟩
    exact Nat.lt_of_lt_of_le hstop (hbuilt.inside s hs)
  refine ⟨hinside, ?_⟩
  rw [hbuilt.sound.inspect_base_add hinside, hbuilt.limit]
  refine if_congr ?_ rfl rfl
  rw [Nat.add_lt_add_iff_left, lt_immutableSize_iff h hlength hbuilt hk]

/-- **The rights of guest code in memory that an image was built in.** Let an image be accepted in
either format, and let it be built in some memory. What is constant is the text and the read-only
data, or all of a flat stream, which has no data. All that a segment covers lies inside memory,
short of the end of the address space. An address there is immutable if it lies in front of the
data, and mutable otherwise; so every address of the data is mutable. It is immutable exactly if no
guest code changes the byte there. All that is constant is immutable if and only if the data comes
after it, as it does in a flat stream.

**Proof sketch.** What memory says of a covered byte depends on which side of the limit it
lies, and the bytes in front of the limit are those in front of the data (`inspect_of_covers`,
`lt_immutableSize_iff`). Code can change what is behind the limit, and only that
(`Engine.shielded_iff`). -/
theorem build_protects_iff [Guest.Disassembler] (file : List Byte) (raw : Bool) (i : Image)
    (h : read file raw = .ok i) (hlength : file.length < 0x8000000000000000) (m m' : Memory)
    (hbuild : i.build m = (m', .ok ())) :
    let header := ImageHeader.read file
    (i.constantSegments = (if raw then [⟨0, file.length⟩] else [header.text, header.readOnly]) ∧
      i.dataSegments = if raw then [] else [header.data]) ∧
    (∀ k, i.Covers k →
      k < m'.bytes.size ∧ (m'.base + BitVec.ofNat 64 k).toNat = m'.base.toNat + k) ∧
    (∀ k, i.Covers k → m'.inspect (m'.base + BitVec.ofNat 64 k) =
      if ∀ d ∈ i.dataSegments, k < d.offset then .immutable else .mutable) ∧
    (∀ k, i.Data k → m'.inspect (m'.base + BitVec.ofNat 64 k) = .mutable) ∧
    (∀ k, i.Covers k → (Engine.Shielded m' k ↔
      m'.inspect (m'.base + BitVec.ofNat 64 k) = .immutable)) ∧
    ((∀ k, i.Constant k → m'.inspect (m'.base + BitVec.ofNat 64 k) = .immutable) ↔ i.DataLast) ∧
    (raw = true → i.DataLast) := by
  have hbuilt := (accepted_of_read h).built hlength hbuild
  have hrights := fun k (hk : i.Covers k) => inspect_of_covers h hlength hbuilt hk
  refine ⟨segments_of_read h, ?_, fun k hk => (hrights k hk).2, ?_, ?_, ?_, ?_⟩
  · intro k hk
    have hinside := (hrights k hk).1
    have hfits := hbuilt.fits
    exact ⟨hinside, Memory.toNat_base_add (by omega)⟩
  · intro k hk
    rw [(hrights k hk.covers).2]
    refine if_neg fun hbefore => ?_
    rcases hk with ⟨d, hd, hlow, -⟩
    exact absurd (hbefore d hd) (Nat.not_lt_of_le hlow)
  · intro k hk
    exact Engine.shielded_iff hbuilt.sound (hrights k hk).1
  · rw [dataLast_iff]
    refine forall₂_congr fun k hk => ?_
    rw [(hrights k hk.covers).2]
    split
    · rename_i hbefore
      exact iff_of_true rfl hbefore
    · rename_i hbefore
      exact iff_of_false (by simp) hbefore
  · rintro rfl
    have hdata : i.dataSegments = [] := (segments_of_read h).2
    simp [DataLast, hdata]

/-- A header that leaves out the data, over a text of one word: the data is said to start at offset
zero, so the text can be changed. -/
theorem build_leaves_text_mutable :
    let _ : Guest.Disassembler := .least
    let file : List Byte := List.replicate 16 0 ++ ImageHeader.expectedMagic ++
      List.replicate 4 0 ++ littleEndian 4 0x1000 ++ List.replicate 4 0 ++
      littleEndian 4 0x80 ++ littleEndian 4 4 ++ List.replicate 92 0
    ∃ i m m', read file false = .ok i ∧ Memory.create 0x10000 i.memorySize = .ok m ∧
      i.build m = (m', .ok ()) ∧ i.Constant 0x80 ∧ m'.inspect 0x10080 = .mutable ∧
      ¬ Engine.Shielded m' 0x80 ∧ ¬ i.DataLast := by
  intro _ file
  have hsome : (read file false).toOption.map (fun i => (i.memorySize, i.segments)) =
      some (4096, [⟨0x80, 4⟩, ⟨0, 0⟩, ⟨0, 0⟩]) := by
    decide +kernel
  have hlength : file.length < 0x8000000000000000 := by decide +kernel
  clear_value file
  rcases eq_ok_of_map_toOption hsome with ⟨i, hread, hfacts⟩
  simp only [Prod.mk.injEq] at hfacts
  rcases hfacts with ⟨hsize, hsegments⟩
  have hsuffices : i.Suffices := by
    rw [Suffices, hsize, hsegments]
    decide
  have hloads : i.Loads 0x10000 :=
    ((parsed_of_parse hread).loads_iff (by rw [hsize]; decide)).2 hsuffices
  rcases hloads with ⟨m, m', hcreate, hbuild⟩
  have hbase : m'.base = 0x10000 :=
    ((accepted_of_read hread).built hlength hbuild).base.trans (Memory.create_eq_ok hcreate).2.1
  have hconstant : i.Constant 0x80 := by
    refine ⟨⟨0x80, 4⟩, ?_, by decide⟩
    rw [constantSegments, hsegments]
    decide
  have hlast : ¬ i.DataLast := by
    rw [DataLast, constantSegments, dataSegments, hsegments]
    decide
  rcases build_protects_iff file false i hread hlength m m' hbuild
    with ⟨-, -, hrights, -, hshielded, -, -⟩
  have hmutable : m'.inspect 0x10080 = .mutable := by
    have hright := hrights 0x80 hconstant.covers
    rw [hbase] at hright
    rw [dataSegments, hsegments] at hright
    exact hright
  refine ⟨i, m, m', hread, hcreate, hbuild, hconstant, hmutable, ?_, hlast⟩
  rw [hshielded 0x80 hconstant.covers, hbase]
  show m'.inspect 0x10080 ≠ _
  rw [hmutable]
  decide

end Dynarec.Image
