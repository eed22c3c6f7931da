import Dynarec.Proofs.Code.Pieces
import Mathlib.Tactic.Common

/-!
# Layout of well-formed code

Widening stops, and where it stops every short branch reaches its target. For code whose branches
only pass over a few chunks the displacements also fit the long form, so laying such code out never
fails, whatever its length.

## Main definitions

* `Dynarec.Code.Chunk.isShort` — a branch in its short form.
* `Dynarec.Code.Laid` — chunks that stand for pieces.

## Main results

* `Dynarec.Host.Inst.length_encode` — an instruction takes between 1 and 15 bytes.
* `Dynarec.Code.widen_relax` — after as many rounds as there are short branches nothing changes.
* `Dynarec.Code.assemble_laid` — well-formed pieces can be laid out, and the code does what the
  pieces do.
-/

set_option autoImplicit false

namespace Dynarec

/-! ## Lengths of encodings -/

namespace Host

/-- At most two bytes stand in front of an opcode: one for the size of the operands and one
extension byte. -/
theorem length_leading_le (width : Int) (reg rm : Nat) (force : Bool) :
    (leading width reg rm force).length ≤ 2 := by
  unfold leading
  split_ifs <;> simp

/-- A memory operand takes from one to six bytes: the operand byte, perhaps an index byte, and a
displacement of up to four. -/
theorem length_memoryForm (reg : Nat) (base : Reg) (disp : BitVec 32) :
    1 ≤ (memoryForm reg base disp).length ∧ (memoryForm reg base disp).length ≤ 6 := by
  unfold memoryForm
  split_ifs <;> simp

/-- An encoding is not empty and takes at most 15 bytes.

**Proof sketch.** One case for each instruction. At most two bytes stand in front of the
opcode, at most two are the opcode, at most six name a memory operand and at most eight spell an
immediate; no instruction has all of them. -/
theorem Inst.length_encode {i : Inst} {bytes : List Byte} (h : i.encode = .ok bytes) :
    1 ≤ bytes.length ∧ bytes.length ≤ 15 := by
  cases i <;> simp only [encode] at h
  case mov width dst src =>
    have := length_leading_le width src.val dst.val false
    split at h <;> cases h
    simp
    omega
  case movImm dst value =>
    cases h
    split_ifs <;> simp [movAbsBytes]
  case movAbs dst value =>
    cases h
    simp [movAbsBytes]
  case load dst base disp size =>
    have := length_memoryForm dst.val base disp
    have := length_leading_le 32 dst.val base.val false
    have := length_leading_le 64 dst.val base.val false
    split_ifs at h <;> cases h <;> simp <;> omega
  case store base disp src size =>
    have := length_memoryForm src.val base disp
    have := length_leading_le 8 src.val base.val (4 ≤ src.val)
    have := length_leading_le 16 src.val base.val false
    have := length_leading_le 32 src.val base.val false
    have := length_leading_le 64 src.val base.val false
    split_ifs at h <;> cases h <;> simp <;> omega
  case storeImm base disp imm =>
    have := length_memoryForm 0 base disp
    have := length_leading_le 64 0 base.val false
    cases h
    simp
    omega
  case alu op width dst src =>
    have := length_leading_le width src.val dst.val false
    split at h <;> cases h
    simp
    omega
  case aluImm op width dst imm =>
    have := length_leading_le width 0 dst.val false
    split_ifs at h <;> cases h <;> simp <;> omega
  case test width x y =>
    have := length_leading_le width y.val x.val false
    split at h <;> cases h
    simp
    omega
  case shift op width dst amount =>
    have := length_leading_le width 0 dst.val false
    split_ifs at h <;> cases h <;> simp <;> omega
  case setcc cond dst =>
    have := length_leading_le 8 0 dst.val (4 ≤ dst.val)
    split at h <;> cases h
    simp
    omega
  case movzx16 dst src =>
    have := length_leading_le 32 dst.val src.val false
    cases h
    simp
    omega
  case bt base bit =>
    have := length_leading_le 64 bit.val base.val false
    cases h
    simp
    omega
  all_goals
    cases h
    simp

/-- The bytes of a jump are as many as its size says. -/
theorem Jump.length_encode {j : Jump} {bytes : List Byte} (h : j.encode = .ok bytes) :
    bytes.length = Jump.size j.cond j.wide := by
  unfold encode at h
  unfold size
  split_ifs at h <;> cases h <;> simp_all

/-- A wide jump has an encoding, and so has a short one whose displacement is a signed byte. -/
theorem Jump.encode_ok (cond : Cond) {distance : Int} {wide : Bool}
    (h : wide = false → fitsInt8 distance = true) :
    ∃ bytes,
      encode { cond := cond, rel := BitVec.ofInt 32 distance, wide := wide } = .ok bytes := by
  cases wide with
  | true => exact ⟨_, rfl⟩
  | false =>
    have hd := h rfl
    have hrel : (BitVec.ofInt 32 distance).toInt = distance := by
      simp only [fitsInt8, decide_eq_true_eq] at hd
      rw [BitVec.toInt_ofInt]
      exact Int.bmod_eq_of_le (by omega) (by omega)
    simp [encode, hrel, hd]

end Host

namespace Code

/-! ## Widening -/

/-- Whether a chunk is a branch in its short form. -/
def Chunk.isShort : Chunk → Bool
  | .branch _ _ wide => !wide
  | .inst _ _ => false

/-- Widening leaves a chunk alone, or turns a short branch into a long one. -/
theorem widenAt_cases (chunks : List Chunk) (i : Nat) (c : Chunk) :
    widenAt chunks i c = c ∨ (c.isShort = true ∧ (widenAt chunks i c).isShort = false) := by
  cases c with
  | inst x bytes => exact .inl rfl
  | branch cond target wide =>
    cases wide with
    | true => exact .inl rfl
    | false =>
      cases hfit : fitsInt8 (displacement chunks i target) with
      | true => exact .inl (by simp [widenAt, hfit])
      | false => exact .inr (by simp [widenAt, hfit, Chunk.isShort])

/-- A branch that is made long still goes where it went. -/
theorem step_widenAt (chunks : List Chunk) (i : Nat) (c : Chunk) :
    (widenAt chunks i c).step = c.step := by
  unfold widenAt
  split <;> rfl

/-- A map that leaves each chunk alone or lengthens a short branch does not make short branches,
and if it changes anything there are fewer of them.

**Proof sketch.** By induction on the chunks, along what happens to the first: either it is
left alone, and the rest decides, or one short branch less is counted. -/
theorem countP_mapIdx_lt {g : Nat → Chunk → Chunk}
    (hg : ∀ i c, g i c = c ∨ (c.isShort = true ∧ (g i c).isShort = false)) (l : List Chunk) :
    (l.mapIdx g).countP Chunk.isShort ≤ l.countP Chunk.isShort ∧
      (l.mapIdx g ≠ l → (l.mapIdx g).countP Chunk.isShort < l.countP Chunk.isShort) := by
  induction l generalizing g with
  | nil => simp
  | cons c l ih =>
    obtain ⟨hle, hlt⟩ := ih (g := fun i => g (i + 1)) fun i d => hg (i + 1) d
    rw [List.mapIdx_cons, List.countP_cons, List.countP_cons]
    rcases hg 0 c with hc | ⟨hshort, hlong⟩
    · rw [hc]
      refine ⟨by omega, fun hne => ?_⟩
      have := hlt fun h => hne (by rw [h])
      omega
    · simp only [hshort, hlong, if_true, Bool.false_eq_true, if_false]
      exact ⟨by omega, fun _ => by omega⟩

/-- A round of widening that changes anything leaves fewer short branches.

**Proof sketch.** A round turns short branches into long ones and touches nothing else. If as
many were short afterwards, none would have been turned, and the chunks would be the same. -/
theorem countP_widen_lt {chunks : List Chunk} (h : widen chunks ≠ chunks) :
    (widen chunks).countP Chunk.isShort < chunks.countP Chunk.isShort :=
  (countP_mapIdx_lt (widenAt_cases chunks) chunks).2 h

/-- **Widening stops**: after as many rounds as there are short branches nothing changes.

**Proof sketch.** Induction on the rounds. A round that changes something leaves fewer short
branches; with none left, nothing can change. -/
theorem widen_relax (rounds : Nat) (chunks : List Chunk)
    (h : chunks.countP Chunk.isShort ≤ rounds) :
    widen (relax rounds chunks) = relax rounds chunks := by
  induction rounds generalizing chunks with
  | zero =>
    by_contra hne
    have := countP_widen_lt hne
    simp only [relax] at this
    omega
  | succ rounds ih =>
    rw [relax]
    split
    · assumption
    · rename_i hne
      have := countP_widen_lt hne
      exact ih _ (by omega)

/-- What code does is not changed by widening.

**Proof sketch.** One round leaves the step of every chunk as it is (`step_widenAt`), and the
rounds follow by induction. -/
theorem map_step_relax (rounds : Nat) (chunks : List Chunk) :
    (relax rounds chunks).map Chunk.step = chunks.map Chunk.step := by
  have hwiden : ∀ l : List Chunk, (widen l).map Chunk.step = l.map Chunk.step := by
    intro l
    refine List.ext_getElem? fun i => ?_
    rw [widen, List.getElem?_map, List.getElem?_map, List.getElem?_mapIdx, Option.map_map]
    simp only [Function.comp_def, step_widenAt]
  induction rounds generalizing chunks with
  | zero => rfl
  | succ rounds ih =>
    rw [relax]
    split
    · rfl
    · rw [ih, hwiden]

/-- Where nothing changes any more, every short branch reaches its target. -/
theorem fitsInt8_of_widen_eq {chunks : List Chunk} (h : widen chunks = chunks) {i target : Nat}
    {cond : Host.Cond} (hi : chunks[i]? = some (.branch cond target false)) :
    fitsInt8 (displacement chunks i target) = true := by
  have hw : (widen chunks)[i]? = some (.branch cond target false) := by rw [h, hi]
  rw [widen, List.getElem?_mapIdx, hi] at hw
  simpa [widenAt] using hw

/-! ## Positions of chunks -/

/-- The lengths of chunks summed up. -/
theorem foldr_size_append (l m : List Chunk) :
    (l ++ m).foldr (fun c n => c.size + n) 0 =
      l.foldr (fun c n => c.size + n) 0 + m.foldr (fun c n => c.size + n) 0 := by
  induction l with
  | nil => simp
  | cons c l ih =>
    simp only [List.cons_append, List.foldr_cons, ih]
    omega

/-- Chunks of at most fifteen bytes take up at most fifteen times their number. -/
theorem foldr_size_le {l : List Chunk} (h : ∀ c ∈ l, c.size ≤ 15) :
    l.foldr (fun c n => c.size + n) 0 ≤ 15 * l.length := by
  induction l with
  | nil => simp
  | cons c l ih =>
    have hc := h c (by simp)
    have := ih fun d hd => h d (by simp [hd])
    simp only [List.foldr_cons, List.length_cons]
    omega

/-- The start of a chunk lies at most 15 bytes for each chunk between behind that of another. -/
theorem start_add_le {chunks : List Chunk} (h : ∀ c ∈ chunks, c.size ≤ 15) (k n : Nat) :
    start chunks k ≤ start chunks (k + n) ∧ start chunks (k + n) ≤ start chunks k + 15 * n := by
  have hsplit : start chunks (k + n) = start chunks k +
      ((chunks.drop k).take n).foldr (fun c n => c.size + n) 0 := by
    rw [start, start, List.take_add, foldr_size_append]
  have hle := foldr_size_le (l := (chunks.drop k).take n) fun c hc =>
    h c (List.mem_of_mem_drop (List.mem_of_mem_take hc))
  have hlen : ((chunks.drop k).take n).length ≤ n := List.length_take_le ..
  omega

/-! ## Chunks of pieces -/

/-- The chunks from position `i` on stand for pieces: instructions with their encodings, and
branches to the piece that a jump passes on to. -/
inductive Laid : Nat → List Chunk → List Piece → Prop where
  | nil (i : Nat) : Laid i [] []
  | inst {i : Nat} {x : Host.Inst} {bytes : List Byte} {cs : List Chunk} {P : List Piece}
      (hx : x.encode = .ok bytes) (h : Laid (i + 1) cs P) :
      Laid i (.inst x bytes :: cs) (.inst x :: P)
  | hop {i n : Nat} {cond : Host.Cond} {wide : Bool} {cs : List Chunk} {P : List Piece}
      (h : Laid (i + 1) cs P) :
      Laid i (.branch cond (i + 1 + n) wide :: cs) (.hop cond n :: P)

/-- Chunks that lay out pieces do what the pieces do, each where it stands. -/
theorem Laid.map_step {i : Nat} {cs : List Chunk} {P : List Piece} (h : Laid i cs P) :
    cs.map Chunk.step = place i P := by
  induction h with
  | nil => rfl
  | inst _ _ ih => simp [Chunk.step, place, ih]
  | hop _ ih => simp [Chunk.step, place, ih]

/-- Every chunk of a layout has at least one byte and at most fifteen. -/
theorem Laid.size {i : Nat} {cs : List Chunk} {P : List Piece} (h : Laid i cs P) :
    ∀ c ∈ cs, 1 ≤ c.size ∧ c.size ≤ 15 := by
  induction h with
  | nil => simp
  | inst hx _ ih => simpa [Chunk.size] using ⟨Host.Inst.length_encode hx, ih⟩
  | hop _ ih =>
    refine List.forall_mem_cons.2 ⟨?_, ih⟩
    simp only [Chunk.size, Host.Jump.size]
    split_ifs <;> omega

/-- Branches go forward and over at most `reach` chunks.

**Proof sketch.** By induction on the layout. The bound on the distance is part of what
well-formed pieces are, and a branch further behind is counted from one position further on. -/
theorem Laid.target {i : Nat} {cs : List Chunk} {P : List Piece} (h : Laid i cs P) (hP : Fits P)
    {k target : Nat} {cond : Host.Cond} {wide : Bool}
    (hk : cs[k]? = some (.branch cond target wide)) :
    ∃ n ≤ reach, target = i + k + 1 + n := by
  induction h generalizing k with
  | nil => simp at hk
  | inst _ _ ih =>
    cases k with
    | zero => simp at hk
    | succ k =>
      obtain ⟨n, hn, rfl⟩ := ih hP.2 (by simpa using hk)
      exact ⟨n, hn, by omega⟩
  | hop _ ih =>
    obtain ⟨-, -, hreach, hP⟩ := hP
    cases k with
    | zero =>
      simp only [List.getElem?_cons_zero, Option.some.injEq, Chunk.branch.injEq] at hk
      exact ⟨_, hreach, by omega⟩
    | succ k =>
      obtain ⟨n, hn, rfl⟩ := ih hP (by simpa using hk)
      exact ⟨n, hn, by omega⟩

/-- Widening some branches leaves chunks that stand for the same pieces. -/
theorem Laid.mapIdx {i : Nat} {cs : List Chunk} {P : List Piece} (h : Laid i cs P)
    {g : Nat → Chunk → Chunk} (hinst : ∀ k x bytes, g k (.inst x bytes) = .inst x bytes)
    (hbranch : ∀ k cond t w, ∃ w', g k (.branch cond t w) = .branch cond t w') :
    Laid i (cs.mapIdx g) P := by
  induction h generalizing g with
  | nil => exact .nil _
  | inst hx _ ih =>
    rw [List.mapIdx_cons, hinst]
    exact .inst hx (ih (fun k => hinst (k + 1)) fun k => hbranch (k + 1))
  | hop _ ih =>
    obtain ⟨w', hw⟩ := hbranch 0 _ _ _
    rw [List.mapIdx_cons, hw]
    exact .hop (ih (fun k => hinst (k + 1)) fun k => hbranch (k + 1))

/-- Chunks lay out the same pieces after any rounds of widening. -/
theorem Laid.relax {cs : List Chunk} {P : List Piece} (h : Laid 0 cs P) (rounds : Nat) :
    Laid 0 (Code.relax rounds cs) P := by
  induction rounds generalizing cs with
  | zero => exact h
  | succ rounds ih =>
    rw [Code.relax]
    split
    · exact h
    · refine ih (h.mapIdx (fun _ _ _ => rfl) fun k cond t w => ?_)
      cases w with
      | true => exact ⟨true, rfl⟩
      | false => exact ⟨_, rfl⟩

/-! ## Laying out -/

/-- The bytes of chunks, each of which has bytes as many as its size.

**Proof sketch.** By induction on the chunks that are left; the index that displacements are
counted from goes up by one at every chunk. -/
theorem bytesFrom_ok (chunks rest : List Chunk) (i : Nat)
    (h : ∀ k c, rest[k]? = some c →
      ∃ bytes, chunkBytes chunks (i + k) c = .ok bytes ∧ bytes.length = c.size) :
    ∃ bytes, bytesFrom chunks i rest = .ok bytes ∧ bytes.length = start rest rest.length := by
  induction rest generalizing i with
  | nil => exact ⟨[], rfl, rfl⟩
  | cons c rest ih =>
    obtain ⟨bytes, hbytes, hlen⟩ := h 0 c rfl
    obtain ⟨more, hmore, hmorelen⟩ := ih (i + 1) fun k d hd => by
      have := h (k + 1) d (by simpa using hd)
      rwa [show i + (k + 1) = i + 1 + k by omega] at this
    refine ⟨bytes ++ more, ?_, ?_⟩
    · simp only [bytesFrom]
      rw [show chunkBytes chunks i c = .ok bytes from hbytes, hmore]
      rfl
    · simp only [start, List.length_append, List.take_length, List.foldr_cons] at hmorelen ⊢
      omega

/-- **Well-formed pieces can be laid out**: code that stands for them assembles, it is not empty
unless there are no pieces, and its program is the pieces in their places.

**Proof sketch.** Where widening stops, short branches reach their targets (`fitsInt8_of_widen_eq`).
A branch passes over at most `reach` chunks of at most 15 bytes each, so every displacement fits
the long form. -/
theorem assemble_laid {cs : List Chunk} {P : List Piece} (h : Laid 0 cs P) (hP : Fits P) :
    ∃ code, assemble cs = .ok code ∧ code.program = place 0 P ∧ (P ≠ [] → code.bytes ≠ []) := by
  have hfixed : widen (relax cs.length cs) = relax cs.length cs :=
    widen_relax _ _ List.countP_le_length
  have hlaid := h.relax cs.length
  have hstep : (relax cs.length cs).map Chunk.step = place 0 P := hlaid.map_step
  unfold assemble
  generalize relax cs.length cs = final at hfixed hlaid hstep
  have hsize := hlaid.size
  have hchunk : ∀ k c, final[k]? = some c →
      ∃ bytes, chunkBytes final (0 + k) c = .ok bytes ∧ bytes.length = c.size := by
    intro k c hk
    cases c with
    | inst x bytes => exact ⟨bytes, rfl, rfl⟩
    | branch cond target wide =>
      obtain ⟨n, hn, rfl⟩ := hlaid.target hP hk
      have hstart := start_add_le (fun c hc => (hsize c hc).2) (0 + k + 1) n
      have hfit : fitsInt32 (displacement final (0 + k) (0 + k + 1 + n)) = true := by
        simp only [reach] at hn
        refine decide_eq_true ?_
        unfold displacement
        omega
      have hshort : wide = false →
          fitsInt8 (displacement final (0 + k) (0 + k + 1 + n)) = true := by
        rintro rfl
        simpa using fitsInt8_of_widen_eq hfixed hk
      obtain ⟨bytes, hbytes⟩ := Host.Jump.encode_ok cond hshort
      exact ⟨bytes, by simp only [chunkBytes, hfit, hbytes]; rfl, Host.Jump.length_encode hbytes⟩
  obtain ⟨bytes, hbytes, hlen⟩ := bytesFrom_ok final final 0 hchunk
  refine ⟨{ chunks := final, bytes := bytes }, ?_, hstep, ?_⟩
  · simp only [hbytes]
    rfl
  · rintro hne rfl
    cases hlaid with
    | nil => exact hne rfl
    | inst hx hrest =>
      have := (Host.Inst.length_encode hx).1
      simp [start, Chunk.size] at hlen
      omega
    | hop hrest =>
      have := (hsize _ (List.mem_cons_self ..)).1
      simp only [start, List.take_length, List.foldr_cons, List.length_nil] at hlen
      omega

end Code

end Dynarec
