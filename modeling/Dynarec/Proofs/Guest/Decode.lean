import Dynarec.Proofs.Guest.BitMask
import Dynarec.Proofs.Guest.Regular

/-!
# Decoding loses nothing

Two words that decode to the same instruction are the same word, but for two liberties of the
encoding. The rotation of a logical immediate is read modulo the size of its element, and a move has
no use for the kind of a shift by zero.

## Main definitions

* `Dynarec.Guest.Agree` — two words have the same bits in a range.
* `Dynarec.Guest.Form.Fixed` — the fixed fields of an encoding class.
* `Dynarec.Guest.Instruction.form?` — the class that an instruction can only come from.
* `Dynarec.Guest.Alias` — the liberties of the encoding.

## Main results

* `Dynarec.Guest.Form.form?_of_read` — a class gives only its own instructions.
* `Dynarec.Guest.alias_of_decode` — what words of one instruction have in common.
-/

set_option autoImplicit false

namespace Dynarec.Guest

variable {w w' : Opcode} {inst : Instruction}

/-! ## Words that agree -/

/-- The words have the same bits from `lo` on and before `hi`. -/
def Agree (w w' : Opcode) (lo hi : Nat) : Prop :=
  ∀ i, lo ≤ i → i < hi → w.getLsbD i = w'.getLsbD i

/-- Words that agree on two ranges side by side agree on both together. -/
theorem Agree.trans {lo mid hi : Nat} (h : Agree w w' lo mid) (h' : Agree w w' mid hi) :
    Agree w w' lo hi := by
  intro i hlo hhi
  by_cases hmid : i < mid
  · exact h i hlo hmid
  · exact h' i (by omega) hhi

/-- Words with the same bits are the same. -/
theorem Agree.eq (h : Agree w w' 0 32) : w = w' :=
  BitVec.eq_of_getLsbD_eq fun i hi => h i (Nat.zero_le i) hi

/-- A bit of a field is the bit of the word at its place. -/
theorem testBit_field {lo len i : Nat} (hi : i < len) :
    (field w lo len).testBit i = w.getLsbD (lo + i) := by
  rw [field, ← BitVec.getLsbD, BitVec.getLsbD_extractLsb', decide_eq_true hi, Bool.true_and]

/-- Fields with the same low bits. -/
theorem agree_of_field_mod {lo len k : Nat} (hk : k ≤ len)
    (h : field w lo len % 2 ^ k = field w' lo len % 2 ^ k) : Agree w w' lo (lo + k) := by
  intro i hlo hhi
  have hbit := congrArg (fun v => v.testBit (i - lo)) h
  have hin : decide (i - lo < k) = true := decide_eq_true (by omega)
  simp only [Nat.testBit_mod_two_pow, hin, Bool.true_and] at hbit
  rwa [testBit_field (by omega), testBit_field (by omega), Nat.add_sub_cancel' hlo] at hbit

/-- Equal fields. -/
theorem agree_of_field {lo len : Nat} (h : field w lo len = field w' lo len) :
    Agree w w' lo (lo + len) :=
  agree_of_field_mod (Nat.le_refl len) (by rw [h])

/-- The next field up. -/
theorem Agree.next {lo mid len : Nat} (h : Agree w w' lo mid)
    (hfield : field w mid len = field w' mid len) : Agree w w' lo (mid + len) :=
  h.trans (agree_of_field hfield)

/-! ## Fields of instructions -/

/-- A field of one bit is 0 or 1. -/
theorem field_one (w : Opcode) (lo : Nat) : field w lo 1 = 0 ∨ field w lo 1 = 1 := by
  have h : field w lo 1 < 2 := field_lt w lo 1
  omega

/-- The width depends on the topmost bit and on nothing else. -/
theorem widthOf_inj : widthOf w = widthOf w' ↔ field w 31 1 = field w' 31 1 := by
  have h := field_one w 31
  have h' := field_one w' 31
  unfold widthOf
  split_ifs <;> omega

/-- Registers read from words are the same if their fields, their widths and their readings of
number 31 are.

**Proof sketch.** The number, the width and the reading are fields of the register that is read,
none of which is lost. -/
theorem registerAt_inj {lo width width' : Nat} {sp sp' : Bool} :
    registerAt w lo width sp = registerAt w' lo width' sp' ↔
      field w lo 5 = field w' lo 5 ∧ width = width' ∧ sp = sp' := by
  simp [registerAt]

/-- A field loses nothing as a word of at least its length. -/
theorem ofNat_field_inj {lo len n : Nat} (hlen : len ≤ n) :
    BitVec.ofNat n (field w lo len) = BitVec.ofNat n (field w' lo len) ↔
      field w lo len = field w' lo len := by
  refine ⟨fun h => ?_, fun h => by rw [h]⟩
  have hpow : 2 ^ len ≤ 2 ^ n := Nat.pow_le_pow_right (by omega) hlen
  have hlt : field w lo len < 2 ^ len := field_lt w lo len
  have hlt' : field w' lo len < 2 ^ len := field_lt w' lo len
  have hnat := congrArg BitVec.toNat h
  rwa [BitVec.toNat_ofNat, BitVec.toNat_ofNat, Nat.mod_eq_of_lt (by omega),
    Nat.mod_eq_of_lt (by omega)] at hnat

/-- Signed numbers of one length are the same if their bits are.

**Proof sketch.** The two readings of a number differ by the size of the range, so two numbers
inside the range are the same if their signed readings are. -/
theorem signed_inj {len a b : Nat} (ha : a < 2 ^ len) (hb : b < 2 ^ len) :
    signed len a = signed len b ↔ a = b := by
  refine ⟨fun h => ?_, fun h => by rw [h]⟩
  have hnat := congrArg BitVec.toNat (BitVec.toInt_inj.1 h)
  rwa [BitVec.toNat_ofNat, BitVec.toNat_ofNat, Nat.mod_eq_of_lt ha, Nat.mod_eq_of_lt hb] at hnat

/-- A field loses nothing when it is read as a signed number. -/
theorem signed_field_inj {lo len : Nat} :
    signed len (field w lo len) = signed len (field w' lo len) ↔
      field w lo len = field w' lo len :=
  signed_inj (field_lt w lo len) (field_lt w' lo len)

/-- The four kinds of shift are told apart by their field. -/
theorem ofCode_field_inj {lo : Nat} :
    ShiftKind.ofCode (field w lo 2) = ShiftKind.ofCode (field w' lo 2) ↔
      field w lo 2 = field w' lo 2 := by
  have hlt : field w lo 2 < 4 := field_lt w lo 2
  have hlt' : field w' lo 2 < 4 := field_lt w' lo 2
  generalize field w lo 2 = a at *
  generalize field w' lo 2 = b at *
  interval_cases a <;> interval_cases b <;> decide

/-- The four logical operations are told apart by their field. -/
theorem logicalOp_field_inj {lo : Nat} :
    logicalOp (field w lo 2) = logicalOp (field w' lo 2) ↔ field w lo 2 = field w' lo 2 := by
  have hlt : field w lo 2 < 4 := field_lt w lo 2
  have hlt' : field w' lo 2 < 4 := field_lt w' lo 2
  generalize field w lo 2 = a at *
  generalize field w' lo 2 = b at *
  interval_cases a <;> interval_cases b <;> decide

/-- A choice between two values tells the bit that it is made by. -/
theorem ite_field_inj {α : Type} {x y : α} (hne : x ≠ y) {lo : Nat} :
    (if field w lo 1 = 1 then x else y) = (if field w' lo 1 = 1 then x else y) ↔
      field w lo 1 = field w' lo 1 := by
  obtain h | h := field_one w lo <;> obtain h' | h' := field_one w' lo <;>
    simp [h, h', hne, hne.symm]

/-! ## The fields of each class -/

/-- The operation of a sum or compare, by the bits that choose it. -/
def sumOp (flags rd sub : Nat) : Op :=
  if flags = 0 then if sub = 1 then .sub else .add
  else if rd = zeroNumber then if sub = 1 then .cmp else .cmn
  else if sub = 1 then .subs else .adds

/-- **Sums by their operation.** The operation gives back the two bits it is chosen by. Where the
flags are set it also tells whether the result is thrown away, since those sums go by other names.

**Proof sketch.** Each of the two bits is 0 or 1, and each of the eight cases gives an operation
of its own or one that only depends on the bits. -/
theorem sumOp_inj {rd rd' : Nat}
    (h : sumOp (field w 29 1) rd (field w 30 1) = sumOp (field w' 29 1) rd' (field w' 30 1)) :
    field w 29 1 = field w' 29 1 ∧ field w 30 1 = field w' 30 1 ∧
      (field w 29 1 ≠ 0 → (rd = zeroNumber ↔ rd' = zeroNumber)) := by
  unfold sumOp at h
  obtain h29 | h29 := field_one w 29 <;> obtain h29' | h29' := field_one w' 29 <;>
    obtain h30 | h30 := field_one w 30 <;> obtain h30' | h30' := field_one w' 30 <;>
    simp only [h29, h29', h30, h30'] at h ⊢ <;> split_ifs at h <;> simp_all

/-- The operation of a sum with an immediate. -/
theorem op_readAddSubImm (w : Opcode) :
    (readAddSubImm w).op = sumOp (field w 29 1) (field w 0 5) (field w 30 1) := by
  simp only [readAddSubImm, sumOp, apply_ite Instruction.op]

/-- Sums with an immediate give back all their fields.

**Proof sketch.** The operation tells whether there is a destination among the operands
(`sumOp_inj`), so the operands of the two words stand for the same fields and can be compared one
by one. The shift of the immediate is the field of one bit times 12. -/
theorem readAddSubImm_inj (h : readAddSubImm w = readAddSubImm w') :
    field w 0 5 = field w' 0 5 ∧ field w 5 5 = field w' 5 5 ∧ field w 10 12 = field w' 10 12 ∧
      field w 22 1 = field w' 22 1 ∧ field w 29 1 = field w' 29 1 ∧ field w 30 1 = field w' 30 1 ∧
      field w 31 1 = field w' 31 1 := by
  have hop := congrArg Instruction.op h
  rw [op_readAddSubImm, op_readAddSubImm] at hop
  obtain ⟨h29, h30, hzero⟩ := sumOp_inj hop
  have hshift : (12 : Nat) ≠ 0 := by omega
  simp only [readAddSubImm, ← h29, ← h30] at h
  by_cases hflags : field w 29 1 = 0
  case pos =>
    simp [hflags, registerAt_inj, widthOf_inj, ofNat_field_inj, ite_field_inj hshift] at h
    simp [h, h29, h30]
  have hzero := hzero hflags
  by_cases hrd : field w 0 5 = zeroNumber
  case pos =>
    simp [hflags, hrd, hzero.1 hrd, registerAt_inj, widthOf_inj, ofNat_field_inj,
      ite_field_inj hshift] at h
    simp [h, hrd, hzero.1 hrd, h29, h30]
  case neg =>
    simp [hflags, hrd, mt hzero.2 hrd, registerAt_inj, widthOf_inj, ofNat_field_inj,
      ite_field_inj hshift] at h
    simp [h, h29, h30]

/-- Sums with a register give back all their fields, in the same way.

**Proof sketch.** The operation tells the two bits that choose it, and whether the
destination is the zero register when flags are set (`sumOp_inj`). This settles which of the
three ways the instruction was read in, and each gives back the other fields. -/
theorem readAddSubReg_inj (h : readAddSubReg w = some inst) (h' : readAddSubReg w' = some inst) :
    field w 0 5 = field w' 0 5 ∧ field w 5 5 = field w' 5 5 ∧ field w 10 6 = field w' 10 6 ∧
      field w 16 5 = field w' 16 5 ∧ field w 22 2 = field w' 22 2 ∧
      field w 29 1 = field w' 29 1 ∧ field w 30 1 = field w' 30 1 ∧
      field w 31 1 = field w' 31 1 := by
  simp only [readAddSubReg, Option.ite_none_left_eq_some, Option.some.injEq] at h h'
  replace h := h.2.trans h'.2.symm
  have hop : sumOp (field w 29 1) (field w 0 5) (field w 30 1) =
      sumOp (field w' 29 1) (field w' 0 5) (field w' 30 1) := by
    simpa only [sumOp, apply_ite Instruction.op] using congrArg Instruction.op h
  obtain ⟨h29, h30, hzero⟩ := sumOp_inj hop
  simp only [← h29, ← h30] at h
  by_cases hflags : field w 29 1 = 0
  case pos =>
    simp [hflags, registerAt_inj, widthOf_inj, ofCode_field_inj] at h
    simp [h, h29, h30]
  have hzero := hzero hflags
  by_cases hrd : field w 0 5 = zeroNumber
  case pos =>
    simp [hflags, hrd, hzero.1 hrd, registerAt_inj, widthOf_inj, ofCode_field_inj] at h
    simp [h, hrd, hzero.1 hrd, h29, h30]
  case neg =>
    simp [hflags, hrd, mt hzero.2 hrd, registerAt_inj, widthOf_inj, ofCode_field_inj] at h
    simp [h, h29, h30]

/-- **Logical operations with an immediate** give back all their fields but one: of the rotation
only its remainder modulo the size of an element is read.

**Proof sketch.** The mask determines the length of an element, the number of ones and the
rotation modulo that length; this is the injectivity of masks, with the two reserved shapes
excluded by the reading itself. -/
theorem readLogicalImm_inj (h : readLogicalImm w = some inst) (h' : readLogicalImm w' = some inst) :
    field w 0 5 = field w' 0 5 ∧ field w 5 5 = field w' 5 5 ∧ field w 10 6 = field w' 10 6 ∧
      (∃ log, BitMask.sizeLog? (field w 22 1) (field w 10 6) = some log ∧ log ≤ 6 ∧
        field w 16 6 % 2 ^ log = field w' 16 6 % 2 ^ log) ∧
      field w 22 1 = field w' 22 1 ∧ field w 29 2 = field w' 29 2 ∧
      field w 31 1 = field w' 31 1 := by
  simp only [readLogicalImm, Option.ite_none_left_eq_some] at h h'
  obtain ⟨hwide, h⟩ := h
  obtain ⟨hwide', h'⟩ := h'
  split at h
  · cases h
  rename_i mask hmask
  split at h'
  · cases h'
  rename_i mask' hmask'
  obtain rfl := Option.some.inj h
  simp only [Option.some.injEq, Instruction.mk.injEq, List.cons.injEq, Operand.reg.injEq,
    Operand.imm.injEq, Immediate.mk.injEq, logicalOp_field_inj, registerAt_inj] at h'
  obtain ⟨hop, ⟨h0, hwidth, -⟩, ⟨h5, -, -⟩, ⟨rfl, -⟩, -⟩ := h'
  rw [hwidth] at hmask' hwide'
  have h22 := field_one w 22
  have h22' := field_one w' 22
  have hwidths : widthOf w = 32 ∨ widthOf w = 64 := by
    unfold widthOf
    split <;> omega
  obtain ⟨log, hlog, hmax, hn, himms, himmr⟩ := BitMask.expand_inj (by omega) (by omega) (by omega)
    (field_lt w 10 6) (field_lt w' 10 6) hmask hmask'
  exact ⟨h0.symm, h5.symm, himms, ⟨log, hlog, hmax, himmr⟩, hn, hop.symm,
    (widthOf_inj.1 hwidth).symm⟩

/-- An inclusive or of the zero register with an unshifted register: what moves are written as. -/
def IsMove (w : Opcode) : Prop :=
  logicalOp (field w 29 2) = .orr ∧ field w 5 5 = zeroNumber ∧ field w 10 6 = 0

/-- **Logical operations with a register** give back all their fields, but for the kind of shift
when both words are moves: a move is read without its shift, which is then by nothing.

**Proof sketch.** A move and a logical operation are different instructions. Two moves have
all fields fixed but those of the registers and the width; two logical operations give back every
field. -/
theorem readLogicalReg_inj (h : readLogicalReg w = some inst) (h' : readLogicalReg w' = some inst) :
    field w 0 5 = field w' 0 5 ∧ field w 5 5 = field w' 5 5 ∧ field w 10 6 = field w' 10 6 ∧
      field w 16 5 = field w' 16 5 ∧ field w 21 1 = field w' 21 1 ∧
      (field w 22 2 = field w' 22 2 ∨ IsMove w ∧ IsMove w') ∧
      field w 29 2 = field w' 29 2 ∧ field w 31 1 = field w' 31 1 := by
  have h21 := field_one w 21
  have h21' := field_one w' 21
  have hmoves (h : logicalOp (field w 29 2) = .orr) (h' : logicalOp (field w' 29 2) = .orr) :
      field w 29 2 = field w' 29 2 := logicalOp_field_inj.1 (h.trans h'.symm)
  simp only [readLogicalReg, Option.ite_none_left_eq_some] at h h'
  obtain ⟨hok, h⟩ := h
  obtain ⟨hok', h'⟩ := h'
  have hnot (code : Nat) : logicalOp code ≠ .mov := by
    rcases logicalOp_cases code with h | h | h | h <;> simp [h]
  split_ifs at h h' <;> obtain rfl := Option.some.inj h
  · simp_all [registerAt_inj, widthOf_inj, IsMove]
  · simp_all
  · simp_all
  · simp_all [registerAt_inj, widthOf_inj, ofCode_field_inj, logicalOp_field_inj]

/-- Moves of an immediate give back all their fields. One of the four codes of the operation is
not in use.

**Proof sketch.** The code of the operation is one of three, and different codes give
different operations. With the same code the other fields can be read off the operands. -/
theorem readMoveWide_inj (h : readMoveWide w = some inst) (h' : readMoveWide w' = some inst) :
    field w 0 5 = field w' 0 5 ∧ field w 5 16 = field w' 5 16 ∧ field w 21 2 = field w' 21 2 ∧
      field w 29 2 = field w' 29 2 ∧ field w 31 1 = field w' 31 1 := by
  have h29 : field w 29 2 < 4 := field_lt w 29 2
  have h29' : field w' 29 2 < 4 := field_lt w' 29 2
  simp only [readMoveWide, Option.ite_none_left_eq_some] at h h'
  obtain ⟨-, h⟩ := h
  obtain ⟨-, h'⟩ := h'
  have hcode : field w 29 2 ≠ 1 := by
    intro hone
    rw [hone] at h
    cases h
  rw [← h] at h'
  clear h
  generalize field w 29 2 = code at *
  generalize field w' 29 2 = code' at *
  interval_cases code <;> interval_cases code' <;>
    simp_all [registerAt_inj, widthOf_inj, ofNat_field_inj]

/-- Conditional comparisons give back all their fields. Whether the second operand is a register
or an immediate is told by its shape. -/
theorem readCondCompare_inj (h : readCondCompare w = readCondCompare w') :
    field w 0 4 = field w' 0 4 ∧ field w 5 5 = field w' 5 5 ∧ field w 11 1 = field w' 11 1 ∧
      field w 12 4 = field w' 12 4 ∧ field w 16 5 = field w' 16 5 ∧ field w 30 1 = field w' 30 1 ∧
      field w 31 1 = field w' 31 1 := by
  have h11 := field_one w 11
  have h11' := field_one w' 11
  have h30 := field_one w 30
  have h30' := field_one w' 30
  simp only [readCondCompare] at h
  split_ifs at h <;> simp_all [registerAt_inj, widthOf_inj, ofNat_field_inj]

/-- Loads and stores of one register give back all their fields.

**Proof sketch.** The operation and the width of the register tell the size and the direction;
with equal sizes the offsets are the same multiple of their fields. -/
theorem readLoadStore_inj (h : readLoadStore w = some inst) (h' : readLoadStore w' = some inst) :
    field w 0 5 = field w' 0 5 ∧ field w 5 5 = field w' 5 5 ∧ field w 10 12 = field w' 10 12 ∧
      field w 22 2 = field w' 22 2 ∧ field w 26 1 = field w' 26 1 ∧
      field w 30 2 = field w' 30 2 := by
  have h26 := field_one w 26
  have h26' := field_one w' 26
  have h30 : field w 30 2 < 4 := field_lt w 30 2
  have h30' : field w' 30 2 < 4 := field_lt w' 30 2
  simp only [readLoadStore, Option.ite_none_left_eq_some, Option.some.injEq] at h h'
  obtain ⟨hok, h⟩ := h
  obtain ⟨hok', h'⟩ := h'
  replace h := h.trans h'.symm
  simp only [memoryAt, Instruction.mk.injEq, List.cons.injEq, Operand.reg.injEq,
    Operand.mem.injEq, MemoryRef.mk.injEq, registerAt_inj, Int.ofNat_inj] at h
  obtain ⟨hop, ⟨h0, hwidth, -⟩, ⟨⟨h5, -, -⟩, hoffset⟩, -⟩ := h
  -- The operation tells loads from stores and the sizes 0 and 1 from each other and from the rest,
  -- which the width of the register tells apart.
  obtain ⟨hload, hsize⟩ :
      (field w 22 2 = 1 ↔ field w' 22 2 = 1) ∧ field w 30 2 = field w' 30 2 := by
    clear hoffset
    generalize field w 30 2 = size at *
    generalize field w' 30 2 = size' at *
    interval_cases size <;> interval_cases size' <;> split_ifs at hop <;> simp_all
  rw [← hsize, Nat.shiftLeft_eq, Nat.shiftLeft_eq] at hoffset
  have h10 := Nat.eq_of_mul_eq_mul_right (Nat.two_pow_pos _) hoffset
  exact ⟨h0, h5, h10, by omega, by omega, hsize⟩

/-- Loads and stores of two registers give back all their fields. The offset is a signed field
times the size of a register, and the size is told by the width of the registers. -/
theorem readPair_inj (h : readPair w = readPair w') :
    field w 0 5 = field w' 0 5 ∧ field w 5 5 = field w' 5 5 ∧ field w 10 5 = field w' 10 5 ∧
      field w 15 7 = field w' 15 7 ∧ field w 22 1 = field w' 22 1 ∧
      field w 31 1 = field w' 31 1 := by
  have h22 := field_one w 22
  have h22' := field_one w' 22
  simp only [readPair, memoryAt, Instruction.mk.injEq, List.cons.injEq, Operand.reg.injEq,
    Operand.mem.injEq, MemoryRef.mk.injEq, registerAt_inj] at h
  obtain ⟨hop, ⟨h0, hwidth, -⟩, ⟨h10, -, -⟩, ⟨⟨h5, -, -⟩, hoffset⟩, -⟩ := h
  rw [hwidth] at hoffset
  have hsigned : signed 7 (field w 15 7) = signed 7 (field w' 15 7) := by
    split_ifs at hoffset <;> omega
  have hload : field w 22 1 = field w' 22 1 := by
    split_ifs at hop <;> simp_all
  exact ⟨h0, h5, h10, signed_field_inj.1 hsigned, hload, widthOf_inj.1 hwidth⟩

/-! ## Classes -/

/-- The fixed fields of a class. -/
def Form.Fixed (w : Opcode) : Form → Prop
  | .nop => w = 0xD503201F
  | .ret => field w 10 22 = 0x3597C0 ∧ field w 0 5 = 0
  | .branch => field w 26 6 = 0b000101
  | .branchCond => field w 24 8 = 0b01010100 ∧ field w 4 1 = 0
  | .address => field w 24 5 = 0b10000 ∧ field w 31 1 = 0
  | .addSubImm => field w 23 6 = 0b100010
  | .addSubReg => field w 24 5 = 0b01011 ∧ field w 21 1 = 0
  | .logicalImm => field w 23 6 = 0b100100
  | .logicalReg => field w 24 5 = 0b01010
  | .moveWide => field w 23 6 = 0b100101
  | .condCompare => field w 21 9 = 0b111010010 ∧ field w 10 1 = 0 ∧ field w 4 1 = 0
  | .loadStore => field w 27 3 = 0b111 ∧ field w 24 2 = 0b01
  | .pair => field w 23 8 = 0b01010010

/-- A word of a class has the fixed fields of the class.

**Proof sketch.** Classes are tried one by one; the one that is found was found by its own fixed
fields. -/
theorem Form.fixed_of_of? {form : Form} (h : Form.of? w = some form) : form.Fixed w := by
  unfold Form.of? at h
  iterate 13
    rw [ite_eq_iff] at h
    obtain ⟨hfixed, h⟩ | ⟨-, h⟩ := h
    · cases h
      exact hfixed
  cases h

/-- The class that an instruction can only come from, by its operation and, where two classes share
it, its last operand. -/
def Instruction.form? (inst : Instruction) : Option Form :=
  match inst.op with
  | .nop => some .nop
  | .ret => some .ret
  | .b => some .branch
  | .bcond => some .branchCond
  | .adr => some .address
  | .add | .adds | .sub | .subs | .cmp | .cmn =>
    match inst.operands.getLast? with
    | some (.imm _) => some .addSubImm
    | _ => some .addSubReg
  | .and | .ands | .orr | .eor =>
    match inst.operands.getLast? with
    | some (.imm _) => some .logicalImm
    | _ => some .logicalReg
  | .mov => some .logicalReg
  | .movz | .movn | .movk => some .moveWide
  | .ccmp | .ccmn => some .condCompare
  | .ldr | .ldrb | .ldrh | .str | .strb | .strh => some .loadStore
  | .ldp | .stp => some .pair
  | .unknown | .other _ => none

/-- A class gives only its own instructions.

**Proof sketch.** One case for each class: the operation of what is read, in whichever way,
is one of those of the class. -/
theorem Form.form?_of_read {form : Form} (h : form.read w = some inst) :
    inst.form? = some form := by
  cases form with
  | nop | ret | branch | branchCond | address =>
    cases h
    rfl
  | addSubImm =>
    cases h
    simp only [readAddSubImm, Instruction.form?]
    split_ifs <;> rfl
  | addSubReg =>
    simp only [read, readAddSubReg, Option.ite_none_left_eq_some, Option.some.injEq] at h
    obtain ⟨-, rfl⟩ := h
    split_ifs <;> rfl
  | logicalImm =>
    simp only [read, readLogicalImm, Option.ite_none_left_eq_some] at h
    obtain ⟨-, h⟩ := h
    split at h
    · cases h
    · cases h
      rcases logicalOp_cases (field w 29 2) with h | h | h | h <;> simp [Instruction.form?, h]
  | logicalReg =>
    simp only [read, readLogicalReg, Option.ite_none_left_eq_some] at h
    obtain ⟨-, h⟩ := h
    split at h
    · cases h
      rfl
    · cases h
      rcases logicalOp_cases (field w 29 2) with h | h | h | h <;> simp [Instruction.form?, h]
  | moveWide =>
    simp only [read, readMoveWide, Option.ite_none_left_eq_some] at h
    obtain ⟨-, h⟩ := h
    split at h <;> cases h <;> rfl
  | condCompare =>
    cases h
    unfold readCondCompare
    simp only [Instruction.form?]
    split_ifs <;> rfl
  | loadStore =>
    simp only [read, readLoadStore, Option.ite_none_left_eq_some, Option.some.injEq] at h
    obtain ⟨-, rfl⟩ := h
    generalize field w 30 2 = size
    rcases size with _ | _ | size <;> simp only [Instruction.form?] <;> split_ifs <;> rfl
  | pair =>
    cases h
    unfold readPair
    simp only [Instruction.form?]
    split_ifs <;> rfl

/-! ## Words of one instruction -/

/-- What two words of a class that are read as one instruction have in common. -/
inductive Alias (w w' : Opcode) : Form → Prop where
  /-- They are the same word. -/
  | same (form : Form) (h : w = w') : Alias w w' form
  /-- They differ in upper bits of a rotation, which is read modulo the size of an element. -/
  | rotation (log : Nat) (hlog : BitMask.sizeLog? (field w 22 1) (field w 10 6) = some log)
      (hlow : Agree w w' 0 (16 + log)) (hhigh : Agree w w' 22 32) : Alias w w' .logicalImm
  /-- They are moves that differ in the two bits for the kind of a shift. -/
  | shift (hmove : IsMove w) (hmove' : IsMove w') (hlow : Agree w w' 0 22)
      (hhigh : Agree w w' 24 32) : Alias w w' .logicalReg

/-- Words of one class that are read as one instruction. Each case goes through the fields of the
class from the lowest to the highest.

**Proof sketch.** The fixed bits of the class are the same in both words, and each field that
the instruction gives back is too. What is left open are the rotation of a mask beyond the size
of its element and the kind of shift of a move. -/
theorem Form.alias {form : Form} (hfixed : form.Fixed w) (hfixed' : form.Fixed w')
    (h : form.read w = some inst) (h' : form.read w' = some inst) : Alias w w' form := by
  cases form with
  | nop => exact .same _ (hfixed.trans hfixed'.symm)
  | ret =>
    obtain ⟨h10, h0⟩ := hfixed
    obtain ⟨h10', h0'⟩ := hfixed'
    have h5 : field w 5 5 = field w' 5 5 := by
      simpa [read, registerAt_inj] using h.trans h'.symm
    exact .same _ (((agree_of_field (h0.trans h0'.symm)).next h5).next (h10.trans h10'.symm)).eq
  | branch =>
    have h0 : field w 0 26 = field w' 0 26 := by
      simpa [read, signed_field_inj] using h.trans h'.symm
    exact .same _ ((agree_of_field h0).next (hfixed.trans hfixed'.symm)).eq
  | branchCond =>
    obtain ⟨h24, h4⟩ := hfixed
    obtain ⟨h24', h4'⟩ := hfixed'
    obtain ⟨h0, h5⟩ : field w 0 4 = field w' 0 4 ∧ field w 5 19 = field w' 5 19 := by
      simpa [read, signed_field_inj, ofNat_field_inj] using h.trans h'.symm
    exact .same _ ((((agree_of_field h0).next (h4.trans h4'.symm)).next h5).next
      (h24.trans h24'.symm)).eq
  | address =>
    obtain ⟨h24, h31⟩ := hfixed
    obtain ⟨h24', h31'⟩ := hfixed'
    obtain ⟨h0, hlabel⟩ : field w 0 5 = field w' 0 5 ∧
        signed 21 (field w 5 19 * 4 + field w 29 2) =
          signed 21 (field w' 5 19 * 4 + field w' 29 2) := by
      simpa [read, registerAt_inj] using h.trans h'.symm
    have hlt (w : Opcode) : field w 5 19 < 0x80000 ∧ field w 29 2 < 4 :=
      ⟨field_lt w 5 19, field_lt w 29 2⟩
    have hsum := (signed_inj (by have := hlt w; omega) (by have := hlt w'; omega)).1 hlabel
    obtain ⟨h5, h29⟩ : field w 5 19 = field w' 5 19 ∧ field w 29 2 = field w' 29 2 := by
      have := hlt w
      have := hlt w'
      omega
    exact .same _ (((((agree_of_field h0).next h5).next (h24.trans h24'.symm)).next h29).next
      (h31.trans h31'.symm)).eq
  | addSubImm =>
    obtain ⟨h0, h5, h10, h22, h29, h30, h31⟩ :=
      readAddSubImm_inj (Option.some.inj (h.trans h'.symm))
    have hlow := (((agree_of_field h0).next h5).next h10).next h22
    exact .same _ ((((hlow.next (hfixed.trans hfixed'.symm)).next h29).next h30).next h31).eq
  | addSubReg =>
    obtain ⟨h24, h21⟩ := hfixed
    obtain ⟨h24', h21'⟩ := hfixed'
    obtain ⟨h0, h5, h10, h16, h22, h29, h30, h31⟩ := readAddSubReg_inj h h'
    have hlow := (((agree_of_field h0).next h5).next h10).next h16
    have hmid := ((hlow.next (h21.trans h21'.symm)).next h22).next (h24.trans h24'.symm)
    exact .same _ (((hmid.next h29).next h30).next h31).eq
  | logicalImm =>
    obtain ⟨h0, h5, h10, ⟨log, hlog, hmax, h16⟩, h22, h29, h31⟩ := readLogicalImm_inj h h'
    have hlow := ((agree_of_field h0).next h5).next h10
    have hhigh := (((agree_of_field h22).next (hfixed.trans hfixed'.symm)).next h29).next h31
    exact .rotation log hlog (hlow.trans (agree_of_field_mod hmax h16)) hhigh
  | logicalReg =>
    obtain ⟨h0, h5, h10, h16, h21, h22, h29, h31⟩ := readLogicalReg_inj h h'
    have hlow := ((((agree_of_field h0).next h5).next h10).next h16).next h21
    have hhigh := ((agree_of_field (hfixed.trans hfixed'.symm)).next h29).next h31
    obtain h22 | ⟨hmove, hmove'⟩ := h22
    · exact .same _ ((hlow.next h22).trans hhigh).eq
    · exact .shift hmove hmove' hlow hhigh
  | moveWide =>
    obtain ⟨h0, h5, h21, h29, h31⟩ := readMoveWide_inj h h'
    have hlow := ((agree_of_field h0).next h5).next h21
    exact .same _ (((hlow.next (hfixed.trans hfixed'.symm)).next h29).next h31).eq
  | condCompare =>
    obtain ⟨h21, h10, h4⟩ := hfixed
    obtain ⟨h21', h10', h4'⟩ := hfixed'
    obtain ⟨h0, h5, h11, h12, h16, h30, h31⟩ :=
      readCondCompare_inj (Option.some.inj (h.trans h'.symm))
    have hlow := ((agree_of_field h0).next (h4.trans h4'.symm)).next h5
    have hmid := (((hlow.next (h10.trans h10'.symm)).next h11).next h12).next h16
    exact .same _ (((hmid.next (h21.trans h21'.symm)).next h30).next h31).eq
  | loadStore =>
    obtain ⟨h27, h24⟩ := hfixed
    obtain ⟨h27', h24'⟩ := hfixed'
    obtain ⟨h0, h5, h10, h22, h26, h30⟩ := readLoadStore_inj h h'
    have hlow := (((agree_of_field h0).next h5).next h10).next h22
    exact .same _ ((((hlow.next (h24.trans h24'.symm)).next h26).next
      (h27.trans h27'.symm)).next h30).eq
  | pair =>
    obtain ⟨h0, h5, h10, h15, h22, h31⟩ := readPair_inj (Option.some.inj (h.trans h'.symm))
    have hlow := ((((agree_of_field h0).next h5).next h10).next h15).next h22
    exact .same _ ((hlow.next (hfixed.trans hfixed'.symm)).next h31).eq

/-- **Decoding loses nothing.** Words that decode to the same operation with the same operands are
of one class and are the same word, but for the upper bits of the rotation of a logical immediate
and for the kind of shift of a move. -/
theorem alias_of_decode (h : decode w = some inst) (h' : decode w' = some inst) :
    ∃ form, Form.of? w = some form ∧ Form.of? w' = some form ∧ Alias w w' form := by
  rw [decode, Option.bind_eq_bind, Option.bind_eq_some_iff] at h h'
  obtain ⟨form, hform, hread⟩ := h
  obtain ⟨form', hform', hread'⟩ := h'
  obtain rfl : form = form' :=
    Option.some.inj ((Form.form?_of_read hread).symm.trans (Form.form?_of_read hread'))
  exact ⟨form, hform, hform',
    Form.alias (Form.fixed_of_of? hform) (Form.fixed_of_of? hform') hread hread'⟩

/-- Two words for the move of one register into another. -/
theorem alias_move_words :
    let inst : Instruction := { op := .mov, operands := [.reg (.x 0), .reg (.x 1)] }
    decode 0xaa0103e0 = some inst ∧ decode 0xaa4103e0 = some inst ∧
      ∃ form, Form.of? 0xaa0103e0 = some form ∧ Form.of? 0xaa4103e0 = some form ∧
        Alias 0xaa0103e0 0xaa4103e0 form := by
  intro inst
  have h : decode 0xaa0103e0 = some inst := by decide
  have h' : decode 0xaa4103e0 = some inst := by decide
  exact ⟨h, h', alias_of_decode h h'⟩

end Dynarec.Guest
