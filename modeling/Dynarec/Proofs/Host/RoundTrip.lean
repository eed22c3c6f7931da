import Dynarec.Host.Decode
import Dynarec.Host.Encode
import Mathlib.Tactic.IntervalCases

/-!
# Encodings can be read back

The bytes of an instruction, read by the rules of the host, give the instruction back and leave what
stands behind them alone. An instruction without an encoding is one whose width, size, immediate,
shift amount, condition or displacement has none.

## Main definitions

* `Dynarec.Host.Decoded.encode` — the bytes of an instruction or jump.
* `Dynarec.Host.Decoded.Named` — the operation is one of those in use.
* `Dynarec.Host.Decoded.Encodable` — which instructions have an encoding.

## Main results

* `Dynarec.Host.decode_leading` — reading past the bytes in front of an opcode.
* `Dynarec.Host.readOperands_memoryForm` — reading a memory operand.
* `Dynarec.Host.Decoded.decode_encode` — which instructions have an encoding, and that it is read
  back.
-/

set_option autoImplicit false

namespace Dynarec.Host

/-! ## Numbers -/

/-- Reading `n` bytes that spell a number gives the number modulo `256 ^ n`, and what stands
behind them. -/
@[simp] theorem readNumber_littleEndian (n v : Nat) (rest : List Byte) :
    readNumber n (littleEndian n v ++ rest) = some (v % Nat.pow 256 n, rest) := by
  have hlength : (littleEndian n v).length = n := length_littleEndian n v
  rw [readNumber, if_neg (by rw [List.length_append, hlength]; omega), List.take_left' hlength,
    List.drop_left' hlength, ofLittleEndian_littleEndian]

/-- Reading one byte as a number. -/
@[simp] theorem readNumber_byte (b : Byte) (rest : List Byte) :
    readNumber 1 (b :: rest) = some (b.toNat, rest) := by
  simp [readNumber, ofLittleEndian]

/-- A number that is small as a signed number is the sign extension of its low bits. -/
theorem signExtend_setWidth {n k : Nat} {v : BitVec n} (hk : k ≤ n)
    (hlow : -((2 ^ k : Nat) : Int) ≤ v.toInt * 2) (hhigh : v.toInt * 2 < (2 ^ k : Nat)) :
    (v.setWidth k).signExtend n = v := by
  apply BitVec.eq_of_toInt_eq
  calc ((v.setWidth k).signExtend n).toInt
      = (v.toNat : Int).bmod (2 ^ k) := by
        rw [BitVec.toInt_signExtend, BitVec.toInt_setWidth, Nat.min_eq_right hk, Int.bmod_bmod]
    _ = v.toInt.bmod (2 ^ k) := by
        rw [BitVec.toInt_eq_toNat_bmod, Int.bmod_bmod_of_dvd (Nat.pow_dvd_pow 2 hk)]
    _ = v.toInt := Int.bmod_eq_of_le_mul_two hlow hhigh

/-- The low byte of a signed 8-bit number spells it. -/
theorem signExtend_byte {n : Nat} {v : BitVec n} (hn : 8 ≤ n) (hv : fitsInt8 v.toInt = true) :
    (BitVec.ofNat 8 (v.toNat % 256)).signExtend n = v := by
  simp only [fitsInt8, decide_eq_true_eq] at hv
  have hlow : BitVec.ofNat 8 (v.toNat % 256) = v.setWidth 8 := BitVec.eq_of_toNat_eq (by simp)
  rw [hlow]
  exact signExtend_setWidth hn (by omega) (by omega)

/-- The four low bytes of a signed 32-bit number spell it. -/
theorem signExtend_half {v : Word} (hv : fitsInt32 v.toInt = true) :
    (BitVec.ofNat 32 (v.toNat % 4294967296)).signExtend 64 = v := by
  simp only [fitsInt32, decide_eq_true_eq] at hv
  have hlow : BitVec.ofNat 32 (v.toNat % 4294967296) = v.setWidth 32 :=
    BitVec.eq_of_toNat_eq (by simp)
  rw [hlow]
  exact signExtend_setWidth (by omega) (by omega) (by omega)

/-- Four bytes spell a 32-bit number. -/
theorem ofNat_mod_half (v : BitVec 32) : BitVec.ofNat 32 (v.toNat % 4294967296) = v := by
  rw [Nat.mod_eq_of_lt v.isLt, BitVec.ofNat_toNat, BitVec.setWidth_eq]

/-! ## In front of the opcode -/

/-- The extension byte that operands call for. -/
def Extension.needed (width : Int) (reg rm : Nat) (force : Bool) : Extension where
  present := width = 64 ∨ 8 ≤ reg ∨ 8 ≤ rm ∨ force
  wide := width = 64
  reg := 8 ≤ reg
  base := 8 ≤ rm

/-- An extension byte gives back the four bits that it was made of. -/
theorem readExtension_rex (wide high highBase : Bool) (rest : List Byte) :
    readExtension (rex wide high highBase :: rest) =
      ({ present := true, wide := wide, reg := high, base := highBase }, rest) := by
  cases wide <;> cases high <;> cases highBase <;> rfl

/-- An extension byte is no operand-size byte. -/
theorem rex_ne (wide high highBase : Bool) : rex wide high highBase ≠ 0x66 := by
  cases wide <;> cases high <;> cases highBase <;> decide

/-- An instruction behind its operand-size byte, read past the extension byte it needs. -/
theorem decodeOpcode_needed (narrow : Bool) (width : Int) (reg rm : Nat) (force : Bool) {op : Byte}
    (hop : op.toNat / 16 ≠ 4) (rest : List Byte) :
    decodeOpcode narrow ((if width = 64 ∨ 8 ≤ reg ∨ 8 ≤ rm ∨ force then
        [rex (width = 64) (8 ≤ reg) (8 ≤ rm)] else []) ++ op :: rest) =
      if op = 0x0F then if narrow then none else decodeLong (.needed width reg rm force) rest
      else decodeShort narrow (.needed width reg rm force) op.toNat rest := by
  split
  case isTrue h => simp [decodeOpcode, readExtension_rex, Extension.needed, h]
  case isFalse h =>
    have hnone : Extension.needed width reg rm force = {} := by
      simp only [not_or] at h
      simp [Extension.needed, h]
    simp [decodeOpcode, readExtension, hop, hnone]

/-- Without an operand-size byte in front, reading begins at the extension byte or the opcode. -/
theorem decode_of_ne {b : Byte} (hb : b ≠ 0x66) (rest : List Byte) :
    decode (b :: rest) = decodeOpcode false (b :: rest) := by
  rw [decode, if_neg hb]

/-- **Reading past the bytes in front of an opcode.** The opcode must not be such a byte itself. -/
theorem decode_leading (width : Int) (reg rm : Nat) (force : Bool) {op : Byte}
    (hop : op.toNat / 16 ≠ 4) (hsize : op ≠ 0x66) (rest : List Byte) :
    decode (leading width reg rm force ++ op :: rest) =
      if op = 0x0F then
        if width = 16 then none else decodeLong (.needed width reg rm force) rest
      else decodeShort (width = 16) (.needed width reg rm force) op.toNat rest := by
  have hopcode := decodeOpcode_needed (width = 16) width reg rm force hop rest
  simp only [decide_eq_true_eq] at hopcode
  rw [leading, ← hopcode]
  by_cases hw : width = 16
  case pos => simp [hw, decode]
  case neg =>
    rw [if_neg hw, List.nil_append, decide_eq_false hw]
    split
    · exact decode_of_ne (rex_ne _ _ _) _
    · exact decode_of_ne hsize _

/-- Reading past the bytes in front of a one-byte opcode. The opcode is given by its number, so
that `simp` can tell the cases apart by evaluation. -/
theorem decode_short (width : Int) (reg rm : Nat) (force : Bool) {op : Byte}
    (hop : op.toNat / 16 ≠ 4) (hsize : op.toNat ≠ 0x66) (hlong : op.toNat ≠ 0x0F)
    (rest : List Byte) :
    decode (leading width reg rm force ++ op :: rest) =
      decodeShort (width = 16) (.needed width reg rm force) op.toNat rest := by
  have hsize' : op ≠ 0x66 := fun h => hsize (congrArg BitVec.toNat h)
  have hlong' : op ≠ 0x0F := fun h => hlong (congrArg BitVec.toNat h)
  rw [decode_leading width reg rm force hop hsize', if_neg hlong']

/-- Reading past the bytes in front of a two-byte opcode, which no instruction of 16 bits has
here. -/
theorem decode_long {width : Int} (hw : width ≠ 16) (reg rm : Nat) (force : Bool) {op : Byte}
    (hop : op = 0x0F) (rest : List Byte) :
    decode (leading width reg rm force ++ op :: rest) =
      decodeLong (.needed width reg rm force) rest := by
  subst hop
  rw [decode_leading width reg rm force (by decide) (by decide), if_pos rfl, if_neg hw]

/-! ## Operands -/

/-- The three low bits of a register number and its high bit make up the register. -/
@[simp] theorem regOf_mod (r : Reg) : regOf (r.val % 8) (8 ≤ r.val) = r := by
  revert r
  decide

/-- The operand byte as a number: two bits for the mode and three for each operand. -/
theorem toNat_modRM {mode : Nat} (hmode : mode < 4) (reg rm : Nat) :
    (modRM mode reg rm).toNat = 64 * mode + 8 * (reg % 8) + rm % 8 := by
  rw [modRM, BitVec.toNat_ofNat]
  omega

/-- Reading a register operand. -/
theorem readOperands_registerForm (e : Extension) (reg rm : Nat) (rest : List Byte) :
    readOperands e (registerForm reg rm :: rest) =
      some (regOf (reg % 8) e.reg, .reg (regOf (rm % 8) e.base), rest) := by
  have hbyte := toNat_modRM (show 3 < 4 by omega) reg rm
  have hmode : (modRM 3 reg rm).toNat / 64 = 3 := by omega
  have hreg : (modRM 3 reg rm).toNat / 8 % 8 = reg % 8 := by omega
  have hrm : (modRM 3 reg rm).toNat % 8 = rm % 8 := by omega
  simp [readOperands, registerForm, hmode, hreg, hrm]

/-- The byte that some base registers need is read back to nothing. -/
theorem readBase_extra {e : Extension} {base : Reg} (hindex : e.index = false)
    (hbase : e.base = decide (8 ≤ base.val)) (rest : List Byte) :
    readBase e (base.val % 8) ((if base.val % 8 = 4 then [0x24] else []) ++ rest) =
      some (base, rest) := by
  by_cases hfour : base.val % 8 = 4
  case pos =>
    have hreg := regOf_mod base
    rw [hfour] at hreg
    simp [readBase, hfour, hindex, hbase, hreg]
  case neg => simp [readBase, hfour, hbase]

/-- Reading a memory operand in one of its three modes. Without displacement the base must not be
one that always carries a displacement. -/
theorem readOperands_mode {e : Extension} {base : Reg} (hindex : e.index = false)
    (hbase : e.base = decide (8 ≤ base.val)) {mode : Nat} (hmode : mode < 3)
    {bytes rest : List Byte} {disp : BitVec 32}
    (hdisp : readDisplacement mode bytes = some (disp, rest))
    (hfive : mode = 0 → base.val % 8 ≠ 5) (reg : Nat) :
    readOperands e (modRM mode reg base.val ::
        ((if base.val % 8 = 4 then [0x24] else []) ++ bytes)) =
      some (regOf (reg % 8) e.reg, .mem base disp, rest) := by
  have hbyte := toNat_modRM (show mode < 4 by omega) reg base.val
  have hmode' : (modRM mode reg base.val).toNat / 64 = mode := by omega
  have hreg : (modRM mode reg base.val).toNat / 8 % 8 = reg % 8 := by omega
  have hrm : (modRM mode reg base.val).toNat % 8 = base.val % 8 := by omega
  have hnot : ¬ (mode = 0 ∧ base.val % 8 = 5) := fun h => hfive h.1 h.2
  simp only [readOperands, hmode', hreg, hrm, if_neg (show mode ≠ 3 by omega),
    readBase_extra hindex hbase, Option.bind_eq_bind, Option.bind_some, if_neg hnot, hdisp]

/-- **Reading a memory operand.**

**Proof sketch.** By the three ways to write a displacement: none at all, one byte, or four.
Each has its own mode and reads its displacement back (`readOperands_mode`). -/
theorem readOperands_memoryForm {e : Extension} {base : Reg} (hindex : e.index = false)
    (hbase : e.base = decide (8 ≤ base.val)) (reg : Nat) (disp : BitVec 32) (rest : List Byte) :
    readOperands e (memoryForm reg base disp ++ rest) =
      some (regOf (reg % 8) e.reg, .mem base disp, rest) := by
  simp only [memoryForm]
  by_cases hnone : disp = 0 ∧ base.val % 8 ≠ 5
  case pos =>
    rw [if_pos hnone, hnone.1, List.cons_append]
    exact readOperands_mode hindex hbase (show 0 < 3 by omega) rfl (fun _ => hnone.2) reg
  rw [if_neg hnone]
  by_cases hbyte : fitsInt8 disp.toInt = true
  case pos =>
    have hdisp : readDisplacement 1 ([disp.setWidth 8] ++ rest) = some (disp, rest) := by
      simp [readDisplacement, signExtend_byte _ hbyte]
    rw [if_pos hbyte, List.cons_append, List.cons_append, List.append_assoc]
    exact readOperands_mode hindex hbase (show 1 < 3 by omega) hdisp (by omega) reg
  case neg =>
    have hdisp : readDisplacement 2 (littleEndian 4 disp.toNat ++ rest) = some (disp, rest) := by
      simp [readDisplacement, ofNat_mod_half]
    rw [if_neg hbyte, List.cons_append, List.cons_append, List.append_assoc]
    exact readOperands_mode hindex hbase (show 2 < 3 by omega) hdisp (by omega) reg

/-! ## Instructions -/

/-- The operation is one of those in use. -/
def AluOp.isNamed : AluOp → Bool
  | other _ => false
  | _ => true

/-- The operation is one of those in use. -/
def ShiftOp.isNamed : ShiftOp → Bool
  | other _ => false
  | _ => true

/-- The operation of the instruction, where it has one, is one of those in use. -/
def Inst.Named : Inst → Prop
  | alu op _ _ _ | aluImm op _ _ _ => op.isNamed
  | shift op _ _ _ => op.isNamed
  | _ => True

/-- The width, size, immediate, shift amount or condition has an encoding. -/
def Inst.Encodable : Inst → Prop
  | mov width _ _ | alu _ width _ _ | test width _ _ => width = 32 ∨ width = 64
  | load _ _ _ size | store _ _ _ size => size = 1 ∨ size = 2 ∨ size = 4 ∨ size = 8
  | aluImm _ width _ imm =>
    (width = 32 ∨ width = 64) ∧ -2 ^ 31 ≤ imm.toInt ∧ imm.toInt < 2 ^ 31
  | shift _ width _ amount => (width = 32 ∨ width = 64) ∧ amount.toNat < width
  | setcc cond _ => cond.code.toNat < 16
  | _ => True

/-- The code of a named operation fits into the three bits of its field. -/
theorem AluOp.code_lt {op : AluOp} (h : op.isNamed = true) : op.code.toNat < 8 := by
  cases op with
  | other => cases h
  | _ => decide

/-- The code of a named operation names it again. -/
theorem AluOp.ofCode_code {op : AluOp} (h : op.isNamed = true) : ofCode op.code = op := by
  cases op with
  | other => cases h
  | _ => rfl

/-- The code of a named shift fits into the three bits of its field. -/
theorem ShiftOp.code_lt {op : ShiftOp} (h : op.isNamed = true) : op.code.toNat < 8 := by
  cases op with
  | other => cases h
  | _ => decide

/-- The code of a named shift names it again. -/
theorem ShiftOp.ofCode_code {op : ShiftOp} (h : op.isNamed = true) : ofCode op.code = op := by
  cases op with
  | other => cases h
  | _ => rfl

/-- An opcode below 64 that ends in 1 is an operation on two registers. -/
theorem decodeShort_alu (e : Extension) {n : Nat} (hn : n < 8) (reg rm : Nat) (rest : List Byte) :
    decodeShort false e (n * 8 + 1) (registerForm reg rm :: rest) =
      some (.inst (.alu (.ofCode (BitVec.ofNat 8 n)) e.width (regOf (rm % 8) e.base)
        (regOf (reg % 8) e.reg)), rest) := by
  have hdiv : (n * 8 + 1) / 8 = n := by omega
  simp only [decodeShort, Bool.false_eq_true, if_false, hdiv]
  rw [if_neg (by omega), if_neg (by omega), if_neg (by omega), if_neg (by omega),
    if_pos (by omega)]
  simp [readModRM, readOperands_registerForm]

/-- A two-byte opcode from `0x90` to `0x9f` sets a byte by a condition. -/
theorem decodeLong_setcc (e : Extension) {n : Nat} (hn : n < 16) (reg rm : Nat)
    (hlow : e.namesLowByte (regOf (rm % 8) e.base) = true) (rest : List Byte) :
    decodeLong e (BitVec.ofNat 8 (0x90 + n) :: registerForm reg rm :: rest) =
      some (.inst (.setcc ⟨BitVec.ofNat 8 n⟩ (regOf (rm % 8) e.base)), rest) := by
  have hbyte : (BitVec.ofNat 8 (0x90 + n)).toNat = 0x90 + n := by
    rw [BitVec.toNat_ofNat]
    omega
  have hmod : (0x90 + n) % 16 = n := by omega
  simp only [decodeLong, hbyte, hmod]
  rw [if_neg (by omega), if_neg (by omega), if_neg (by omega), if_pos (by omega)]
  simp [readModRM, readOperands_registerForm, hlow]

/-- Where a byte of a register is named, the extension byte is forced for it. -/
theorem namesLowByte_needed (width : Int) (reg rm : Nat) (r : Reg) :
    (Extension.needed width reg rm (4 ≤ r.val)).namesLowByte r = true := by
  simp only [Extension.namesLowByte, Extension.needed, Bool.or_eq_true, decide_eq_true_eq]
  omega

/-- The operation of an instruction without a second register stands in its register field. -/
theorem operationField_regOf {code : Byte} (hcode : code.toNat < 8) :
    operationField (regOf (code.toNat % 8) false) = code := by
  revert code
  decide

/-- The instruction has an encoding, and its bytes are read back whatever stands behind them. -/
def Inst.ReadsBack (i : Inst) : Prop :=
  ∃ bytes, i.encode = .ok bytes ∧ ∀ rest, decode (bytes ++ rest) = some (.inst i.canonical, rest)

namespace Inst

variable {width : Int}

/-- Moves between registers of either width are read back. -/
theorem readsBack_mov (hw : width = 32 ∨ width = 64) (dst src : Reg) :
    (mov width dst src).ReadsBack := by
  obtain rfl | rfl := hw <;> refine ⟨_, rfl, fun rest => ?_⟩ <;>
    simp [decode_short, decodeShort, readModRM, readOperands_registerForm, Extension.needed,
      Extension.width, canonical]

/-- Tests of two registers of either width are read back. -/
theorem readsBack_test (hw : width = 32 ∨ width = 64) (x y : Reg) :
    (test width x y).ReadsBack := by
  obtain rfl | rfl := hw <;> refine ⟨_, rfl, fun rest => ?_⟩ <;>
    simp [decode_short, decodeShort, readModRM, readOperands_registerForm, Extension.needed,
      Extension.width, canonical]

/-- Operations on two registers are read back.

**Proof sketch.** The opcode is eight times the code of the operation and one more, which tells
operations on two registers from every other opcode below 64 (`decodeShort_alu`). -/
theorem readsBack_alu {op : AluOp} (hop : op.isNamed = true) (hw : width = 32 ∨ width = 64)
    (dst src : Reg) : (alu op width dst src).ReadsBack := by
  have hcode := AluOp.code_lt hop
  have hbyte : (BitVec.ofNat 8 (op.code.toNat * 8 + 1)).toNat = op.code.toNat * 8 + 1 := by
    rw [BitVec.toNat_ofNat]
    omega
  refine ⟨_, if_pos (by simpa [isWidth] using hw), fun rest => ?_⟩
  rw [List.append_assoc, List.cons_append,
    decode_short _ _ _ _ (by omega) (by omega) (by omega), hbyte]
  obtain rfl | rfl := hw <;>
    simp [decodeShort_alu _ hcode, Extension.needed, Extension.width, AluOp.ofCode_code hop,
      canonical]

/-- Operations on a register and an immediate of 32 bits are read back.

**Proof sketch.** There are two opcodes, one for an immediate that fits into a signed byte and
one for four bytes. Either way the immediate is the sign extension of the bytes that spell it,
and the operation stands in the register field of the operand byte. -/
theorem readsBack_aluImm {op : AluOp} (hop : op.isNamed = true) (hw : width = 32 ∨ width = 64)
    (dst : Reg) {imm : Word} (himm : fitsInt32 imm.toInt = true) :
    (aluImm op width dst imm).ReadsBack := by
  have hw' : isWidth width = true := by simpa [isWidth] using hw
  have hop' : AluOp.ofCode (operationField (regOf (op.code.toNat % 8) false)) = op := by
    rw [operationField_regOf (AluOp.code_lt hop), AluOp.ofCode_code hop]
  refine ⟨_, (if_neg (by simp [hw'])).trans (if_neg (by simp [himm])), fun rest => ?_⟩
  by_cases hbyte : fitsInt8 imm.toInt = true
  case pos =>
    have hvalue : (BitVec.ofNat 8 (imm.toNat % 256)).signExtend 64 = imm :=
      signExtend_byte (by omega) hbyte
    rw [if_pos hbyte]
    obtain rfl | rfl := hw <;>
      simp [decode_short, decodeShort, readAluImm, readOperands_registerForm, Extension.needed,
        Extension.width, hop', hvalue, canonical]
  case neg =>
    rw [if_neg hbyte]
    obtain rfl | rfl := hw <;>
      simp [decode_short, decodeShort, readAluImm, readOperands_registerForm, Extension.needed,
        Extension.width, hop', signExtend_half himm, canonical]

/-- Shifts by an amount below the width are read back.

**Proof sketch.** A shift by one has an opcode of its own, without an immediate; any other amount
is a byte behind the operand byte. In both the operation stands in the register field. -/
theorem readsBack_shift {op : ShiftOp} (hop : op.isNamed = true) (hw : width = 32 ∨ width = 64)
    (dst : Reg) {amount : Byte} (hamount : amount.toNat < width) :
    (shift op width dst amount).ReadsBack := by
  have hw' : isWidth width = true := by simpa [isWidth] using hw
  have hop' : ShiftOp.ofCode (operationField (regOf (op.code.toNat % 8) false)) = op := by
    rw [operationField_regOf (ShiftOp.code_lt hop), ShiftOp.ofCode_code hop]
  refine ⟨_, (if_neg (by simp [hw'])).trans (if_neg (by omega)), fun rest => ?_⟩
  by_cases hone : amount = 1
  case pos =>
    rw [if_pos hone]
    obtain rfl | rfl := hw <;>
      simp [decode_short, decodeShort, readShift, readOperands_registerForm, Extension.needed,
        Extension.width, hop', hone, canonical]
  case neg =>
    rw [if_neg hone]
    obtain rfl | rfl := hw <;>
      simp [decode_short, decodeShort, readShift, readOperands_registerForm, Extension.needed,
        Extension.width, hop', canonical]

/-- Reading a move of an immediate whose register is named in the opcode.

**Proof sketch.** The opcode is the least one of its kind plus the low bits of the register;
the other bit and the width are in the prefix. -/
theorem decode_opcodeMove {width : Int} (hw : width ≠ 16) {dst : Reg} {n : Nat}
    (hn : n = if width = 64 then 8 else 4) {value : Word} (hvalue : value.toNat < Nat.pow 256 n)
    (rest : List Byte) :
    decode (leading width 0 dst.val false ++
        (BitVec.ofNat 8 (0xB8 + dst.val % 8) :: littleEndian n value.toNat) ++ rest) =
      some (.inst (.movImm dst value), rest) := by
  have hbyte : (BitVec.ofNat 8 (0xB8 + dst.val % 8)).toNat = 0xB8 + dst.val % 8 := by
    rw [BitVec.toNat_ofNat]
    omega
  have hmod : (0xB8 + dst.val % 8) % 8 = dst.val % 8 := by omega
  have hsize : (if (Extension.needed width 0 dst.val false).wide then 8 else 4) = n := by
    simp [Extension.needed, hn]
  rw [List.append_assoc, List.cons_append, decode_short _ _ _ _ (by omega) (by omega) (by omega),
    hbyte, decide_eq_false hw, decodeShort]
  -- The opcodes with a register in them come behind eleven others.
  simp only [Bool.false_eq_true, if_false]
  rw [if_neg (by omega), if_neg (by omega), if_neg (by omega), if_neg (by omega), if_neg (by omega),
    if_neg (by omega), if_neg (by omega), if_neg (by omega), if_neg (by omega), if_neg (by omega),
    if_pos (by omega), hsize, readNumber_littleEndian, Nat.mod_eq_of_lt hvalue]
  simp [hmod, Extension.needed]

/-- The long form of a move, with all eight bytes of the value, is read back as a move of that
value. -/
theorem decode_movAbsBytes (dst : Reg) (value : Word) (rest : List Byte) :
    decode (movAbsBytes dst value ++ rest) = some (.inst (.movImm dst value), rest) := by
  have hfront : movAbsBytes dst value = leading 64 0 dst.val false ++
      (BitVec.ofNat 8 (0xB8 + dst.val % 8) :: littleEndian 8 value.toNat) := by
    simp [movAbsBytes, leading]
  rw [hfront]
  exact decode_opcodeMove (by omega) rfl value.isLt rest

/-- Moves in the long form are read back. The form is not told apart from the others when it is
read. -/
theorem readsBack_movAbs (dst : Reg) (value : Word) : (movAbs dst value).ReadsBack :=
  ⟨_, rfl, decode_movAbsBytes dst value⟩

/-- **Moves of a value** are read back in whichever of the three forms was chosen.

**Proof sketch.** A value below `2 ^ 32` is spelled by four bytes and read without sign, one that
is small as a signed number by four bytes that are read with sign, and any other by all eight
bytes. -/
theorem readsBack_movImm (dst : Reg) (value : Word) : (movImm dst value).ReadsBack := by
  refine ⟨_, rfl, fun rest => ?_⟩
  by_cases hsmall : value.toNat < 0x100000000
  case pos =>
    have hfront : (if 8 ≤ dst.val then [rex false false true] else []) =
        leading 32 0 dst.val false := by
      by_cases h : 8 ≤ dst.val <;> simp [leading, h]
    rw [if_pos hsmall, hfront]
    exact decode_opcodeMove (by omega) rfl hsmall rest
  rw [if_neg hsmall]
  by_cases hsigned : fitsInt32 value.toInt = true
  case pos =>
    have hfront : [rex true false (8 ≤ dst.val)] = leading 64 0 dst.val false := by simp [leading]
    have hreg : regOf 0 false = 0 := rfl
    rw [if_pos hsigned, ← List.singleton_append, hfront]
    simp [decode_short, decodeShort, readMovImm, readOperands_registerForm, Extension.needed, hreg,
      signExtend_half hsigned, canonical]
  case neg =>
    rw [if_neg hsigned]
    exact decode_movAbsBytes dst value rest

/-- Loads of each size are read back, with every base register and displacement. -/
theorem readsBack_load {size : Int} (hsize : size = 1 ∨ size = 2 ∨ size = 4 ∨ size = 8)
    (dst base : Reg) (disp : BitVec 32) : (load dst base disp size).ReadsBack := by
  obtain rfl | rfl | rfl | rfl := hsize <;> refine ⟨_, rfl, fun rest => ?_⟩ <;>
    simp [decode_short, decode_long, decodeShort, decodeLong, readModRM, readOperands_memoryForm,
      Extension.needed, canonical]

/-- Stores of each size are read back. A store of one byte forces the extension byte where the
register would name another byte without it. -/
theorem readsBack_store {size : Int} (hsize : size = 1 ∨ size = 2 ∨ size = 4 ∨ size = 8)
    (base : Reg) (disp : BitVec 32) (src : Reg) : (store base disp src size).ReadsBack := by
  have hlow := namesLowByte_needed 8 src.val base.val src
  rw [Extension.needed] at hlow
  obtain rfl | rfl | rfl | rfl := hsize <;> refine ⟨_, rfl, fun rest => ?_⟩ <;>
    simp_all [decode_short, decodeShort, readModRM, readOperands_memoryForm, Extension.needed,
      canonical]

/-- Stores of an immediate are read back. -/
theorem readsBack_storeImm (base : Reg) (disp imm : BitVec 32) :
    (storeImm base disp imm).ReadsBack := by
  refine ⟨_, rfl, fun rest => ?_⟩
  have hreg : regOf 0 false = 0 := rfl
  simp [decode_short, decodeShort, readMovImm, readOperands_memoryForm, Extension.needed, hreg,
    ofNat_mod_half, canonical]

/-- Setting a byte by a condition is read back.

**Proof sketch.** The condition stands in the low four bits of the second opcode byte
(`decodeLong_setcc`), and the extension byte is forced for a register whose low byte has no name
without it. -/
theorem readsBack_setcc {cond : Cond} (hcond : cond.code.toNat < 16) (dst : Reg) :
    (setcc cond dst).ReadsBack := by
  refine ⟨_, if_pos hcond, fun rest => ?_⟩
  have hlow := namesLowByte_needed 8 0 dst.val dst
  have hdst : regOf (dst.val % 8) (Extension.needed 8 0 dst.val (4 ≤ dst.val)).base = dst :=
    regOf_mod dst
  rw [List.append_assoc, List.cons_append, decode_long (by omega) _ _ _ rfl, List.cons_append,
    List.cons_append, decodeLong_setcc _ hcond _ _ (by rw [hdst]; exact hlow), hdst]
  simp [canonical]

/-- Zero extensions of 16 bits are read back. -/
theorem readsBack_movzx16 (dst src : Reg) : (movzx16 dst src).ReadsBack := by
  refine ⟨_, rfl, fun rest => ?_⟩
  simp [decode_long, decodeLong, readModRM, readOperands_registerForm, Extension.needed, canonical]

/-- Bit tests are read back. -/
theorem readsBack_bt (base bit : Reg) : (bt base bit).ReadsBack := by
  refine ⟨_, rfl, fun rest => ?_⟩
  simp [decode_long, decodeLong, readModRM, readOperands_registerForm, Extension.needed, canonical]

/-- An instruction of a named operation that should have an encoding has one that is read back.

**Proof sketch.** One case for each instruction, with its own lemma on bytes. -/
theorem Encodable.readsBack {i : Inst} (hi : i.Encodable) (hnamed : i.Named) : i.ReadsBack := by
  cases i with
  | mov width dst src => exact readsBack_mov hi dst src
  | movImm dst value => exact readsBack_movImm dst value
  | movAbs dst value => exact readsBack_movAbs dst value
  | load dst base disp size => exact readsBack_load hi dst base disp
  | store base disp src size => exact readsBack_store hi base disp src
  | storeImm base disp imm => exact readsBack_storeImm base disp imm
  | alu op width dst src => exact readsBack_alu hnamed hi dst src
  | aluImm op width dst imm =>
    obtain ⟨hw, hlow, hhigh⟩ := hi
    exact readsBack_aluImm hnamed hw dst (by simp only [fitsInt32, decide_eq_true_eq]; omega)
  | test width x y => exact readsBack_test hi x y
  | shift op width dst amount => exact readsBack_shift hnamed hi.1 dst hi.2
  | setcc cond dst => exact readsBack_setcc hi dst
  | movzx16 dst src => exact readsBack_movzx16 dst src
  | bt base bit => exact readsBack_bt base bit
  | lahf | ret | nop => exact ⟨_, rfl, fun _ => rfl⟩

/-- An instruction that should have no encoding has none.

**Proof sketch.** One case for each instruction: what makes it not encodable is what the
encoder tests, in the order of its tests. -/
theorem encode_error {i : Inst} (hi : ¬ i.Encodable) : ∃ error, i.encode = .error error := by
  cases i with
  | mov width dst src | alu op width dst src | test width x y =>
    exact ⟨_, if_neg (by simpa [isWidth, Encodable] using hi)⟩
  | load dst base disp size | store base disp src size =>
    simp only [Encodable, not_or] at hi
    exact ⟨_, by rw [encode, if_neg hi.1, if_neg hi.2.1, if_neg hi.2.2.1, if_neg hi.2.2.2]⟩
  | aluImm op width dst imm =>
    by_cases hw : isWidth width = true
    · have himm : ¬ fitsInt32 imm.toInt = true := by
        simp only [Encodable, isWidth, fitsInt32, decide_eq_true_eq] at hi hw ⊢
        omega
      exact ⟨_, by rw [encode, if_neg (by simp [hw]), if_pos (by simp [himm])]⟩
    · exact ⟨_, if_pos (by simp [hw])⟩
  | shift op width dst amount =>
    by_cases hw : isWidth width = true
    · have hamount : width ≤ amount.toNat := by
        simp only [Encodable, isWidth, decide_eq_true_eq] at hi hw
        omega
      exact ⟨_, by rw [encode, if_neg (by simp [hw]), if_pos hamount]⟩
    · exact ⟨_, if_pos (by simp [hw])⟩
  | setcc cond dst => exact ⟨_, if_neg hi⟩
  | movImm | movAbs | storeImm | movzx16 | bt | lahf | ret | nop => exact absurd trivial hi

end Inst

/-! ## Jumps -/

/-- The displacement has an encoding: four bytes always do, one byte does for a signed byte. -/
def Jump.Encodable (j : Jump) : Prop :=
  j.wide = true ∨ -128 ≤ j.rel.toInt ∧ j.rel.toInt ≤ 127

/-- The condition is one of the sixteen that test flags, or none. -/
def Jump.Named (j : Jump) : Prop :=
  j.cond.code.toNat ≤ Cond.always.code.toNat

/-- A byte with a condition in its lower half. -/
theorem toNat_or_cond {c : Byte} (hc : c.toNat < 16) :
    (0x70 ||| c).toNat = 0x70 + c.toNat ∧ (0x80 ||| c).toNat = 0x80 + c.toNat := by
  revert c
  decide

/-- Reading a jump without condition. -/
theorem decode_jump_always (rel : BitVec 32) {wide : Bool}
    (hfits : wide = false → fitsInt8 rel.toInt = true) (rest : List Byte) :
    decode ((if wide then 0xE9 :: littleEndian 4 rel.toNat else [0xEB, rel.setWidth 8]) ++ rest) =
      some (.jump { cond := .always, rel := rel, wide := wide }, rest) := by
  cases wide with
  | true => simp [decode, decodeOpcode, readExtension, decodeShort, ofNat_mod_half]
  | false =>
    simp [decode, decodeOpcode, readExtension, decodeShort, signExtend_byte _ (hfits rfl)]

/-- A two-byte opcode from `0x80` to `0x8f` is a wide jump on a condition. -/
theorem decodeLong_jump (e : Extension) {op : Byte} {n : Nat} (hop : op.toNat = 0x80 + n)
    (hn : n < 16) (rel : BitVec 32) (rest : List Byte) :
    decodeLong e (op :: (littleEndian 4 rel.toNat ++ rest)) =
      some (.jump { cond := ⟨BitVec.ofNat 8 n⟩, rel := rel, wide := true }, rest) := by
  have hmod : (0x80 + n) % 16 = n := by omega
  simp only [decodeLong, hop, hmod]
  rw [if_neg (by omega), if_neg (by omega), if_neg (by omega), if_neg (by omega),
    if_pos (by omega)]
  simp [ofNat_mod_half]

/-- An opcode from `0x70` to `0x7f` is a short jump on a condition. -/
theorem decodeShort_jump (e : Extension) {n : Nat} (hn : n < 16) {rel : BitVec 32}
    (hfits : fitsInt8 rel.toInt = true) (rest : List Byte) :
    decodeShort false e (0x70 + n) (rel.setWidth 8 :: rest) =
      some (.jump { cond := ⟨BitVec.ofNat 8 n⟩, rel := rel, wide := false }, rest) := by
  have hmod : (0x70 + n) % 16 = n := by omega
  simp only [decodeShort, Bool.false_eq_true, if_false, hmod]
  -- Thirteen opcodes come before these.
  rw [if_neg (by omega), if_neg (by omega), if_neg (by omega), if_neg (by omega), if_neg (by omega),
    if_neg (by omega), if_neg (by omega), if_neg (by omega), if_neg (by omega), if_neg (by omega),
    if_neg (by omega), if_neg (by omega), if_neg (by omega), if_pos (by omega)]
  simp [signExtend_byte _ hfits]

/-- Reading a jump on a condition.

**Proof sketch.** The condition is in the low four bits of the opcode, and the two forms have
opcodes of their own. -/
theorem decode_jump_cond {cond : Cond} (hcond : cond.code.toNat < 16) (rel : BitVec 32)
    {wide : Bool} (hfits : wide = false → fitsInt8 rel.toInt = true) (rest : List Byte) :
    decode ((if wide then 0x0F :: (0x80 ||| cond.code) :: littleEndian 4 rel.toNat
        else [0x70 ||| cond.code, rel.setWidth 8]) ++ rest) =
      some (.jump { cond := cond, rel := rel, wide := wide }, rest) := by
  obtain ⟨hshort, hlong⟩ := toNat_or_cond hcond
  have hcode : (⟨BitVec.ofNat 8 cond.code.toNat⟩ : Cond) = cond := by
    rw [BitVec.ofNat_toNat, BitVec.setWidth_eq]
  cases wide with
  | true =>
    have hread := decodeLong_jump {} hlong hcond rel rest
    rw [hcode] at hread
    exact hread
  | false =>
    have hread := decodeShort_jump {} hcond (hfits rfl) rest
    rw [hcode, ← hshort] at hread
    exact (decode_short 32 0 0 false (by omega) (by omega) (by omega) _).trans hread

/-- A jump that should have an encoding has one that is read back.

**Proof sketch.** A jump that is always taken has an opcode of its own. Any other has a
condition code below sixteen, which is in the opcode. -/
theorem Jump.Encodable.readsBack {j : Jump} (hj : j.Encodable) (hnamed : j.Named) :
    ∃ bytes, j.encode = .ok bytes ∧ ∀ rest, decode (bytes ++ rest) = some (.jump j, rest) := by
  obtain ⟨cond, rel, wide⟩ := j
  have hfits : wide = false → fitsInt8 rel.toInt = true := by
    rintro rfl
    simpa [Encodable, fitsInt8] using hj
  refine ⟨_, if_neg (by cases wide <;> simp_all), fun rest => ?_⟩
  by_cases halways : cond = .always
  case pos =>
    rw [if_pos halways, halways]
    exact decode_jump_always rel hfits rest
  case neg =>
    have hcond : cond.code.toNat < 16 := by
      have hne : cond.code.toNat ≠ 16 := fun h =>
        halways (congrArg Cond.mk (BitVec.eq_of_toNat_eq h))
      have hle : cond.code.toNat ≤ 16 := hnamed
      omega
    rw [if_neg halways]
    exact decode_jump_cond hcond rel hfits rest

/-- A short jump whose displacement does not fit into a signed byte has no encoding. -/
theorem Jump.encode_error {j : Jump} (hj : ¬ j.Encodable) : ∃ error, j.encode = .error error := by
  simp only [Encodable, not_or, Bool.not_eq_true] at hj
  refine ⟨_, if_pos ?_⟩
  simp only [hj.1, fitsInt8, Bool.not_false, Bool.true_and, Bool.not_eq_true',
    decide_eq_false_iff_not]
  exact hj.2

/-! ## Instructions and jumps -/

namespace Decoded

/-- The bytes of an instruction or jump. -/
def encode : Decoded → Except EncodeError (List Byte)
  | inst i => i.encode
  | jump j => j.encode

/-- The operation or condition is one of those in use. -/
def Named : Decoded → Prop
  | inst i => i.Named
  | jump j => j.Named

/-- What the instruction consists of has an encoding. -/
def Encodable : Decoded → Prop
  | inst i => i.Encodable
  | jump j => j.Encodable

/-- The instruction as decoding shows it. -/
def canonical : Decoded → Decoded
  | inst i => inst i.canonical
  | jump j => jump j

/-- **Encodings can be read back.** An instruction or jump that should have an encoding has one.
Reading it, whatever stands behind it, gives the instruction back and leaves just that. One that
should have no encoding has none. -/
theorem decode_encode (d : Decoded) (hnamed : d.Named) :
    (d.Encodable → ∃ bytes, d.encode = .ok bytes ∧
      ∀ rest, decode (bytes ++ rest) = some (d.canonical, rest)) ∧
    (¬ d.Encodable → ∃ error, d.encode = .error error) := by
  cases d with
  | inst i => exact ⟨fun hi => hi.readsBack hnamed, Inst.encode_error⟩
  | jump j => exact ⟨fun hj => hj.readsBack hnamed, Jump.encode_error⟩

/-- A comparison of a high register with an immediate just below a signed byte. -/
theorem decode_encode_cmp : let d : Decoded := .inst (.aluImm .cmp 64 12 (-129))
    d.Named ∧ d.Encodable ∧
      ∃ bytes, d.encode = .ok bytes ∧ ∀ rest, decode (bytes ++ rest) = some (d, rest) := by
  have hnamed : (inst (.aluImm .cmp 64 12 (-129))).Named := rfl
  have hd : (inst (.aluImm .cmp 64 12 (-129))).Encodable := ⟨.inr rfl, by decide, by decide⟩
  exact ⟨hnamed, hd, (decode_encode _ hnamed).1 hd⟩

end Decoded

end Dynarec.Host
