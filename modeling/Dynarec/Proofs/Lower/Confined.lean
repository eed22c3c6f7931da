import Dynarec.Proofs.Lower.Footprint

/-!
# The code of an instruction is tame

Every emitting action keeps its code to the registers and the memory it may write, whichever scratch
registers are in use. Most do so by what they emit. Stores to guest memory do so because of the
check before them: it falls through only where memory admits the access.

## Main results

* `Dynarec.Lower.guestStore_keeps` — code that stores at a checked address is tame.
* `Dynarec.Lower.instruction_keeps` — the code of an instruction is tame.
-/

set_option autoImplicit false

namespace Dynarec.Lower

open Host (Reg Inst State AluOp)
open Code (trace Lands mem_trace_inst mem_trace_append)
open Guest (Operand Register Instruction MemoryRef Immediate Regular)

variable {mem : Memory}

/-! ## Registers and exits -/

/-- Storing a register to a cell is tame: the address of the cell is loaded into a scratch
register right before the store. -/
theorem storeCell_keeps (c : Cell) (src : Reg) : Keeps mem (storeCell c src) fun _ => True := by
  refine .bind (.reserve src) fun _ _ => .withScratch fun addr haddr => ?_
  rw [← bind_pure (emit (.store addr 0 src 8))]
  exact .cell_bind haddr c .store (.pure trivial)

/-- Storing a constant to a cell is tame. A constant of 32 bits is part of the store; any other
is loaded into a second scratch register, which is not the one with the address. -/
theorem storeCellImm_keeps (c : Cell) (v : Word) :
    Keeps mem (storeCellImm c v) fun _ => True := by
  intro e
  refine .withScratch (fun addr haddr hfree => .emit_bind ?_) fun _ _ => trivial
  split
  · exact .emit ⟨trivial, .cell haddr c (.storeImm _)⟩
  · refine .withScratch (fun val hval hfree' => ?_) fun _ _ => trivial
    -- the value is loaded behind the address, so it must not go into the same register
    have hne : addr ≠ val := Scratch.ne_of_free hval hfree' (.inl (by simp))
    exact .emit_bind (.emit ⟨trivial, .cellImm haddr hval hne c v .store⟩)

/-- Looking for the cell of a register adds no code. -/
theorem cellOf_keeps (r : Register) : Keeps mem (cellOf r) fun _ => True := by
  unfold cellOf
  split
  · exact .pure trivial
  · exact .fail

/-- Reading a register is tame, and gives a register of the pool: the code replaces only that
one. -/
theorem readRegister_keeps (r : Register) : Keeps mem (readRegister r) (· ∈ Scratch.pool) := by
  refine .bind .claim fun h hh => ?_
  split
  · exact .emit_bind hh (.pure hh)
  · refine .bind (cellOf_keeps r) fun c _ => ?_
    unfold loadCell
    simp only [bind_assoc]
    exact .emit_bind hh (.emit_bind hh (.pure hh))

/-- Reading a shifted register is tame, and gives a register of the pool: the shift is made in
place. -/
theorem readShifted_keeps (r : Register) (kind : Guest.ShiftKind) (amount : Nat) :
    Keeps mem (readShifted r kind amount) (· ∈ Scratch.pool) := by
  refine .bind (readRegister_keeps r) fun h hh => ?_
  split
  · exact .emit_bind hh (.pure hh)
  · exact .pure hh

/-- Writing a register from one of the pool is tame. At the lower width the upper half of the
source is cleared in place first. -/
theorem writeRegister_keeps (r : Register) {h : Reg} (hh : h ∈ Scratch.pool) :
    Keeps mem (writeRegister r h) fun _ => True := by
  unfold writeRegister
  split
  · exact .pure trivial
  · refine .bind (cellOf_keeps r) fun c _ => ?_
    split
    · exact .emit_bind hh (storeCell_keeps c h)
    · exact storeCell_keeps c h

/-- Writing a constant to a register is tame. -/
theorem writeRegisterImm_keeps (r : Register) (v : Word) :
    Keeps mem (writeRegisterImm r v) fun _ => True := by
  unfold writeRegisterImm
  split
  · exact .pure trivial
  · exact .bind (cellOf_keeps r) fun c _ => storeCellImm_keeps c _

/-- Operating with a constant on a register of the pool is tame. A constant that does not fit
into the instruction is loaded into a scratch register first. -/
theorem aluConst_keeps (op : AluOp) (width : Int) {dst : Reg} (hdst : dst ∈ Scratch.pool)
    (v : Word) : Keeps mem (aluConst op width dst v) fun _ => True := by
  unfold aluConst
  refine .ite (.emit hdst) (.withScratch fun tmp htmp => ?_)
  exact .emit_bind htmp (.emit hdst)

/-- Leaving a block is tame: it replaces the two registers in which exit and parameter are
returned, and returns. -/
theorem exit_keeps (kind : Exit) (param : Word) : Keeps mem (exit kind param) fun _ => True :=
  .emit_bind rax_mem_pool (.emit_bind rdx_mem_pool .ret)

/-- Leaving a block with a register as parameter is tame. -/
theorem exitWith_keeps (kind : Exit) (src : Reg) : Keeps mem (exitWith kind src) fun _ => True := by
  have hrest : Keeps mem (do emit (.movImm .rax kind.number); emit .ret) fun _ => True :=
    .emit_bind rax_mem_pool .ret
  unfold exitWith
  split
  · exact .emit_bind rdx_mem_pool hrest
  · exact hrest

/-! ## Flags -/

/-- Bringing the host flags to the cell of the guest flags is tame. The code works in three
registers of the pool, one of them the register that the host puts its flags in, and stores to that
cell only.

**Proof sketch.** All but the last store are plain instructions on those registers. The store
comes right after the address of the cell is loaded. -/
theorem updateFlags_keeps (carry : Carry) : Keeps mem (updateFlags carry) fun _ => True := by
  unfold updateFlags
  refine .bind (.reserve .rax) fun _ _ => ?_
  refine .bind .claim fun nzcv hnzcv => .bind .claim fun tmp htmp => ?_
  refine .emit_bind trivial (.emit_bind rax_mem_pool (.emit_bind rax_mem_pool ?_))
  refine .emit_bind hnzcv (.emit_bind hnzcv (.emit_bind hnzcv ?_))
  refine .emit_bind htmp (.emit_bind htmp ?_)
  -- the carry may be flipped first
  have hrest : Keeps mem (do
      emit (.shift .shl 32 tmp 21)
      emit (.alu .or 32 nzcv tmp)
      emit (.aluImm .and 32 .rax 1)
      emit (.shift .shl 32 .rax 28)
      emit (.alu .or 32 nzcv .rax)
      emit (.movAbs tmp Cell.nzcv.address)
      emit (.store tmp 0 nzcv 8)
      release tmp
      release nzcv) fun _ => True := by
    refine .emit_bind htmp (.emit_bind hnzcv ?_)
    refine .emit_bind rax_mem_pool (.emit_bind rax_mem_pool ?_)
    refine .emit_bind hnzcv (.cell_bind htmp .nzcv .store ?_)
    exact .bind (.release tmp) fun _ _ => .release nzcv
  split
  · exact .emit_bind htmp hrest
  · exact hrest

/-- Setting the guest flags to a constant is tame. -/
theorem setFlags_keeps (nibble : BitVec 4) : Keeps mem (setFlags nibble) fun _ => True :=
  .withScratch fun _ hval => .emit_bind hval (storeCell_keeps .nzcv _)

/-- Branching on a condition of the guest is tame up to the branch, however the condition is
looked up: it may need nothing, a test of one flag, or a table.

**Proof sketch.** By how the condition is looked up: all the instructions in front of the
branch are plain ones on scratch registers. -/
theorem branchIf_keeps (cond : Guest.Condition) (label : Nat) :
    KeepsBranch mem (branchIf cond label) label := by
  unfold branchIf
  split
  · exact .emitBranch (by decide)
  · refine .withScratch fun t ht => ?_
    split
    · unfold loadZero
      simp only [bind_assoc]
      refine .emit_bind ht (.emit_bind ht (.emit_bind ht ?_))
      refine .emit_bind ht (.emit_bind trivial (.emitBranch ?_))
      split <;> decide
    · refine .withScratch fun table htable => ?_
      refine .emit_bind ht (.emit_bind ht (.emit_bind ht ?_))
      exact .emit_bind htable (.emit_bind trivial (.emitBranch (by decide)))

/-! ## Data processing -/

/-- Operating on a register of the pool with a last operand is tame, if it is for constants and
where the operand is of no supported kind. These two are where the instructions differ. -/
theorem operate_keeps (op : AluOp) (width : Int) {dst : Reg} (hdst : dst ∈ Scratch.pool)
    {constant : Word → Emit Unit} (hconst : ∀ v, Keeps mem (constant v) fun _ => True)
    {unsupported : Emit Unit} (hunsupported : Keeps mem unsupported fun _ => True)
    (src : Operand) :
    Keeps mem (operate op width dst constant unsupported src) fun _ => True := by
  cases src with
  | imm v => exact hconst v.shifted
  | reg r => exact .bind (readRegister_keeps r) fun _ _ => .emit hdst
  | shifted r kind amount =>
    exact .bind (readShifted_keeps r kind amount) fun _ _ => .emit hdst
  | cond | label | mem | absent => exact hunsupported

/-- Reading a register, operating on it, writing the result and updating the flags is tame: the
shape of sums and logical operations. -/
theorem combine_keeps (rd rn : Register) (src : Operand) (op : AluOp)
    {constant : Reg → Word → Emit Unit}
    (hconst : ∀ dst ∈ Scratch.pool, ∀ v, Keeps mem (constant dst v) fun _ => True)
    {unsupported : Emit Unit} (hunsupported : Keeps mem unsupported fun _ => True)
    (flags : Option Carry) :
    Keeps mem (combine rd rn src op constant unsupported flags) fun _ => True := by
  refine .bind .goOn fun _ _ => .bind (.ite (.reserve .rax) (.pure trivial)) fun _ _ => ?_
  refine .bind (readRegister_keeps rn) fun dst hdst => ?_
  refine .bind (operate_keeps op _ hdst (hconst dst hdst) hunsupported src) fun _ _ => ?_
  refine .bind (writeRegister_keeps rd hdst) fun _ _ => ?_
  cases flags with
  | some carry => exact updateFlags_keeps carry
  | none => exact .pure trivial

/-- Comparing by an operation whose result is dropped is tame: the shape of compares. -/
theorem compareBy_keeps (rn : Register) (src : Operand) (op : AluOp) (carry : Carry)
    {unsupported : Emit Unit} (hunsupported : Keeps mem unsupported fun _ => True) :
    Keeps mem (compareBy rn src op carry unsupported) fun _ => True := by
  refine .bind (.reserve .rax) fun _ _ => .bind (readRegister_keeps rn) fun lhs hlhs => ?_
  refine .bind (operate_keeps op _ hlhs ?_ hunsupported src) fun _ _ => updateFlags_keeps carry
  exact fun v => .emit hlhs

/-- Sums and differences are tame. -/
theorem sum_keeps (o : Guest.Op) (rd rn : Register) (src : Operand) (op : AluOp) (flags : Bool) :
    Keeps mem (sum { op := o, operands := [.reg rd, .reg rn, src] } op flags) fun _ => True := by
  rw [sum_eq]
  refine combine_keeps rd rn src op ?_ .fail _
  intro dst hdst v
  exact .emit hdst

/-- Logical operations are tame. -/
theorem logical_keeps (o : Guest.Op) (rd rn : Register) (src : Operand) (op : AluOp)
    (flags : Bool) :
    Keeps mem (logical { op := o, operands := [.reg rd, .reg rn, src] } op flags)
      fun _ => True := by
  rw [logical_eq]
  refine combine_keeps rd rn src op ?_ .fail _
  intro dst hdst v
  exact aluConst_keeps op rd.width hdst v

/-- The compare that compares and conditional compares share is tame. -/
theorem compareWith_keeps (rn : Register) {width : Int} {src : Operand} (hsrc : Accepts width src)
    (negated : Bool) : Keeps mem (compareWith rn src negated) fun _ => True := by
  rw [compareWith_eq rn hsrc]
  exact compareBy_keeps rn _ _ _ (.pure trivial)

/-- Compares are tame. -/
theorem compare_keeps (o : Guest.Op) (rn : Register) {width : Int} {src : Operand}
    (hsrc : Accepts width src) (negated : Bool) :
    Keeps mem (compare { op := o, operands := [.reg rn, src] } negated) fun _ => True := by
  rw [compare_eq]
  exact .bind .goOn fun _ _ => compareWith_keeps rn hsrc negated

/-- Conditional compares are tame. Of the two parts of their code, the compare and the setting of
the flags, each is. -/
theorem condCompare_keeps (o : Guest.Op) (rn : Register) {width : Int} {src : Operand}
    (hsrc : Accepts width src) {nzcv : Immediate} (hnzcv : nzcv.value ≤ 0xF)
    (cond : Guest.Condition) (negated : Bool) :
    Keeps mem (condCompare { op := o, operands := [.reg rn, src, .imm nzcv, .cond cond] } negated)
      fun _ => True := by
  have hcompare : Keeps mem (compareWith rn src negated) fun _ => True :=
    compareWith_keeps rn hsrc negated
  rw [condCompare_eq hnzcv]
  refine .bind .goOn fun _ _ => .ite hcompare ?_
  exact .choose (fun label => branchIf_keeps _ label) hcompare (setFlags_keeps _)

/-- Moves from a register are tame. -/
theorem move_keeps (rd rm : Register) :
    Keeps mem (move { op := .mov, operands := [.reg rd, .reg rm] }) fun _ => True := by
  rw [move_eq]
  refine .bind (readRegister_keeps rm) fun h hh => ?_
  exact .bind .goOn fun _ _ => writeRegister_keeps rd hh

/-- Moves of a constant with zeros around it are tame. -/
theorem moveZero_keeps (rd : Register) (i : Immediate) :
    Keeps mem (moveZero { op := .movz, operands := [.reg rd, .imm i] }) fun _ => True := by
  rw [moveZero_eq]
  exact .bind .goOn fun _ _ => writeRegisterImm_keeps rd _

/-- Moves of an inverted constant are tame. -/
theorem moveNot_keeps (rd : Register) (i : Immediate) :
    Keeps mem (moveNot { op := .movn, operands := [.reg rd, .imm i] }) fun _ => True := by
  rw [moveNot_eq]
  exact .bind .goOn fun _ _ => writeRegisterImm_keeps rd _

/-- Taking the address of a place near the program counter is tame: it is a constant. -/
theorem addressOf_keeps (rd : Register) (offset : Int) (pc : Word) :
    Keeps mem (addressOf { op := .adr, operands := [.reg rd, .label offset] } pc)
      fun _ => True := by
  rw [addressOf_eq]
  exact .bind .goOn fun _ _ => writeRegisterImm_keeps rd _

/-- Moves of a constant into a part of a register are tame: the part is cleared and filled in a
register of the pool. -/
theorem moveKeep_keeps (rd : Register) (i : Immediate) :
    Keeps mem (moveKeep { op := .movk, operands := [.reg rd, .imm i] }) fun _ => True := by
  rw [moveKeep_eq]
  refine .bind (readRegister_keeps rd) fun h hh => .bind (V := fun _ => True) ?_ fun _ _ => ?_
  · refine .bind (aluConst_keeps .and 64 hh _) fun _ _ => ?_
    exact .ite (aluConst_keeps .or 64 hh _) (.pure trivial)
  · exact .bind .goOn fun _ _ => writeRegister_keeps rd hh

/-! ## Accesses -/

/-- Checking an address against the bounds of guest memory is tame. Where the access is too long
for any address, there is no check and the code leaves at once. -/
theorem checkBounds_keeps (write : Bool) (length : Word) {t : Reg} (ht : t ∈ Scratch.pool)
    (guest : Reg) : Keeps mem (checkBounds mem write length t guest) fun _ => True := by
  unfold checkBounds
  by_cases hroom : length ≤ mem.room write
  · simp only [hroom, if_true]
    refine .jumpOver (fun label => ?_) (exitWith_keeps .fault guest)
    refine .bind (aluConst_keeps .sub 64 ht _) fun _ _ => ?_
    exact .bind (aluConst_keeps .cmp 64 ht _) fun _ _ => .emitBranch (by decide)
  · simp only [hroom, if_false, pure_bind]
    exact .unusedLabel (exitWith_keeps .fault guest)

/-- Turning a memory reference into a checked host address is tame, and gives a register of the
pool.

**Proof sketch.** The base is read into that register and the offset is added to it, in place.
The guest address is kept in another register for the fault, and the host address of the region
is added at the end. -/
theorem guestPointer_keeps (m : MemoryRef) (size : Int) (write : Bool) :
    Keeps mem (guestPointer (some mem) m size write) (· ∈ Scratch.pool) := by
  rw [guestPointer_eq]
  refine .bind (readRegister_keeps m.base) fun t ht => ?_
  refine .bind (.ite (aluConst_keeps .add 64 ht _) (.pure trivial)) fun _ _ => ?_
  refine .withScratch fun guest hguest => .emit_bind hguest ?_
  refine .bind (checkBounds_keeps write _ ht guest) fun _ _ => .withScratch fun host hhost => ?_
  exact .emit_bind hhost (.emit_bind ht (.pure ht))

/-- What memory admits can be written, all of it or a part. Between the check of an address and a
store there is host arithmetic that wraps around; here it is shown to reach the bytes that were
checked.

**Proof sketch.** In sound memory an access that is admitted is granted, hence lies inside
and not below the limit. A part of it lies there too. -/
theorem writable_of_admits (hmem : mem.Sound) {address : Word} {size d n : Nat} (hd : d + n ≤ size)
    (hpos : 0 < n) (hsmall : size ≤ 16)
    (h : mem.admits true address (BitVec.ofNat 64 size) = true) :
    Writable mem (mem.hostAddress + (address - mem.base) + BitVec.ofNat 64 d) n := by
  have hlength : (BitVec.ofNat 64 size).toNat = size := by
    rw [BitVec.toNat_ofNat]
    omega
  rw [hmem.admits_eq_grants (by omega), Memory.grants_iff, hlength] at h
  obtain ⟨hbase, hinside, hlow⟩ := h
  have hfits := hmem.fits
  have hsum : (address + BitVec.ofNat 64 d).toNat = address.toNat + d := by
    rw [BitVec.toNat_add, BitVec.toNat_ofNat]
    omega
  have hplace : mem.hostAddress + (address - mem.base) + BitVec.ofNat 64 d =
      mem.hostAddress + (address + BitVec.ofNat 64 d - mem.base) := by
    grind
  rw [hplace]
  refine .guest ?_ ?_
  · rw [BitVec.le_def, hsum]
    have := hlow rfl
    omega
  · rw [hsum]
    omega

/-- A store at a distance from a checked address is permitted. The second store of a pair is one:
its bytes lie behind those of the first, and the check was made for both. -/
theorem Permitted.guestStore (hmem : mem.Sound) {address : Word} {ptr src : Reg} {disp : BitVec 32}
    {size d n : Nat} (hn : IsAccess n) (hd : d + n ≤ size) (hsmall : size ≤ 16)
    (hdisp : disp.signExtend 64 = BitVec.ofNat 64 d)
    (hadmits : mem.admits true address (BitVec.ofNat 64 size) = true) {s : State}
    (hptr : s.reg ptr = mem.hostAddress + (address - mem.base)) :
    Permitted mem (.store ptr disp src n) s where
  target r hr := by cases hr
  written a k hw := by
    have hpos : 0 < n := by
      obtain rfl | rfl | rfl | rfl := hn <;> decide
    simp only [Inst.written?, hn.accessBytes?, Option.map_some, Option.some.injEq,
      Prod.mk.injEq] at hw
    obtain ⟨rfl, rfl⟩ := hw
    rw [Host.State.address, hdisp, hptr]
    exact writable_of_admits hmem hd hpos hsmall hadmits

/-- **Code that stores at an address that has been checked is tame.**

**Proof sketch.** The check falls through only where memory admits the access, and then leaves
the host address in the register that the stores use (`guestPointer_lowers`). So what is run
behind it is run from such a state, where the stores are permitted. -/
theorem guestStore_keeps (m : MemoryRef) (size : Nat) {k : Reg → Emit Unit}
    (hk : ∀ ptr e, Emits (k ptr) e (fun _ _ P => Lands P ∧ ∀ u address,
      mem.admits true address (BitVec.ofNat 64 size) = true →
      u.reg ptr = mem.hostAddress + (address - mem.base) →
        ∀ i v, (i, v) ∈ trace 0 P u → Permitted mem i v) fun _ => True) :
    Keeps mem (guestPointer (some mem) m size true >>= k) fun _ => True := by
  intro e
  have hpointer := (lowers_iff.1 (guestPointer_lowers mem m size true e)).and
    (guestPointer_keeps m size true e)
  refine .bind (hpointer.mono (fun _ _ _ h => h) fun _ _ => trivial) ?_
  rintro ptr e₁ P ⟨⟨-, -, -, -, -, hpoint⟩, -, hP⟩
  refine (hk ptr e₁).mono ?_ fun _ hf => hf
  rintro _ e₂ P' ⟨hlands, hP'⟩
  refine ⟨trivial, hP.lands.append hlands, fun s i v hmem => ?_⟩
  obtain hmem | ⟨u, hu, hmem⟩ := mem_trace_append hP.lands hmem
  · exact hP.permitted s i v hmem
  · obtain ⟨address, -, hcheck⟩ := hpoint s
    rw [BitVec.ofInt_natCast] at hcheck
    split at hcheck
    · rename_i hadmits
      obtain ⟨u', hu', -, -, hreg⟩ := hcheck
      rw [hu] at hu'
      cases hu'
      exact hP' u address hadmits hreg i v hmem
    · obtain ⟨u', hu', -⟩ := hcheck
      rw [hu] at hu'
      cases hu'

/-- Loads are tame: they write no memory at all. -/
theorem load_keeps {o : Guest.Op} {rt : Register} (m : MemoryRef) :
    Keeps mem (load { op := o, operands := [.reg rt, .mem m] } (some mem)) fun _ => True := by
  rw [load_eq]
  refine .bind (guestPointer_keeps m _ false) fun ptr hptr => .emit_bind hptr ?_
  exact .bind .goOn fun _ _ => writeRegister_keeps rt hptr

/-- Loads of two registers are tame. Both are loaded before either is written, as one of them may
be the base. -/
theorem loadPair_keeps {o : Guest.Op} {rt rt2 : Register} (m : MemoryRef) :
    Keeps mem (loadPair { op := o, operands := [.reg rt, .reg rt2, .mem m] } (some mem))
      fun _ => True := by
  rw [loadPair_eq]
  refine .bind (guestPointer_keeps m _ false) fun ptr _ => ?_
  refine .bind .claim fun first hfirst => .bind .claim fun second hsecond => ?_
  refine .emit_bind hfirst (.emit_bind hsecond ?_)
  refine .bind (writeRegister_keeps rt hfirst) fun _ _ => ?_
  exact .bind .goOn fun _ _ => writeRegister_keeps rt2 hsecond

/-- Stores are tame, in sound memory: they store where it has been checked. -/
theorem store_keeps (hmem : mem.Sound) {o : Guest.Op} {rt : Register} (m : MemoryRef) {n : Nat}
    (hn : IsAccess n) (hsize : accessSize o rt = n) :
    Keeps mem (store { op := o, operands := [.reg rt, .mem m] } (some mem)) fun _ => True := by
  have hsmall : n ≤ 16 := by
    obtain rfl | rfl | rfl | rfl := hn <;> decide
  rw [store_eq, hsize]
  refine .bind (readRegister_keeps rt) fun val _ => guestStore_keeps m n fun ptr e => ?_
  refine .emit_bind (.update rfl ⟨trivial, fun u address hadmits hreg i v hx => ?_⟩)
  obtain hx | ⟨t, -, hx⟩ := mem_trace_inst hx
  · cases hx
    exact .guestStore hmem hn (Nat.zero_add n).le hsmall rfl hadmits hreg
  · simp at hx

/-- Stores of two registers are tame, in sound memory. One check is made for both.

**Proof sketch.** The check covers both registers. The two stores are at the address that was
checked and one access behind it, and the first of them leaves the address in its register. -/
theorem storePair_keeps (hmem : mem.Sound) {o : Guest.Op} {rt rt2 : Register} (m : MemoryRef)
    {n : Nat} (hn : IsAccess n) (hsize : rt.width.tdiv 8 = n) :
    Keeps mem (storePair { op := o, operands := [.reg rt, .reg rt2, .mem m] } (some mem))
      fun _ => True := by
  have hsmall : 2 * n ≤ 16 := by
    obtain rfl | rfl | rfl | rfl := hn <;> decide
  rw [storePair_eq, hsize]
  refine .bind (readRegister_keeps rt) fun first _ => ?_
  refine .bind (readRegister_keeps rt2) fun second _ => ?_
  refine guestStore_keeps m (2 * n) fun ptr e => ?_
  refine .emit_bind (.emit_bind (.update rfl ⟨trivial, fun u address hadmits hreg i v hx => ?_⟩))
  obtain hx | ⟨t, ht, hx⟩ := mem_trace_inst hx
  · cases hx
    exact .guestStore (d := 0) hmem hn (by omega) hsmall rfl hadmits hreg
  -- the first store leaves the address in its register for the second
  have hkept : t.reg ptr = u.reg ptr := Inst.reg_step ht (by simp [Inst.target?])
  obtain hx | ⟨t, -, hx⟩ := mem_trace_inst hx
  · cases hx
    exact .guestStore hmem hn (by omega) hsmall hn.signExtend hadmits (hkept.trans hreg)
  · simp at hx

/-! ## Branches -/

/-- Branches are tame. -/
theorem branch_keeps (offset : Int) :
    Keeps mem (branch { op := .b, operands := [.label offset] }) fun _ => True := by
  rw [branch_eq]
  exact exit_keeps .branch _

/-- Conditional branches are tame. -/
theorem branchCond_keeps (cond : Guest.Condition) (offset : Int) :
    Keeps mem (branchCond { op := .bcond, operands := [.cond cond, .label offset] })
      fun _ => True := by
  rw [branchCond_eq]
  refine .ite (exit_keeps .branch _) ?_
  exact .jumpOver (fun label => branchIf_keeps _ label) (exit_keeps .branch _)

/-! ## All instructions -/

/-- **The code of an instruction is tame**, in sound memory.

**Proof sketch.** By the shape of the instruction: each shape has its own lemma above. Memory has
to be sound for the stores only. -/
theorem instruction_keeps (hmem : mem.Sound) {inst : Instruction} (h : Regular inst) (pc : Word) :
    Keeps mem (instruction pc (some mem) inst) fun _ => True := by
  cases h with
  | sum hop _ _ => obtain rfl | rfl | rfl | rfl := hop <;> exact sum_keeps _ _ _ _ _ _
  | logical hop _ _ => obtain rfl | rfl | rfl | rfl := hop <;> exact logical_keeps _ _ _ _ _ _
  | @compare o rn src hop _ hsrc =>
    have hsrc := accepts_of_addend hsrc
    obtain rfl | rfl := hop <;> exact compare_keeps _ rn hsrc _
  | @condCompare o rn src nzcv c hop _ hsrc hnzcv =>
    have hsrc : Accepts rn.width src := (compares_of_comparand hsrc).accepts
    obtain rfl | rfl := hop <;> exact condCompare_keeps _ rn hsrc hnzcv c _
  | move _ => exact move_keeps _ _
  | moveWide hop _ =>
    obtain rfl | rfl | rfl := hop
    · exact moveZero_keeps _ _
    · exact moveNot_keeps _ _
    · exact moveKeep_keeps _ _
  | address _ => exact addressOf_keeps _ _ pc
  | branch => exact branch_keeps _
  | branchCond => exact branchCond_keeps _ _
  | ret => exact exit_keeps .halt 0
  | nop => exact .goOn
  | @word o rt m hop hw =>
    obtain rfl | rfl := hop
    · exact load_keeps m
    · exact store_keeps hmem m (isAccess_bits _) (tdiv_width hw)
  | @narrow o rt m hop _ =>
    obtain rfl | rfl | rfl | rfl := hop
    · exact load_keeps m
    · exact load_keeps m
    · exact store_keeps hmem m (.inl rfl) rfl
    · exact store_keeps hmem m (.inr (.inl rfl)) rfl
  | @pair o rt rt2 m hop hw _ =>
    obtain rfl | rfl := hop
    · exact loadPair_keeps m
    · exact storePair_keeps hmem m (isAccess_bits _) (tdiv_width hw)

end Dynarec.Lower
