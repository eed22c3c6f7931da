import Dynarec.Proofs.Guest.Access
import Dynarec.Proofs.Lower.Pointer

/-!
# Access code

The code of a load or a store leaves the block when memory does not admit the access, and makes the
access otherwise, wherever guest memory has the bytes.

## Main definitions

* `Dynarec.Lower.Performs` — code performs an access that memory admits, and leaves otherwise.

## Main results

* `Dynarec.Lower.load_lowers`, `Dynarec.Lower.store_lowers`, `Dynarec.Lower.loadPair_lowers`,
  `Dynarec.Lower.storePair_lowers` — the code of loads and stores performs the access.
* `Dynarec.Lower.Performs.shows` — in sound memory it shows the effect of the access.
-/

set_option autoImplicit false

namespace Dynarec.Lower

open Host (Reg Inst State AluOp)
open Code (Walked walk)
open Guest (Operand Register Instruction MemoryRef accessEffect bits)

/-! ## Host access to guest memory -/

/-- Replacing bytes one after another is replacing all of them: the second half of a pair goes
right behind the first. -/
theorem overwrite_append (bytes : Array Byte) (i : Nat) (data rest : List Byte) :
    Memory.overwrite bytes i (data ++ rest) =
      Memory.overwrite (Memory.overwrite bytes i data) (i + data.length) rest := by
  induction data generalizing bytes i with
  | nil => rfl
  | cons b data ih =>
    simp only [List.cons_append, Memory.overwrite, ih, List.length_cons]
    rw [Nat.add_assoc, Nat.add_comm 1]

/-- The state with bytes of guest memory replaced. -/
def setBytes (s : State) (i : Nat) (data : List Byte) : State :=
  { s with memory := s.memory.setBytesAt i data }

/-- Guest memory after some of its bytes are replaced. -/
@[simp] theorem memory_setBytes (s : State) (i : Nat) (data : List Byte) :
    (setBytes s i data).memory = s.memory.setBytesAt i data := rfl

/-- Replacing bytes at the place of an address is what a store of the guest does. -/
theorem guest_setBytes (s : State) (address : Word) (data : List Byte) :
    (setBytes s (address - s.memory.base).toNat data).guest = s.guest.stored address data := rfl

/-- Replacing bytes one after another, in a host state. -/
theorem setBytes_append (s : State) (i : Nat) (data rest : List Byte) :
    setBytes (setBytes s i data) (i + data.length) rest = setBytes s i (data ++ rest) := by
  simp [setBytes, Memory.setBytesAt, overwrite_append]

/-- The numbers of bytes that one load or store moves. -/
def IsAccess (n : Nat) : Prop :=
  n = 1 ∨ n = 2 ∨ n = 4 ∨ n = 8

/-- The host accesses as many bytes as it is told. -/
theorem IsAccess.accessBytes? {n : Nat} (h : IsAccess n) : Host.accessBytes? n = some n := by
  obtain rfl | rfl | rfl | rfl := h <;> rfl

/-- Loads of so many bytes have an encoding. -/
theorem IsAccess.encode_load {n : Nat} (h : IsAccess n) (dst base : Reg) (disp : BitVec 32) :
    ∃ bytes, (Inst.load dst base disp n).encode = .ok bytes := by
  obtain rfl | rfl | rfl | rfl := h <;> exact ⟨_, rfl⟩

/-- Stores of so many bytes have an encoding. -/
theorem IsAccess.encode_store {n : Nat} (h : IsAccess n) (src base : Reg) (disp : BitVec 32) :
    ∃ bytes, (Inst.store base disp src n).encode = .ok bytes := by
  obtain rfl | rfl | rfl | rfl := h <;> exact ⟨_, rfl⟩

/-- No byte of guest memory sits at the address of a cell: the cells lie below the place where
guest memory starts, and memory is too small to come around to them. -/
theorem ofAddress?_hostBase {d : Word} (h : d.toNat < 0x8000000000000000) :
    Cell.ofAddress? (Memory.hostBase + d) = none := by
  have hne : ∀ c : Cell, Memory.hostBase + d ≠ c.address := by
    intro c heq
    have hnat := congrArg BitVec.toNat heq
    rw [BitVec.toNat_add] at hnat
    have hbase : Memory.hostBase.toNat = 0x7f0000000000 := rfl
    have hcell : c.address.toNat < 0x7f0000000000 := by cases c <;> decide
    omega
  simp [Cell.ofAddress?, hne]

variable {s : State} {d : Word} {n : Nat}

/-- Where in guest memory the bytes at a host address are, if memory has them all. -/
theorem memoryIndex?_hostBase (h : d.toNat + n ≤ s.memory.bytes.size) :
    s.memoryIndex? (Memory.hostBase + d) n = some d.toNat := by
  have hsub : Memory.hostBase + d - Memory.hostBase = d := by
    rw [BitVec.add_comm, BitVec.add_sub_cancel]
  simp only [Host.State.memoryIndex?, hsub, h, if_true]

/-- What the host loads from guest memory is the number in the bytes there. -/
theorem load_hostBase (h : d.toNat + n ≤ s.memory.bytes.size) :
    s.load (Memory.hostBase + d) n =
      some (BitVec.ofNat 64 (ofLittleEndian (s.memory.bytesAt d.toNat n))) := by
  have hlt := s.memory.size_lt
  simp only [Host.State.load, ofAddress?_hostBase (d := d) (by omega), memoryIndex?_hostBase h]
  rfl

/-- What the host stores to guest memory replaces the bytes there. -/
theorem store_hostBase (h : d.toNat + n ≤ s.memory.bytes.size) (v : Word) :
    s.store (Memory.hostBase + d) n v = some (setBytes s d.toNat (littleEndian n v.toNat)) := by
  have hlt := s.memory.size_lt
  simp only [Host.State.store, ofAddress?_hostBase (d := d) (by omega), memoryIndex?_hostBase h]
  rfl

/-- A load that lies inside guest memory. -/
theorem does_load (hn : IsAccess n) (dst : Reg) {base : Reg} {disp : BitVec 32}
    (haddr : s.address base disp = Memory.hostBase + d) (h : d.toNat + n ≤ s.memory.bytes.size) :
    does (.load dst base disp n) s = .fell
      (s.setReg dst (BitVec.ofNat 64 (ofLittleEndian (s.memory.bytesAt d.toNat n)))) := by
  refine does_of_step ?_ (by simp)
  simp [Inst.step, hn.accessBytes?, haddr, load_hostBase h]

/-- A store that lies inside guest memory. -/
theorem does_store (hn : IsAccess n) (src : Reg) {base : Reg} {disp : BitVec 32}
    (haddr : s.address base disp = Memory.hostBase + d) (h : d.toNat + n ≤ s.memory.bytes.size) :
    does (.store base disp src n) s =
      .fell (setBytes s d.toNat (littleEndian n (s.reg src).toNat)) := by
  refine does_of_step ?_ (by simp)
  simp [Inst.step, hn.accessBytes?, haddr, store_hostBase h]

/-- Code that does not leave the block. -/
def Stays (w : Meaning) : Prop :=
  ∀ s u, w s ≠ .returned u

/-- An instruction that is no return does not leave the block. -/
theorem Stays.does {i : Inst} (hi : i ≠ .ret) : Stays (does i) := by
  intro s u
  simp only [Lower.does, walk]
  cases i.step s with
  | none => simp
  | some t => simp [hi]

/-- Code that stays behind code that stays does not leave the block. -/
theorem Stays.andThen {w v : Meaning} (hw : Stays w) (hv : Stays v) : Stays (w.andThen v) := by
  intro s u
  unfold Meaning.andThen
  cases h : w s with
  | fell t => exact hv t u
  | returned t => exact absurd h (hw s t)
  | trapped => simp

/-- Code that falls through does not leave the block. -/
theorem Stays.of_fell {w : Meaning} (h : ∀ s, ∃ t, w s = .fell t) : Stays w := by
  intro s u
  obtain ⟨t, ht⟩ := h s
  simp [ht]

/-- What is loaded fits into a register of the width.

**Proof sketch.** Of 32 bits, at most four bytes are loaded, and their number is below `2 ^
32` (`ofLittleEndian_lt`). Of 64 bits nothing is cut. -/
theorem setWidth_loaded {width : Int} (hn : IsAccess n) (hfits : 8 * n ≤ bits width)
    (g : Guest.State) (address : Word) :
    ((g.loaded address n).setWidth (bits width)).setWidth 64 = g.loaded address n := by
  obtain h | h := Guest.bits_cases width
  · have hlt := ofLittleEndian_lt (g.memory.bytesAt (address - g.memory.base).toNat n)
    have hlength : (g.memory.bytesAt (address - g.memory.base).toNat n).length = n := by
      simp [Memory.bytesAt]
    have hpow : Nat.pow 256 n ≤ 0x100000000 := by
      obtain rfl | rfl | rfl | rfl := hn
      · decide
      · decide
      · decide
      · omega
    rw [hlength] at hlt
    rw [h]
    apply BitVec.eq_of_toNat_eq
    simp only [Guest.State.loaded, BitVec.toNat_setWidth, BitVec.toNat_ofNat]
    omega
  · rw [h]
    simp

/-! ## Loads and stores -/

/-- Guest memory has the bytes of an access at the place where the code expects them. -/
structure Backed (mem : Memory) (address : Word) (n : Nat) (s : State) : Prop where
  host : mem.hostAddress = Memory.hostBase
  base : s.memory.base = mem.base
  inside : (address - mem.base).toNat + n ≤ s.memory.bytes.size

/-- Code of an access to `n` bytes, run from a state. It leaves the block if memory does not admit
the access, and otherwise does not; where the bytes are there it makes the access. -/
def Performs (mem : Memory) (write : Bool) (m : MemoryRef) (n : Nat)
    (after : Guest.State → Word → Option Guest.State) (w : Meaning) (s : State) : Prop :=
  ∃ address g, s.guest.address m = some address ∧ after s.guest address = some g ∧
    if mem.admits write address (BitVec.ofNat 64 n) then
      (∀ u, w s ≠ .returned u) ∧
        (Backed mem address n s → ∃ t, w s = .fell t ∧ Held {} s t ∧ t.guest = g)
    else ∃ u, w s = .returned u ∧ Left .fault address s.guest s u

/-- **Code that performs an access shows its effect**, in sound memory.

**Proof sketch.** In sound memory the check of the code and that of the guest are the same, and
what the check admits lies inside memory. So where the guest makes the access the host finds the
bytes, and where the guest faults the code leaves the block. -/
theorem Performs.shows {mem : Memory} {write : Bool} {m : MemoryRef} {n : Nat} (hn : 0 < n)
    (hsmall : n ≤ 16) {after : Guest.State → Word → Option Guest.State} {w : Meaning} {s : State}
    (h : Performs mem write m n after w s) :
    ∃ effect, accessEffect write m n after s.guest = some effect ∧
      (mem.Sound ∧ mem.Alike s.memory → Shows s (w s) effect) := by
  obtain ⟨address, g, haddress, hafter, hrun⟩ := h
  refine ⟨_, by rw [accessEffect, haddress, Option.bind_some, hafter, Option.map_some], ?_⟩
  rintro ⟨hmem, halike⟩
  have hlength : (BitVec.ofNat 64 n).toNat = n := by
    rw [BitVec.toNat_ofNat]
    omega
  have hagree : s.guest.memory.grants write address (BitVec.ofNat 64 n) =
      mem.admits write address (BitVec.ofNat 64 n) := by
    rw [hmem.admits_eq_grants (by omega)]
    exact halike.grants write address _
  rw [hagree]
  split
  · rename_i hadmits
    rw [if_pos hadmits] at hrun
    have hinside := hmem.offset_add_le hmem.isOpen hadmits
    rw [hlength, ← halike.size] at hinside
    obtain ⟨t, ht, hheld, hguest⟩ := hrun.2 ⟨hmem.hostAddress, halike.base, hinside⟩
    rw [ht, ← hguest]
    exact .next hheld
  · rename_i hadmits
    rw [if_neg hadmits] at hrun
    obtain ⟨u, hu, hleft⟩ := hrun
    rw [hu]
    exact .fault hleft

section Pointer

variable {mem : Memory} {write : Bool} {m : MemoryRef} {n : Nat} {sc : Scratch}
variable {after : Guest.State → Word → Option Guest.State} {w v : Meaning} {s t : State}

/-- Code before the access that leaves the guest alone.

**Proof sketch.** The first part falls through with the guest as it was, so the second
performs the access for the same address and the same state; what the first part changed of the
host was free to change. -/
theorem Performs.of_fell (hw : w s = .fell t) (hheld : Held sc s t) (hguest : t.guest = s.guest)
    (h : Performs mem write m n after v t) : Performs mem write m n after (w.andThen v) s := by
  obtain ⟨address, g, haddress, hafter, hrun⟩ := h
  rw [hguest] at haddress hafter
  have hmemory : t.memory = s.memory := congrArg Guest.State.memory hguest
  refine ⟨address, g, haddress, hafter, ?_⟩
  rw [Meaning.andThen_of_fell hw]
  split
  · rename_i hadmits
    rw [if_pos hadmits] at hrun
    refine ⟨hrun.1, fun hbacked => ?_⟩
    obtain ⟨u, hu, hheld', hguest'⟩ := hrun.2
      ⟨hbacked.host, by rw [hmemory, hbacked.base], by rw [hmemory]; exact hbacked.inside⟩
    exact ⟨u, hu, hheld.empty.trans hheld', hguest'⟩
  · rename_i hadmits
    rw [if_neg hadmits, hguest] at hrun
    obtain ⟨u, hu, hleft⟩ := hrun
    exact ⟨u, hu, hleft.of_held hheld⟩

/-- Code that computes a host address, and code that makes the access there. The first part leaves
the block where memory does not admit the access. Otherwise it has left the host address in a
register, from which the second part goes on.

This is the shape of all four accesses; they differ in the second part only.

**Proof sketch.** The first part leaves the block, or falls through with the guest as it was
and the host address in its register, where the second makes the access. The second part never
leaves the block. -/
theorem Performs.of_pointer {ptr : Reg}
    (hpoint : ∃ address, s.guest.address m = some address ∧
      if mem.admits write address (BitVec.ofNat 64 n) then ∃ u, w s = .fell u ∧ Held sc s u ∧
        u.guest = s.guest ∧ u.reg ptr = mem.hostAddress + (address - mem.base)
      else ∃ u, w s = .returned u ∧ Left .fault address s.guest s u)
    (hstays : Stays v) (hafter : ∀ address, ∃ g, after s.guest address = some g)
    (hrest : ∀ u address, Held sc s u → u.guest = s.guest →
      u.reg ptr = Memory.hostBase + (address - u.memory.base) →
      (address - u.memory.base).toNat + n ≤ u.memory.bytes.size →
      ∃ t, v u = .fell t ∧ Held {} u t ∧ after s.guest address = some t.guest) :
    Performs mem write m n after (w.andThen v) s := by
  obtain ⟨address, haddress, hpoint⟩ := hpoint
  obtain ⟨g, hg⟩ := hafter address
  refine ⟨address, g, haddress, hg, ?_⟩
  split
  · rename_i hadmits
    rw [if_pos hadmits] at hpoint
    obtain ⟨u, hu, hheld, hguest, hptr⟩ := hpoint
    rw [Meaning.andThen_of_fell hu]
    refine ⟨hstays u, fun hbacked => ?_⟩
    have hmemory : u.memory = s.memory := congrArg Guest.State.memory hguest
    have hbase : u.memory.base = mem.base := by rw [hmemory, hbacked.base]
    obtain ⟨t, ht, hheld', hafter'⟩ := hrest u address hheld hguest
      (by rw [hptr, hbacked.host, hbase]) (by rw [hbase, hmemory]; exact hbacked.inside)
    refine ⟨t, ht, hheld.empty.trans hheld', ?_⟩
    rw [hg] at hafter'
    exact (Option.some.inj hafter').symm
  · rename_i hadmits
    rw [if_neg hadmits] at hpoint
    obtain ⟨u, hu, hleft⟩ := hpoint
    exact ⟨u, Meaning.andThen_of_returned hu _, hleft⟩

end Pointer

/-- A register that could be written once can be written: whether it can does not depend on the
state or the value. -/
theorem exists_write {g g' : Guest.State} {r : Register} {v : Word} (h : g.write r v = some g')
    (g₁ : Guest.State) (v₁ : Word) : ∃ g₂, g₁.write r v₁ = some g₂ := by
  have hmapped : r.Mapped := by
    by_contra hr
    rw [Guest.State.write_eq_none_iff.2 hr] at h
    cases h
  have hne : g₁.write r v₁ ≠ none := fun hnone => Guest.State.write_eq_none_iff.1 hnone hmapped
  exact Option.ne_none_iff_exists'.1 hne

/-- The code of a load, for operands of the right kinds. -/
theorem load_eq (o : Guest.Op) (rt : Register) (m : MemoryRef) (mem : Option Memory) :
    load { op := o, operands := [.reg rt, .mem m] } mem =
      guestPointer mem m (accessSize o rt) false >>= fun ptr =>
        emit (.load ptr ptr 0 (accessSize o rt)) >>= fun _ =>
          goOn >>= fun _ => writeRegister rt ptr := by
  simp [load, wantOperands, registerAt, memoryAt, operandAt]

/-- The code of a store, for operands of the right kinds. The register is read before the address
is checked. -/
theorem store_eq (o : Guest.Op) (rt : Register) (m : MemoryRef) (mem : Option Memory) :
    store { op := o, operands := [.reg rt, .mem m] } mem =
      readRegister rt >>= fun val => guestPointer mem m (accessSize o rt) true >>= fun ptr =>
        emit (.store ptr 0 val (accessSize o rt)) >>= fun _ => goOn := by
  simp [store, wantOperands, registerAt, memoryAt, operandAt]

/-- The code of a load of two registers, for operands of the right kinds. -/
theorem loadPair_eq (o : Guest.Op) (rt rt2 : Register) (m : MemoryRef) (mem : Option Memory) :
    loadPair { op := o, operands := [.reg rt, .reg rt2, .mem m] } mem =
      guestPointer mem m (2 * rt.width.tdiv 8) false >>= fun ptr =>
        claim >>= fun first => claim >>= fun second =>
          emit (.load first ptr 0 (rt.width.tdiv 8)) >>= fun _ =>
            emit (.load second ptr (BitVec.ofInt 32 (rt.width.tdiv 8)) (rt.width.tdiv 8)) >>=
              fun _ => writeRegister rt first >>= fun _ =>
                goOn >>= fun _ => writeRegister rt2 second := by
  simp [loadPair, wantOperands, registerAt, memoryAt, operandAt]

/-- The code of a store of two registers, for operands of the right kinds. Both are read before
the address is checked. -/
theorem storePair_eq (o : Guest.Op) (rt rt2 : Register) (m : MemoryRef) (mem : Option Memory) :
    storePair { op := o, operands := [.reg rt, .reg rt2, .mem m] } mem =
      readRegister rt >>= fun first => readRegister rt2 >>= fun second =>
        guestPointer mem m (2 * rt.width.tdiv 8) true >>= fun ptr =>
          emit (.store ptr 0 first (rt.width.tdiv 8)) >>= fun _ =>
            emit (.store ptr (BitVec.ofInt 32 (rt.width.tdiv 8)) second (rt.width.tdiv 8)) >>=
              fun _ => goOn := by
  simp [storePair, wantOperands, registerAt, memoryAt, operandAt]

/-- **Loading a register.**

**Proof sketch.** The checked address is in a register of the pool, into which the number is
loaded over it. What is loaded fits into the guest register, so writing it does not cut it. -/
theorem load_lowers {o : Guest.Op} {rt : Register} (m : MemoryRef) {n : Nat} (hn : IsAccess n)
    (hsize : accessSize o rt = n) (hw : Host.isWidth rt.width) (hfits : 8 * n ≤ bits rt.width)
    (mem : Memory) (e : Emission) :
    Lowers (load { op := o, operands := [.reg rt, .mem m] } (some mem)) e
      (fun _ e' w => e'.goesOn = true ∧
        ∀ s, Performs mem false m n (fun g address => g.write rt (g.loaded address n)) w s)
      (Refused [rt, m.base] 7 e.scratch) := by
  rw [load_eq, hsize]
  refine .bind ((guestPointer_lowers mem m n false e).mono (fun _ _ _ => id)
    fun f hf => hf.mono (by simp) (by omega)) ?_
  rintro ptr e₁ w₁ ⟨hptr, hfree, hscratch, hgoes, hpoint⟩
  refine .emit_bind (hn.encode_load ..) (.goOn_bind ?_)
  generalize he₂ : (e₁.add (.load ptr ptr 0 n)).goOn = e₂
  have hscratch₂ : e₂.scratch = e.scratch.reserve ptr := by simp [← he₂, hscratch]
  have hless := e.scratch.free_le_reserve ptr
  refine (writeRegister_lowers rt ptr hw hptr e₂ (by simp [hscratch₂])).mono ?_
    fun f hf => hf.lift (by simp) (by rw [hscratch₂]; omega)
  rintro _ e₃ w₃ ⟨hadds₃, hwrite⟩
  refine ⟨by simp [hadds₃.goesOn, ← he₂], fun s => ?_⟩
  have hpoint := hpoint s
  rw [BitVec.ofInt_natCast] at hpoint
  refine .of_pointer hpoint ?_ ?_ ?_
  · refine .andThen (.does (by simp)) (.of_fell fun s => ?_)
    obtain ⟨t, ht, -⟩ := hwrite s
    exact ⟨t, ht⟩
  · intro address
    obtain ⟨t, -, -, -, hguest⟩ := hwrite s
    exact exists_write hguest _ _
  · intro u address hheld hguest hreg hinside
    have hload : does (.load ptr ptr 0 n) u = .fell (u.setReg ptr (u.guest.loaded address n)) :=
      does_load hn ptr ((address_zero u ptr).trans hreg) hinside
    obtain ⟨t, ht, hheld', -, hguest'⟩ := hwrite (u.setReg ptr (u.guest.loaded address n))
    refine ⟨t, (Meaning.andThen_of_fell hload _).trans ht, ?_, ?_⟩
    · exact (Held.of_setReg hptr u _).trans hheld'.empty
    · rw [← hguest', ← hguest]
      simp [setWidth_loaded hn hfits]

/-- **Storing a register.**

**Proof sketch.** The value is read into a register of the pool, which stays in use while the
address is computed in others, so that it is still there when it is stored. -/
theorem store_lowers {o : Guest.Op} {rt : Register} (m : MemoryRef) {n : Nat} (hn : IsAccess n)
    (hsize : accessSize o rt = n) (mem : Memory) (e : Emission) :
    Lowers (store { op := o, operands := [.reg rt, .mem m] } (some mem)) e
      (fun _ e' w => e'.goesOn = true ∧ ∀ s, Performs mem true m n
        (fun g address => (g.read rt).map fun v => g.stored address (littleEndian n v.toNat)) w s)
      (Refused [rt, m.base] 7 e.scratch) := by
  rw [store_eq, hsize]
  refine .bind ((readRegister_lowers rt e).mono (fun _ _ _ => id)
    fun f hf => hf.mono (by simp) (by omega)) ?_
  rintro val e₁ w₁ ⟨hval, hfree, hadds₁, hread⟩
  have hless := e.scratch.free_le_reserve val
  refine .bind ((guestPointer_lowers mem m n true e₁).mono (fun _ _ _ => id)
    fun f hf => hf.lift (by simp) (by rw [hadds₁.scratch]; omega)) ?_
  rintro ptr e₂ w₂ ⟨hptr, hfree₂, hscratch₂, hgoes₂, hpoint⟩
  refine .emit_bind (hn.encode_store ..) (.update rfl ⟨rfl, fun s => ?_⟩)
  obtain ⟨t, ht, hheld, hguest, hv⟩ := hread s
  refine .of_fell ht hheld hguest ?_
  have hpoint := hpoint t
  rw [BitVec.ofInt_natCast] at hpoint
  rw [Meaning.andThen_fell]
  refine .of_pointer hpoint (.does (by simp)) ?_ ?_
  · intro address
    rw [hguest, hv]
    exact ⟨_, rfl⟩
  · intro u address hheld' hguest' hreg hinside
    have hstore := does_store hn val ((address_zero u ptr).trans hreg) hinside
    have hkept : u.reg val = t.reg val := hheld' val (.inl (by simp [hadds₁.scratch]))
    refine ⟨_, hstore, fun q _ => rfl, ?_⟩
    rw [hguest, hv, hkept, ← hguest, ← hguest']
    rfl

/-- The displacement of the second half of a pair. -/
theorem IsAccess.signExtend {n : Nat} (hn : IsAccess n) :
    (BitVec.ofInt 32 n).signExtend 64 = BitVec.ofNat 64 n := by
  obtain rfl | rfl | rfl | rfl := hn <;> decide

/-- The second half of a pair is `n` bytes after the first, in host and guest memory. -/
theorem address_second {u : State} {ptr : Reg} {address : Word} {n : Nat} (hn : IsAccess n)
    (hreg : u.reg ptr = Memory.hostBase + (address - u.memory.base)) :
    u.address ptr (BitVec.ofInt 32 n) =
      Memory.hostBase + (address + BitVec.ofNat 64 n - u.memory.base) := by
  rw [Host.State.address, hn.signExtend, hreg]
  grind

/-- The second half of a pair is `n` bytes behind the first, in memory as well: an access that
lies inside does not wrap around. -/
theorem toNat_second {address base : Word} {n size : Nat} (hsize : size < 0x8000000000000000)
    (h : (address - base).toNat + 2 * n ≤ size) :
    (address + BitVec.ofNat 64 n - base).toNat = (address - base).toNat + n := by
  have hsum : address + BitVec.ofNat 64 n - base = (address - base) + BitVec.ofNat 64 n := by
    grind
  rw [hsum, BitVec.toNat_add, BitVec.toNat_ofNat]
  omega

/-- Loading two numbers, one behind the other, into two registers of the pool.

**Proof sketch.** The first load replaces one register, which is not that of the address, so the
second finds the address in its place. -/
theorem does_loadPair {u : State} {first second ptr : Reg} {address : Word} {n : Nat}
    (hn : IsAccess n) (hfirst : first ∈ Scratch.pool) (hsecond : second ∈ Scratch.pool)
    (hptr : first ≠ ptr) (hne : second ≠ first)
    (hreg : u.reg ptr = Memory.hostBase + (address - u.memory.base))
    (hinside : (address - u.memory.base).toNat + 2 * n ≤ u.memory.bytes.size) :
    ∃ v, ((does (.load first ptr 0 n)).andThen (does (.load second ptr (BitVec.ofInt 32 n) n))) u =
        .fell v ∧ Held {} u v ∧ v.guest = u.guest ∧ v.reg first = u.guest.loaded address n ∧
      v.reg second = u.guest.loaded (address + BitVec.ofNat 64 n) n := by
  have hsecondAt := toNat_second u.memory.size_lt hinside
  have hinFirst : (address - u.memory.base).toNat + n ≤ u.memory.bytes.size := by omega
  have hload : does (.load first ptr 0 n) u = .fell (u.setReg first (u.guest.loaded address n)) :=
    does_load hn first ((address_zero u ptr).trans hreg) hinFirst
  have hheld := Held.of_setReg hfirst u (u.guest.loaded address n)
  generalize hu₁ : u.setReg first (u.guest.loaded address n) = u₁ at hload hheld
  have hmemory₁ : u₁.memory = u.memory := by rw [← hu₁]; rfl
  have hreg₁ : u₁.reg ptr = Memory.hostBase + (address - u₁.memory.base) := by
    rw [hmemory₁, ← hu₁, Host.State.reg_setReg, if_neg hptr.symm, hreg]
  have hload₂ : does (.load second ptr (BitVec.ofInt 32 n) n) u₁ =
      .fell (u₁.setReg second (u.guest.loaded (address + BitVec.ofNat 64 n) n)) := by
    rw [does_load hn second (address_second hn hreg₁) (by rw [hmemory₁]; omega), hmemory₁]
    rfl
  refine ⟨_, (Meaning.andThen_of_fell hload _).trans hload₂, ?_, ?_, ?_, ?_⟩
  · exact hheld.trans (Held.of_setReg hsecond u₁ _)
  · rw [← hu₁]
    rfl
  · simp [← hu₁, hne.symm]
  · simp

/-- Storing two registers, one behind the other.

**Proof sketch.** The first store changes no register, so the second finds the address and its
value. Together they replace the bytes of the whole access (`setBytes_append`). -/
theorem does_storePair {u : State} {first second ptr : Reg} {address : Word} {n : Nat}
    (hn : IsAccess n) (hreg : u.reg ptr = Memory.hostBase + (address - u.memory.base))
    (hinside : (address - u.memory.base).toNat + 2 * n ≤ u.memory.bytes.size) :
    ((does (.store ptr 0 first n)).andThen (does (.store ptr (BitVec.ofInt 32 n) second n))) u =
      .fell (setBytes u (address - u.memory.base).toNat
        (littleEndian n (u.reg first).toNat ++ littleEndian n (u.reg second).toNat)) := by
  have hsecondAt := toNat_second u.memory.size_lt hinside
  have hinFirst : (address - u.memory.base).toNat + n ≤ u.memory.bytes.size := by omega
  have hstore := does_store hn first ((address_zero u ptr).trans hreg) hinFirst
  have hbytes := setBytes_append u (address - u.memory.base).toNat
    (littleEndian n (u.reg first).toNat) (littleEndian n (u.reg second).toNat)
  rw [length_littleEndian, ← hsecondAt] at hbytes
  generalize hu₁ : setBytes u (address - u.memory.base).toNat
    (littleEndian n (u.reg first).toNat) = u₁ at hstore hbytes
  have hbase₁ : u₁.memory.base = u.memory.base := by rw [← hu₁]; rfl
  have hreg₁ : u₁.reg ptr = Memory.hostBase + (address - u₁.memory.base) := by
    rw [hbase₁, ← hu₁]
    exact hreg
  have hvalue₁ : u₁.reg second = u.reg second := by rw [← hu₁]; rfl
  have hinSecond : (address + BitVec.ofNat 64 n - u₁.memory.base).toNat + n ≤
      u₁.memory.bytes.size := by
    rw [hbase₁, ← hu₁, memory_setBytes, Memory.size_setBytesAt]
    omega
  refine (Meaning.andThen_of_fell hstore _).trans ?_
  rw [does_store hn second (address_second hn hreg₁) hinSecond, hbase₁, hvalue₁, hbytes]

/-- **Loading two registers.**

**Proof sketch.** Both numbers are loaded into registers of the pool before either guest register
is written (`does_loadPair`), even if a guest register is the base. Writing the first guest register
leaves the second number alone, since its register is in use. -/
theorem loadPair_lowers {o : Guest.Op} {rt rt2 : Register} (m : MemoryRef) {n : Nat}
    (hn : IsAccess n) (hsize : rt.width.tdiv 8 = n) (hw : Host.isWidth rt.width)
    (hw2 : rt2.width = rt.width) (hfits : 8 * n ≤ bits rt.width) (mem : Memory) (e : Emission) :
    Lowers (loadPair { op := o, operands := [.reg rt, .reg rt2, .mem m] } (some mem)) e
      (fun _ e' w => e'.goesOn = true ∧ ∀ s, Performs mem false m (2 * n)
        (fun g address => (g.write rt (g.loaded address n)).bind fun g' =>
          g'.write rt2 (g.loaded (address + BitVec.ofNat 64 n) n)) w s)
      (Refused [rt, rt2, m.base] 7 e.scratch) := by
  rw [loadPair_eq, hsize]
  refine .bind ((guestPointer_lowers mem m (2 * n) false e).mono (fun _ _ _ => id)
    fun f hf => hf.mono (by simp) (by omega)) ?_
  rintro ptr e₁ w₁ ⟨hptr, hfree, hscratch, hgoes, hpoint⟩
  have hless := e.scratch.free_le_reserve ptr
  refine .claim_bind (fun first hfirst hfree₁ => ?_) fun f hf =>
    hf.lift (by simp) (by rw [hscratch]; omega)
  have hless₁ := (e.scratch.reserve ptr).free_le_reserve first
  refine .claim_bind (fun second hsecond hfree₂ => ?_) fun f hf =>
    hf.lift (by simp) (by rw [Emission.scratch_reserve, hscratch]; omega)
  have hless₂ := ((e.scratch.reserve ptr).reserve first).free_le_reserve second
  refine .emit_bind (hn.encode_load ..) (.emit_bind (hn.encode_load ..) ?_)
  generalize he₂ : (((e₁.reserve first).reserve second).add (.load first ptr 0 n)).add
    (.load second ptr (BitVec.ofInt 32 n) n) = e₂
  have hscratch₂ : e₂.scratch = ((e.scratch.reserve ptr).reserve first).reserve second := by
    simp [← he₂, hscratch]
  have hfp : first ≠ ptr := by
    rintro rfl
    simp [hscratch] at hfree₁
  have hsp : second ≠ ptr ∧ second ≠ first := by
    simp [hscratch] at hfree₂
    exact ⟨hfree₂.1.2, hfree₂.2⟩
  refine .bind ((writeRegister_lowers rt first hw hfirst e₂ (by simp [hscratch₂])).mono
    (fun _ _ _ => id) fun f hf => hf.lift (by simp) (by rw [hscratch₂]; omega)) ?_
  rintro _ e₃ w₃ ⟨hadds₃, hwrite⟩
  have huse : e₃.goOn.scratch.inUse second := by
    simp [hadds₃.scratch, hscratch₂]
  refine .goOn_bind ((writeRegister_lowers rt2 second (by rwa [hw2]) hsecond e₃.goOn huse).mono ?_
    fun f hf => hf.lift (by simp) (by rw [Emission.scratch_goOn, hadds₃.scratch, hscratch₂]; omega))
  rintro _ e₄ w₄ ⟨hadds₄, hwrite2⟩
  refine ⟨by simp [hadds₄.goesOn], fun s => ?_⟩
  have hpoint := hpoint s
  rw [show (2 * n : Int) = ((2 * n : Nat) : Int) by simp, BitVec.ofInt_natCast] at hpoint
  refine .of_pointer hpoint ?_ ?_ ?_
  · refine .andThen (.does (by simp)) (.andThen (.does (by simp)) (.andThen (.of_fell ?_)
      (.of_fell ?_)))
    · exact fun s => (hwrite s).imp fun t h => h.1
    · exact fun s => (hwrite2 s).imp fun t h => h.1
  · intro address
    obtain ⟨t, -, -, -, hguest⟩ := hwrite s
    obtain ⟨t', -, -, -, hguest'⟩ := hwrite2 s
    obtain ⟨g, hg⟩ := exists_write hguest s.guest (s.guest.loaded address n)
    obtain ⟨g', hg'⟩ := exists_write hguest' g (s.guest.loaded (address + BitVec.ofNat 64 n) n)
    exact ⟨g', by rw [hg, Option.bind_some, hg']⟩
  · intro u address hheld hguest hreg hinside
    obtain ⟨v, hv, hheldv, hguestv, hfirstv, hsecondv⟩ :=
      does_loadPair hn hfirst hsecond hfp hsp.2 hreg hinside
    obtain ⟨t₁, ht₁, hheld₁, -, hguest₁⟩ := hwrite v
    obtain ⟨t₂, ht₂, hheld₂, -, hguest₂⟩ := hwrite2 t₁
    have hkept : t₁.reg second = v.reg second :=
      hheld₁ second (.inl (by simp [hscratch₂, hsp.2]))
    refine ⟨t₂, ?_, hheldv.trans (hheld₁.empty.trans hheld₂.empty), ?_⟩
    · rw [← Meaning.andThen_assoc, Meaning.andThen_of_fell hv, Meaning.andThen_of_fell ht₁, ht₂]
    · rw [hfirstv, setWidth_loaded hn hfits, hguestv] at hguest₁
      rw [hkept, hsecondv, hw2, setWidth_loaded hn hfits] at hguest₂
      rw [← hguest, hguest₁, Option.bind_some, hguest₂]

/-- **Storing two registers.**

**Proof sketch.** Both values are read first and stay in registers that are in use, while the
address is computed in others. The two stores then replace the bytes of the whole access
(`does_storePair`). -/
theorem storePair_lowers {o : Guest.Op} {rt rt2 : Register} (m : MemoryRef) {n : Nat}
    (hn : IsAccess n) (hsize : rt.width.tdiv 8 = n) (mem : Memory) (e : Emission) :
    Lowers (storePair { op := o, operands := [.reg rt, .reg rt2, .mem m] } (some mem)) e
      (fun _ e' w => e'.goesOn = true ∧ ∀ s, Performs mem true m (2 * n)
        (fun g address => (g.read rt).bind fun v => (g.read rt2).map fun v2 =>
          g.stored address (littleEndian n v.toNat ++ littleEndian n v2.toNat)) w s)
      (Refused [rt, rt2, m.base] 7 e.scratch) := by
  rw [storePair_eq, hsize]
  refine .bind ((readRegister_lowers rt e).mono (fun _ _ _ => id)
    fun f hf => hf.mono (by simp) (by omega)) ?_
  rintro first e₁ w₁ ⟨hfirst, hfree, hadds₁, hread⟩
  have hless := e.scratch.free_le_reserve first
  refine .bind ((readRegister_lowers rt2 e₁).mono (fun _ _ _ => id)
    fun f hf => hf.lift (by simp) (by rw [hadds₁.scratch]; omega)) ?_
  rintro second e₂ w₂ ⟨hsecond, hfree₂, hadds₂, hread2⟩
  have hless₂ := e₁.scratch.free_le_reserve second
  rw [hadds₁.scratch] at hless₂
  refine .bind ((guestPointer_lowers mem m (2 * n) true e₂).mono (fun _ _ _ => id)
    fun f hf => hf.lift (by simp) (by rw [hadds₂.scratch, hadds₁.scratch]; omega)) ?_
  rintro ptr e₃ w₃ ⟨hptr, hfree₃, hscratch₃, hgoes₃, hpoint⟩
  refine .emit_bind (hn.encode_store ..) (.emit_bind (hn.encode_store ..)
    (.update rfl ⟨rfl, fun s => ?_⟩))
  obtain ⟨t, ht, hheld, hguest, hv⟩ := hread s
  obtain ⟨t₂, ht₂, hheld₂, hguest₂, hv2⟩ := hread2 t
  refine .of_fell ht hheld hguest (.of_fell ht₂ hheld₂ hguest₂ ?_)
  have hpoint := hpoint t₂
  rw [show (2 * n : Int) = ((2 * n : Nat) : Int) by simp, BitVec.ofInt_natCast] at hpoint
  rw [Meaning.andThen_fell]
  refine .of_pointer hpoint (.andThen (.does (by simp)) (.does (by simp))) ?_ ?_
  · intro address
    rw [hguest₂, hguest, hv, ← hguest, hv2]
    exact ⟨_, rfl⟩
  · intro u address hheld' hguest' hreg hinside
    have hkept : u.reg first = t.reg first := by
      rw [hheld' first (.inl (by simp [hadds₂.scratch, hadds₁.scratch])),
        hheld₂ first (.inl (by simp [hadds₁.scratch]))]
    have hkept2 : u.reg second = t₂.reg second := hheld' second (.inl (by simp [hadds₂.scratch]))
    refine ⟨_, does_storePair hn hreg hinside, fun q _ => rfl, ?_⟩
    rw [guest_setBytes, hguest', hguest₂, hv2, hguest, hv, hkept, hkept2]
    rfl

end Dynarec.Lower
