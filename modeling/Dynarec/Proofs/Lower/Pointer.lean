import Dynarec.Lower.Access
import Dynarec.Proofs.Lower.Data
import Dynarec.Proofs.Memory

/-!
# Host addresses of guest accesses

The code of an access computes the guest address and leaves the block when the access does not fit
into the room of the memory it was emitted for. Otherwise it goes on with the host address at the
same distance from the host address of the region.

## Main results

* `Dynarec.Lower.checkBounds_lowers` — the check lets through what memory admits.
* `Dynarec.Lower.guestPointer_lowers` — the host address of an admitted access.
-/

set_option autoImplicit false

namespace Dynarec.Lower

open Host (Reg Inst State AluOp)
open Code (Walked walk)
open Guest (Operand Register Instruction MemoryRef bits)

/-! ## Checking an address -/

/-- Branches when an access fits into the room above the lowest address, and leaves the distance
from that address in `t`. -/
def branchWithin (mem : Memory) (write : Bool) (length : Word) (t : Reg) (label : Nat) :
    Emit Unit := do
  aluConst .sub 64 t (mem.lowest write)
  aluConst .cmp 64 t (mem.room write - length)
  emitBranch .belowOrEqual label

/-- Leaves the block with the address in `guest` unless the access fits; otherwise `t` holds the
distance of the address from the lowest one. -/
def checkBounds (mem : Memory) (write : Bool) (length : Word) (t guest : Reg) : Emit Unit := do
  let inRange ← newLabel
  (if length ≤ mem.room write then branchWithin mem write length t inRange else pure ())
  exitWith .fault guest
  bindLabel inRange

/-- Turns the distance in `t` into a host address. -/
def toHost (mem : Memory) (write : Bool) (t : Reg) : Emit Reg :=
  withScratch fun host => do
    emit (.movAbs host (mem.hostAddress + (mem.lowest write - mem.base)))
    emit (.alu .add 64 t host)
    pure t

/-- Adds an offset to an address. -/
def addOffset (t : Reg) (offset : Int) : Emit Unit :=
  if offset ≠ 0 then aluConst .add 64 t (BitVec.ofInt 64 offset) else pure ()

/-- The code that turns a memory reference into a checked host address, part by part. -/
theorem guestPointer_eq (mem : Memory) (m : MemoryRef) (size : Int) (write : Bool) :
    guestPointer (some mem) m size write =
      readRegister m.base >>= fun t => addOffset t m.offset >>= fun _ => withScratch fun guest =>
        emit (.mov 64 guest t) >>= fun _ =>
          checkBounds mem write (BitVec.ofInt 64 size) t guest >>= fun _ => toHost mem write t := by
  unfold guestPointer checkBounds branchWithin addOffset toHost Memory.room Memory.lowest
  dsimp only
  generalize (if write then mem.writableStart else mem.base) = lo
  by_cases hoffset : m.offset = 0 <;> by_cases hroom : BitVec.ofInt 64 size ≤ mem.stop - lo <;>
    simp [hoffset, hroom]

variable {mem : Memory} {write : Bool} {t guest : Reg}

/-- The host's unsigned comparison.

**Proof sketch.** Comparing is subtracting: there is a borrow exactly if the first is below
the second, and the difference is zero exactly if they are equal. -/
theorem holds_belowOrEqual (x y : Word) :
    Host.Cond.belowOrEqual.holds (.ofSub x y) = decide (x ≤ y) := by
  have hzero : (x - y == 0) = decide (x = y) := by
    rw [Bool.eq_iff_iff, beq_iff_eq, decide_eq_true_eq]
    constructor
    · intro h
      rw [← BitVec.sub_add_cancel x y, h]
      exact BitVec.zero_add y
    · rintro rfl
      exact BitVec.sub_self x
  have hle : decide (x ≤ y) = (decide (x.toNat < y.toNat) || decide (x = y)) := by
    rw [Bool.eq_iff_iff, Bool.or_eq_true]
    simp only [decide_eq_true_eq, BitVec.le_def, ← BitVec.toNat_inj]
    omega
  rw [hle, ← hzero]
  simp [Host.Cond.holds, Host.Cond.belowOrEqual, Host.Flags.ofSub]

/-- The code that checks a distance against the room of the region. The distance is left in the
register of the address, and the branch is taken exactly if the access fits.

**Proof sketch.** The lowest address is subtracted and the distance compared with what is
left of the room, which are two operations on a register and a constant (`aluConst_lowers`). The
branch is the unsigned comparison (`holds_belowOrEqual`). -/
theorem branchWithin_branches (length : Word) (ht : t ∈ Scratch.pool) (label : Nat) (e : Emission)
    (huse : e.scratch.inUse t) :
    Branches (branchWithin mem write length t label) label e
      (fun e' w c => e'.scratch = e.scratch ∧ e'.goesOn = e.goesOn ∧ ∀ s, ∃ u, w s = .fell u ∧
        Held (e.scratch.release t) s u ∧ u.guest = s.guest ∧
          u.reg t = s.reg t - mem.lowest write ∧
            c.holds u.flags = decide (s.reg t - mem.lowest write ≤ mem.room write - length))
      (Refused [] 1 e.scratch) := by
  refine .bind (aluConst_lowers .sub t _ rfl e huse) ?_
  rintro _ e₁ w₁ ⟨hadds₁, hsub⟩
  refine .bind ((aluConst_lowers .cmp t _ rfl e₁ (by rw [hadds₁.scratch, huse])).mono
    (fun _ _ _ => id) fun f hf => by rwa [hadds₁.scratch] at hf) ?_
  rintro _ e₂ w₂ ⟨hadds₂, hcmp⟩
  refine .emitBranch (by decide) ⟨?_, ?_, fun s => ?_⟩
  · exact hadds₂.scratch.trans hadds₁.scratch
  · exact hadds₂.goesOn.trans hadds₁.goesOn
  · obtain ⟨s₁, h₁, hheld₁, -, hguest₁⟩ := hsub s _ rfl
    obtain ⟨s₂, h₂, hheld₂, hflags₂, hguest₂⟩ := hcmp s₁ _ rfl
    have hvalue₁ : s₁.reg t = s.reg t - mem.lowest write := by
      rw [hheld₁ t (.inl huse)]
      simp
    have hvalue₂ : s₂.reg t = s₁.reg t := hheld₂ t (.inl (by rw [hadds₁.scratch, huse]))
    refine ⟨s₂, ?_, ?_, ?_, hvalue₂.trans hvalue₁, ?_⟩
    · rw [Meaning.andThen_of_fell h₁, Meaning.andThen_of_fell h₂]
    · rw [hadds₁.scratch] at hheld₂
      refine .trans ?_ ((hheld₁.release t).trans (hheld₂.release t))
      exact .of_others ht (by simp) fun q hq => by simp [hq]
    · rw [hguest₂, Host.State.guest_setFlags, hguest₁]
      rfl
    · rw [hflags₂, ← hvalue₁, ← holds_belowOrEqual]
      rfl

/-- **The check** lets through what memory admits, and leaves the block otherwise.

**Proof sketch.** If the access is longer than the room, the code leaves the block at once.
If not, it compares and jumps over the code that leaves the block exactly if memory admits the
access (`branchWithin_branches`). -/
theorem checkBounds_lowers (length : Word) (ht : t ∈ Scratch.pool) (e : Emission)
    (huse : e.scratch.inUse t) (hguest : e.scratch.inUse guest) (hne : guest ≠ t) :
    Lowers (checkBounds mem write length t guest) e
      (fun _ e' w => e'.scratch = e.scratch ∧ e'.goesOn = e.goesOn ∧ ∀ s, s.reg t = s.reg guest →
        if mem.admits write (s.reg guest) length then ∃ u, w s = .fell u ∧
          Held (e.scratch.release t) s u ∧ u.guest = s.guest ∧
            u.reg t = s.reg guest - mem.lowest write
        else ∃ u, w s = .returned u ∧ Left .fault (s.reg guest) s.guest s u)
      (Refused [] 1 e.scratch) := by
  unfold checkBounds
  by_cases hroom : length ≤ mem.room write
  · simp only [hroom, if_true]
    refine .jumpOver (branchWithin_branches length ht _ _ huse) ?_
    rintro e₁ w₁ c ⟨hscratch, hgoes, hbranch⟩
    refine (exitWith_lowers .fault guest e₁ _).mono ?_ fun f hf => hf
    rintro _ e₂ w₂ ⟨hadds, hexit⟩
    have hlen := hadds.length
    refine ⟨hlen.trans (Nat.add_le_add_left (by decide) _), ?_, ?_, fun s hs => ?_⟩
    · exact hadds.scratch.trans hscratch
    · exact hadds.goesOn.trans hgoes
    · obtain ⟨u, hu, hheld, hguest', hvalue, hholds⟩ := hbranch s
      have hadmits : mem.admits write (s.reg guest) length = c.holds u.flags := by
        rw [hholds, Memory.admits, decide_eq_true hroom, Bool.true_and, hs]
      rw [Meaning.andThen_of_fell hu, Meaning.ifElse, ← hadmits]
      split
      · exact ⟨u, rfl, hheld, hguest', by rw [hvalue, hs]⟩
      · obtain ⟨v, hv, hleft⟩ := hexit u
        have hkept : u.reg guest = s.reg guest := hheld guest (.inl (by simpa [hne] using hguest))
        rw [hkept, hguest'] at hleft
        exact ⟨v, hv, hleft.of_held hheld⟩
  · simp only [hroom, if_false, pure_bind]
    refine .unusedLabel ((exitWith_lowers .fault guest _ _).mono ?_ fun f hf => hf)
    rintro _ e₁ w₁ ⟨hadds, hexit⟩
    refine ⟨hadds.scratch, hadds.goesOn, fun s _ => ?_⟩
    have hadmits : mem.admits write (s.reg guest) length = false := by
      rw [Memory.admits, decide_eq_false hroom, Bool.false_and]
    rw [hadmits]
    exact hexit s

/-- Turning a distance into a host address.

**Proof sketch.** What is added is a constant, in a scratch register of its own. -/
theorem toHost_lowers (ht : t ∈ Scratch.pool) (e : Emission) (huse : e.scratch.inUse t) :
    Lowers (toHost mem write t) e
      (fun h e' w => t = h ∧ e'.scratch = e.scratch ∧ e'.goesOn = e.goesOn ∧ ∀ s, ∃ u,
        w s = .fell u ∧ Held (e.scratch.release t) s u ∧ u.guest = s.guest ∧
          u.reg t = s.reg t + (mem.hostAddress + (mem.lowest write - mem.base)))
      (Refused [] 1 e.scratch) := by
  refine .withScratch (fun host hhost hfree => ?_) fun f hf => hf
  have hne : t ≠ host := Scratch.ne_of_free hhost hfree (.inl huse)
  refine .emit_bind ⟨_, rfl⟩ (.emit_bind ⟨_, rfl⟩ (.pure ⟨rfl, ?_, rfl, fun s => ?_⟩))
  · exact Scratch.release_reserve hfree
  · generalize mem.hostAddress + (mem.lowest write - mem.base) = v
    obtain ⟨u, hu, hguest, hothers, hvalue⟩ : ∃ u,
        does (.alu .add 64 t host) (s.setReg host v) = .fell u ∧ u.guest = s.guest ∧
          (∀ q, q ≠ t → u.reg q = (s.setReg host v).reg q) ∧ u.reg t = s.reg t + v :=
      ⟨_, rfl, rfl, fun q hq => by simp [hq], by simp [hne]⟩
    refine ⟨u, ?_, ?_, hguest, hvalue⟩
    · rw [Meaning.andThen_of_fell (does_movAbs ..), Meaning.andThen_of_fell hu]
    · refine .trans ?_ (.of_others ht (by simp) hothers)
      exact ((Held.refl _ s).setReg hhost hfree v).release t

/-- Adding an offset to an address.

**Proof sketch.** The offset is a constant (`aluConst_lowers`), and adding zero needs no
code. -/
theorem addOffset_lowers (ht : t ∈ Scratch.pool) (offset : Int) (e : Emission)
    (huse : e.scratch.inUse t) :
    Lowers (addOffset t offset) e
      (fun _ e' w => e'.scratch = e.scratch ∧ e'.goesOn = e.goesOn ∧ ∀ s, ∃ u, w s = .fell u ∧
        Held (e.scratch.release t) s u ∧ u.guest = s.guest ∧
          u.reg t = s.reg t + BitVec.ofInt 64 offset)
      (Refused [] 1 e.scratch) := by
  unfold addOffset
  split
  · refine (aluConst_lowers .add t _ rfl e huse).mono ?_ fun f hf => hf
    rintro _ e' w ⟨hadds, hrun⟩
    refine ⟨hadds.scratch, hadds.goesOn, fun s => ?_⟩
    obtain ⟨u, hu, hheld, -, hguest⟩ := hrun s _ rfl
    refine ⟨u, hu, .trans ?_ (hheld.release t), hguest, ?_⟩
    · exact .of_others ht (by simp) fun q hq => by simp [hq]
    · rw [hheld t (.inl huse)]
      simp
  · rename_i hzero
    have hoffset : offset = 0 := by simpa using hzero
    refine .pure ⟨rfl, rfl, fun s => ⟨s, rfl, .refl _ s, rfl, ?_⟩⟩
    rw [hoffset]
    simp

/-- The distance from the lowest address of an access, and that from the base to it, add up to
the distance from the base. All of it may wrap around. -/
theorem sub_add_distance (address low base host : Word) :
    address - low + (host + (low - base)) = host + (address - base) := by
  grind

/-- **The host address of an access.** The code leaves the block with the guest address if memory
does not admit the access; otherwise a register that was free holds the host address.

**Proof sketch.** Step by step through the code: the base register is read, the offset is
added, the address is copied for the exit, the access is checked, and the distance is turned into
a host address. The copy is needed only until the check is passed, and is given back at the end. -/
theorem guestPointer_lowers (mem : Memory) (m : MemoryRef) (size : Int) (write : Bool)
    (e : Emission) :
    Lowers (guestPointer (some mem) m size write) e
      (fun h e' w => h ∈ Scratch.pool ∧ e.scratch.inUse h = false ∧
        e'.scratch = e.scratch.reserve h ∧ e'.goesOn = e.goesOn ∧ ∀ s, ∃ address,
          s.guest.address m = some address ∧
          if mem.admits write address (BitVec.ofInt 64 size) then ∃ u, w s = .fell u ∧
            Held e.scratch s u ∧ u.guest = s.guest ∧
              u.reg h = mem.hostAddress + (address - mem.base)
          else ∃ u, w s = .returned u ∧ Left .fault address s.guest s u)
      (Refused [m.base] 3 e.scratch) := by
  rw [guestPointer_eq]
  refine .bind ((readRegister_lowers m.base e).mono (fun _ _ _ => id)
    fun f hf => hf.mono (by simp) (by omega)) ?_
  rintro t e₁ w₁ ⟨ht, hfree, hadds₁, hread⟩
  have huse : e₁.scratch.inUse t := by simp [hadds₁.scratch]
  have hless : e.scratch.free ≤ e₁.scratch.free + 1 := by
    rw [hadds₁.scratch]
    exact e.scratch.free_le_reserve t
  refine .bind ((addOffset_lowers ht m.offset e₁ huse).mono (fun _ _ _ => id)
    fun f hf => hf.lift (by simp) (by omega)) ?_
  rintro _ e₂ w₂ ⟨hscratch₂, hgoes₂, hadd⟩
  refine .withScratch (fun guest hguest hfree' => ?_) fun f hf =>
    hf.lift (by simp) (by rw [hscratch₂]; omega)
  have hne : t ≠ guest := Scratch.ne_of_free hguest hfree' (.inl (by rw [hscratch₂, huse]))
  have hless' := e₂.scratch.free_le_reserve guest
  rw [hscratch₂] at hless'
  refine .emit_bind ⟨_, rfl⟩ ?_
  generalize he₃ : (e₂.reserve guest).add (.mov 64 guest t) = e₃
  have hscratch₃ : e₃.scratch = e₁.scratch.reserve guest := by simp [← he₃, hscratch₂]
  have hgoes₃ : e₃.goesOn = e₂.goesOn := by simp [← he₃]
  refine .bind ((checkBounds_lowers _ ht e₃ (by simp [hscratch₃, huse]) (by simp [hscratch₃])
    hne.symm).mono (fun _ _ _ => id) fun f hf => hf.lift (by simp) (by rw [hscratch₃]; omega)) ?_
  rintro _ e₄ w₄ ⟨hscratch₄, hgoes₄, hcheck⟩
  refine (toHost_lowers ht e₄ (by simp [hscratch₄, hscratch₃, huse])).mono ?_
    fun f hf => hf.lift (by simp) (by rw [hscratch₄, hscratch₃]; omega)
  rintro _ e₅ w₅ ⟨rfl, hscratch₅, hgoes₅, hhost⟩
  refine ⟨ht, hfree, ?_, ?_, fun s => ?_⟩
  · rw [Emission.scratch_release, hscratch₅, hscratch₄, hscratch₃,
      Scratch.release_reserve (by rwa [← hscratch₂]), hadds₁.scratch]
  · rw [Emission.goesOn_release, hgoes₅, hgoes₄, hgoes₃, hgoes₂, hadds₁.goesOn]
  · obtain ⟨s₁, h₁, hheld₁, hguest₁, hx⟩ := hread s
    obtain ⟨s₂, h₂, hheld₂, hguest₂, hvalue₂⟩ := hadd s₁
    have hmov : does (.mov 64 guest t) s₂ = .fell (s₂.setReg guest (s₂.reg t)) := does_mov ..
    have hcheck := hcheck (s₂.setReg guest (s₂.reg t)) (by simp [hne])
    have hkept : Held e.scratch s (s₂.setReg guest (s₂.reg t)) := by
      rw [hadds₁.scratch, Scratch.release_reserve hfree] at hheld₂
      refine (hheld₁.trans hheld₂).setReg hguest ?_ _
      rw [hscratch₂, hadds₁.scratch, Scratch.inUse_reserve, Bool.or_eq_false_iff] at hfree'
      exact hfree'.1
    have hsub : ∀ q, e.scratch.inUse q = true → (e₃.scratch.release t).inUse q = true := by
      intro q hq
      have hqt : q ≠ t := Scratch.ne_of_free ht hfree (.inl hq)
      simp [hscratch₃, hadds₁.scratch, hq, hqt]
    have haddress : s.guest.address m = some (s₂.reg t) := by
      rw [Guest.State.address, hx, hvalue₂]
      rfl
    refine ⟨s₂.reg t, haddress, ?_⟩
    have hself : (s₂.setReg guest (s₂.reg t)).reg guest = s₂.reg t := by simp
    have hguest₃ : (s₂.setReg guest (s₂.reg t)).guest = s.guest :=
      hguest₂.trans hguest₁
    rw [hself, hguest₃] at hcheck
    simp only [Meaning.andThen_of_fell h₁, Meaning.andThen_of_fell h₂,
      Meaning.andThen_of_fell hmov]
    split
    · rename_i hadmits
      rw [if_pos hadmits] at hcheck
      obtain ⟨s₄, h₄, hheld₄, hguest₄, hvalue₄⟩ := hcheck
      obtain ⟨s₅, h₅, hheld₅, hguest₅, hvalue₅⟩ := hhost s₄
      refine ⟨s₅, by rw [Meaning.andThen_of_fell h₄, h₅], ?_, hguest₅.trans hguest₄, ?_⟩
      · rw [hscratch₄] at hheld₅
        exact hkept.trans ((hheld₄.mono hsub).trans (hheld₅.mono hsub))
      · rw [hvalue₅, hvalue₄, sub_add_distance]
    · rename_i hadmits
      rw [if_neg hadmits] at hcheck
      obtain ⟨u, hu, hleft⟩ := hcheck
      exact ⟨u, Meaning.andThen_of_returned hu _, hleft.of_held hkept⟩

end Dynarec.Lower
