import Dynarec.Proofs.Guest.Regular
import Dynarec.Proofs.Lower.Emission

/-!
# Scratch registers in emitted code

Claiming a register fails only when the whole pool is in use. Code may change registers of the pool
that are not in use, and no others: that is what makes a claimed register keep its value while
other code is emitted.

## Main definitions

* `Dynarec.Lower.Scratch.free` — the number of free registers of the pool.
* `Dynarec.Lower.Refused` — the failures of lowering: a register that is not mapped, or too few free
  scratch registers.
* `Dynarec.Lower.Adds` — how code changes the emission around it.
* `Dynarec.Lower.Held` — host states that agree on the registers in use.

## Main results

* `Dynarec.Lower.Emits.claim_bind`, `Dynarec.Lower.Lowers.claim_bind` — claiming a register.
* `Dynarec.Lower.Held.of_others` — what code that changes one free register leaves alone.
* `Dynarec.Lower.Lowers.withScratch` — code that holds a scratch register for its own duration.
-/

set_option autoImplicit false

namespace Dynarec

open Host (Reg Inst State)
open Code (Walked walk)

namespace Lower

/-! ## The pool -/

namespace Scratch

/-- The number of registers of the pool that are not in use. -/
def free (sc : Scratch) : Nat :=
  pool.countP fun r => !sc.inUse r

/-- A set of registers is told by the registers that are in use. -/
theorem ext_inUse {sc sc' : Scratch} (h : ∀ r, sc.inUse r = sc'.inUse r) : sc = sc' := by
  rcases sc with ⟨used⟩
  rcases sc' with ⟨used'⟩
  congr 1
  refine BitVec.eq_of_getLsbD_eq fun i hi => ?_
  exact h ⟨i, hi⟩

/-- Reserving a register that is in use changes nothing. -/
theorem reserve_of_inUse {sc : Scratch} {r : Reg} (h : sc.inUse r) : sc.reserve r = sc := by
  refine ext_inUse fun q => ?_
  by_cases hq : q = r <;> simp [hq, h]

/-- Releasing a register takes back that it was claimed. -/
theorem release_reserve {sc : Scratch} {r : Reg} (h : sc.inUse r = false) :
    (sc.reserve r).release r = sc := by
  refine ext_inUse fun q => ?_
  by_cases hq : q = r <;> simp [hq, h]

/-- Leaving one item out of a count takes away at most as often as the item occurs. -/
theorem countP_le_countP_add_count (p : Reg → Bool) (r : Reg) (l : List Reg) :
    l.countP p ≤ l.countP (fun q => p q && !decide (q = r)) + l.count r := by
  induction l with
  | nil => simp
  | cons q l ih =>
    rw [List.countP_cons, List.countP_cons, List.count_cons]
    by_cases hq : q = r
    · subst hq
      simp
      split <;> omega
    · simp [hq]
      omega

/-- Reserving a register takes at most one away: a register occurs in the pool at most once, and
not at all if it lies outside. -/
theorem free_le_reserve (sc : Scratch) (r : Reg) : sc.free ≤ (sc.reserve r).free + 1 := by
  have hcount : pool.count r ≤ 1 := by
    revert r
    decide
  have h := countP_le_countP_add_count (fun q => !sc.inUse q) r pool
  simp only [free, inUse_reserve, Bool.not_or]
  omega

/-- A register that is claimed is one of the pool and was free, and it is then in use. -/
theorem claim?_eq_some {sc sc' : Scratch} {r : Reg} (h : sc.claim? = some (r, sc')) :
    r ∈ pool ∧ sc.inUse r = false ∧ sc' = sc.reserve r := by
  unfold claim? at h
  obtain ⟨q, hfind, heq⟩ := Option.map_eq_some_iff.1 h
  cases heq
  exact ⟨List.mem_of_find?_eq_some hfind, by simpa using List.find?_some hfind, rfl⟩

/-- A free register of the pool is neither one in use nor one outside the pool. -/
theorem ne_of_free {sc : Scratch} {r q : Reg} (hr : r ∈ pool) (hfree : sc.inUse r = false)
    (hq : sc.inUse q = true ∨ q ∉ pool) : q ≠ r := by
  rintro rfl
  simp [hr, hfree] at hq

/-- No register can be claimed only when none is free. -/
theorem free_of_claim?_eq_none {sc : Scratch} (h : sc.claim? = none) : sc.free = 0 := by
  unfold claim? at h
  rw [Option.map_eq_none_iff, List.find?_eq_none] at h
  exact List.countP_eq_zero.2 h

end Scratch

/-! ## Failures of lowering -/

/-- The failures of lowering that uses guest registers `regs` and at most `n` scratch registers at
once: a register that is not mapped, or too few free scratch registers. -/
def Refused (regs : List Guest.Register) (n : Nat) (sc : Scratch) (f : Failure) : Prop :=
  (∃ r ∈ regs, ¬ r.Mapped ∧ f = .of .unmapped (.unmappedRegister r)) ∨
    (sc.free < n ∧ f = .of .resourceExhaustion (.scratchInUse Scratch.pool.length))

namespace Refused

variable {regs regs' : List Guest.Register} {n n' : Nat} {sc : Scratch} {f : Failure}

/-- Fewer free registers, or more that are needed, and more guest registers. -/
theorem lift {sc' : Scratch} (h : Refused regs n sc' f) (hregs : ∀ r ∈ regs, r ∈ regs')
    (hfree : sc'.free < n → sc.free < n') : Refused regs' n' sc f := by
  obtain ⟨r, hr, hf⟩ | ⟨hlt, hf⟩ := h
  · exact .inl ⟨r, hregs r hr, hf⟩
  · exact .inr ⟨hfree hlt, hf⟩

/-- A failure with fewer guest registers and fewer scratch registers needed is one with more. -/
theorem mono (h : Refused regs n sc f) (hregs : ∀ r ∈ regs, r ∈ regs') (hn : n ≤ n') :
    Refused regs' n' sc f :=
  h.lift hregs fun hfree => by omega

/-- A register more in use is one more that is needed. -/
theorem reserve {r : Reg} (h : Refused regs n (sc.reserve r) f) : Refused regs (n + 1) sc f := by
  obtain h | ⟨hfree, hf⟩ := h
  · exact .inl h
  · have := sc.free_le_reserve r
    exact .inr ⟨by omega, hf⟩

end Refused

/-! ## Emissions around code -/

namespace Emission

variable (e : Emission) (r : Reg)

/-- The emission with a register marked as in use. -/
def reserve : Emission :=
  { e with scratch := e.scratch.reserve r }

/-- The emission with a register marked as free. -/
def release : Emission :=
  { e with scratch := e.scratch.release r }

/-- Marking a register as in use leaves the code as it is. -/
@[simp] theorem code_reserve : (e.reserve r).code = e.code := rfl

/-- The registers in use after one more is marked. -/
@[simp] theorem scratch_reserve : (e.reserve r).scratch = e.scratch.reserve r := rfl

/-- Marking a register as in use says nothing about whether the line goes on. -/
@[simp] theorem goesOn_reserve : (e.reserve r).goesOn = e.goesOn := rfl

/-- Marking a register as free leaves the code as it is. -/
@[simp] theorem code_release : (e.release r).code = e.code := rfl

/-- The registers in use after one is marked as free. -/
@[simp] theorem scratch_release : (e.release r).scratch = e.scratch.release r := rfl

/-- Marking a register as free says nothing about whether the line goes on. -/
@[simp] theorem goesOn_release : (e.release r).goesOn = e.goesOn := rfl

end Emission

/-- The emission has at most `n` items more than before and the given registers in use. -/
structure Adds (n : Nat) (sc : Scratch) (e e' : Emission) : Prop where
  scratch : e'.scratch = sc
  goesOn : e'.goesOn = e.goesOn
  length : e'.code.length ≤ e.code.length + n

/-- Code behind code: the items add up, and the registers in use are those of the second part. -/
theorem Adds.trans {n m : Nat} {sc sc' : Scratch} {e e' e'' : Emission} (h : Adds n sc e e')
    (h' : Adds m sc' e' e'') : Adds (n + m) sc' e e'' where
  scratch := h'.scratch
  goesOn := h'.goesOn.trans h.goesOn
  length := by
    have := h.length
    have := h'.length
    omega

/-- Code of at most some length is of at most any greater length. -/
theorem Adds.mono {n m : Nat} {sc : Scratch} {e e' : Emission} (h : Adds n sc e e') (hle : n ≤ m) :
    Adds m sc e e' where
  scratch := h.scratch
  goesOn := h.goesOn
  length := by
    have := h.length
    omega

/-- Adding no code. -/
theorem Adds.refl (e : Emission) : Adds 0 e.scratch e e :=
  ⟨rfl, rfl, Nat.le_refl _⟩

/-- Adding one instruction. -/
theorem Adds.emit (e : Emission) (i : Inst) : Adds 1 e.scratch e (e.add i) :=
  ⟨rfl, rfl, by simp⟩

/-! ## Host states -/

end Lower

namespace Host.State

/-- The guest state that a host state holds. -/
def guest (s : State) : Guest.State :=
  { registers := s.cells, memory := s.memory }

variable (s : State) (r q : Reg) (v : Word) (f : Flags)

/-- Replacing a host register leaves the guest as it is. -/
@[simp] theorem guest_setReg : (s.setReg r v).guest = s.guest := rfl

/-- Replacing the host flags leaves the guest as it is. -/
@[simp] theorem guest_setFlags : (s.setFlags f).guest = s.guest := rfl

/-- Replacing a host register leaves the host flags as they are. -/
@[simp] theorem flags_setReg : (s.setReg r v).flags = s.flags := rfl

/-- The host flags after they are replaced. -/
@[simp] theorem flags_setFlags : (s.setFlags f).flags = f := rfl

/-- Replacing the host flags leaves the host registers as they are. -/
@[simp] theorem reg_setFlags : (s.setFlags f).reg q = s.reg q := rfl

end Host.State

namespace Lower

/-- The states agree on the registers in use and on those outside the pool. -/
def Held (sc : Scratch) (s t : State) : Prop :=
  ∀ r, sc.inUse r = true ∨ r ∉ Scratch.pool → t.reg r = s.reg r

namespace Held

variable {sc sc' : Scratch} {s t u : State} {r : Reg}

/-- A state agrees with itself. -/
theorem refl (sc : Scratch) (s : State) : Held sc s s :=
  fun _ _ => rfl

/-- Agreement is transitive: what two stretches of code each leave alone, both together leave
alone. -/
theorem trans (h : Held sc s t) (h' : Held sc t u) : Held sc s u :=
  fun r hr => (h' r hr).trans (h r hr)

/-- States that agree on more registers in use agree on fewer. -/
theorem mono (h : Held sc' s t) (hsc : ∀ r, sc.inUse r = true → sc'.inUse r = true) :
    Held sc s t :=
  fun r hr => h r (hr.imp_left (hsc r))

/-- States that agree while a register is in use agree on the others when it is free again. -/
theorem release (h : Held sc s t) (r : Reg) : Held (sc.release r) s t :=
  h.mono fun q hq => by
    rw [Scratch.inUse_release, Bool.and_eq_true] at hq
    exact hq.1

/-- **Code that changes one register only**, a free one of the pool, keeps the agreement. -/
theorem of_others (hr : r ∈ Scratch.pool) (hfree : sc.inUse r = false)
    (h : ∀ q, q ≠ r → t.reg q = s.reg q) : Held sc s t :=
  fun q hq => h q (Scratch.ne_of_free hr hfree hq)

/-- **Replacing a free register of the pool** keeps the agreement. It is this that lets code work
in the registers it has claimed. -/
theorem setReg (h : Held sc s t) (hr : r ∈ Scratch.pool) (hfree : sc.inUse r = false) (v : Word) :
    Held sc s (t.setReg r v) :=
  h.trans (of_others hr hfree fun q hq => by simp [hq])

/-- Replacing the host flags keeps the agreement: flags are not registers. -/
theorem setFlags (h : Held sc s t) (f : Host.Flags) : Held sc s (t.setFlags f) := h

end Held

/-! ## Claiming registers -/

variable {α : Type} {e : Emission} {R : α → Emission → Meaning → Prop} {X : Failure → Prop}
variable {Q : α → Emission → List Code.Piece → Prop}

/-- **Claiming a register** gives one that was free, and fails only when none is.

**Proof sketch.** Claiming emits no code. It looks for the first register of the pool that is
free, and fails if the number of free ones is zero. -/
theorem Emits.claim_bind {k : Reg → Emit α}
    (h : ∀ r ∈ Scratch.pool, e.scratch.inUse r = false → Emits (k r) (e.reserve r) Q X)
    (hX : ∀ f, Refused [] 1 e.scratch f → X f) : Emits (claim >>= k) e Q X := by
  refine .bind (Q := fun r e' P => r ∈ Scratch.pool ∧ e.scratch.inUse r = false ∧
    e' = e.reserve r ∧ P = []) ?_ ?_
  · unfold Emits
    cases hclaim : e.scratch.claim? with
    | none =>
      have hrun : claim.runOn e =
          (.error (.of .resourceExhaustion (.scratchInUse Scratch.pool.length)), e) := by
        simp [Emit.runOn, claim, StateT.run, hclaim]
      have hfree := Scratch.free_of_claim?_eq_none hclaim
      rw [hrun]
      exact hX _ (.inr ⟨by omega, rfl⟩)
    | some claimed =>
      obtain ⟨r, sc⟩ := claimed
      have hrun : claim.runOn e = (.ok r, { e with scratch := sc }) := by
        simp [Emit.runOn, claim, StateT.run, hclaim]
      obtain ⟨hr, hfree, rfl⟩ := Scratch.claim?_eq_some hclaim
      rw [hrun]
      exact ⟨[], .refl _, hr, hfree, rfl, rfl⟩
  · rintro r _ _ ⟨hr, hfree, rfl, rfl⟩
    exact h r hr hfree

/-- Code that holds a scratch register for its own duration. Behind it the register is free
again, whether the code could be emitted or not. -/
theorem Emits.withScratch {body : Reg → Emit α}
    (h : ∀ r ∈ Scratch.pool, e.scratch.inUse r = false →
      Emits (body r) (e.reserve r) (fun a e' P => Q a (e'.release r) P) X)
    (hX : ∀ f, Refused [] 1 e.scratch f → X f) : Emits (withScratch body) e Q X :=
  .claim_bind (fun r hr hfree => .andAlways (fun _ => rfl) (h r hr hfree)) hX

/-- Code that holds a scratch register for its own duration and ends with a branch to an open
label. -/
theorem Forks.withScratch {label : Nat} {S : Emission → List Code.Piece → Host.Cond → Prop}
    {body : Reg → Emit Unit}
    (h : ∀ r ∈ Scratch.pool, e.scratch.inUse r = false →
      Forks (body r) label (e.reserve r) (fun e' P c => S (e'.release r) P c) X)
    (hX : ∀ f, Refused [] 1 e.scratch f → X f) : Forks (withScratch body) label e S X := by
  refine .bind (Q := fun r e' P => r ∈ Scratch.pool ∧ e.scratch.inUse r = false ∧
    e' = e.reserve r ∧ P = []) ?_ ?_
  · rw [← bind_pure claim]
    exact .claim_bind (fun r hr hfree => .pure ⟨hr, hfree, rfl, rfl⟩) hX
  · rintro r _ _ ⟨hr, hfree, rfl, rfl⟩
    exact .andAlways (fun _ => rfl) (h r hr hfree)

/-- **Claiming a register** adds no code: what follows is emitted with the register in use. -/
theorem Lowers.claim_bind {k : Reg → Emit α}
    (h : ∀ r ∈ Scratch.pool, e.scratch.inUse r = false →
      Lowers (k r) (e.reserve r) R X)
    (hX : ∀ f, Refused [] 1 e.scratch f → X f) : Lowers (claim >>= k) e R X :=
  lowers_iff.2 (.claim_bind (fun r hr hfree => lowers_iff.1 (h r hr hfree)) hX)

/-- Marking a register as in use adds no code. -/
theorem Lowers.reserve_bind {r : Reg} {k : Unit → Emit α}
    (h : Lowers (k ()) (e.reserve r) R X) : Lowers (reserve r >>= k) e R X :=
  .update_bind rfl h

/-- Marking a register as free adds no code. -/
theorem Lowers.release {r : Reg} {R : Unit → Emission → Meaning → Prop}
    (h : R () (e.release r) Walked.fell) : Lowers (Lower.release r) e R X :=
  .update rfl h

/-- Marking a register as free, and going on. -/
theorem Lowers.release_bind {r : Reg} {k : Unit → Emit α}
    (h : Lowers (k ()) (e.release r) R X) : Lowers (Lower.release r >>= k) e R X :=
  .update_bind rfl h

/-- **Code that holds a scratch register for its own duration.** -/
theorem Lowers.withScratch {body : Reg → Emit α}
    (h : ∀ r ∈ Scratch.pool, e.scratch.inUse r = false →
      Lowers (body r) (e.reserve r)
        (fun a e' w => R a (e'.release r) w) X)
    (hX : ∀ f, Refused [] 1 e.scratch f → X f) : Lowers (withScratch body) e R X :=
  .claim_bind (fun r hr hfree => .andAlways (fun _ => rfl) (h r hr hfree)) hX

/-- Code that holds a scratch register for its own duration and ends with a branch to an open
label, by its meaning. -/
theorem Branches.withScratch {label : Nat} {S : Emission → Meaning → Host.Cond → Prop}
    {body : Reg → Emit Unit}
    (h : ∀ r ∈ Scratch.pool, e.scratch.inUse r = false →
      Branches (body r) label (e.reserve r)
        (fun e' w c => S (e'.release r) w c) X)
    (hX : ∀ f, Refused [] 1 e.scratch f → X f) : Branches (withScratch body) label e S X :=
  branches_iff.2 (.withScratch (fun r hr hfree => branches_iff.1 (h r hr hfree)) hX)

end Lower

end Dynarec
