import Dynarec.Engine.Block
import Dynarec.Proofs.Host.Trace
import Dynarec.Proofs.Memory

/-!
# Guest memory under the host machine

Host code reaches guest memory by host addresses alone. It replaces bytes, but it neither moves the
region nor looks at the limit below which guest stores are refused: run under another limit it does
the same.

## Main definitions

* `Dynarec.Host.State.limited` — the same state under another limit on guest memory.

## Main results

* `Dynarec.Host.run_alike` — running a program leaves guest memory at its place.
* `Dynarec.Engine.callCode_limited` — code that is called does not look at the limit.
-/

set_option autoImplicit false

namespace Dynarec

namespace Host

variable {s t : State} {i : Inst}

/-! ## The place of guest memory -/

/-- A store of the host leaves memory where it is. -/
theorem State.store_alike {a v : Word} {n : Nat} (h : s.store a n v = some t) :
    s.memory.Alike t.memory := by
  unfold State.store at h
  split at h
  · split at h
    · cases h
      exact .refl _
    · cases h
  · obtain ⟨i, -, rfl⟩ := Option.map_eq_some_iff.1 h
    exact .setBytesAt ..

/-- No instruction moves guest memory or its limit. -/
theorem Inst.step_alike (h : i.step s = some t) : s.memory.Alike t.memory := by
  obtain ⟨a, n, v, -, -, hstore⟩ | ⟨-, hreplaced⟩ := Inst.step_cases h
  · exact State.store_alike hstore
  · generalize i.target? = target at hreplaced
    cases hreplaced with
    | flags f => exact .refl _
    | reg r v f => exact .refl _

/-- A run of host code leaves memory where it is, however many steps it takes.

**Proof sketch.** By induction on the fuel. An instruction leaves memory where it is
(`Inst.step_alike`), and a jump does not touch it. -/
theorem exec_alike {program : Program} {fuel : Nat} {rest : List Step}
    (h : exec program fuel rest s = .returned t) : s.memory.Alike t.memory := by
  induction fuel generalizing rest s with
  | zero => cases h
  | succ fuel ih =>
    cases rest with
    | nil => cases h
    | cons step rest =>
      cases step with
      | inst i =>
        rw [exec] at h
        split at h
        · cases h
        · rename_i u hstep
          split at h
          · cases h
            exact Inst.step_alike hstep
          · exact (Inst.step_alike hstep).trans (ih h)
      | jump cond target =>
        rw [exec] at h
        split at h
        · exact ih h
        · exact ih h

/-- **Running a program** leaves guest memory at its place, under its limit. -/
theorem run_alike {program : Program} (h : program.run s = .returned t) :
    s.memory.Alike t.memory :=
  exec_alike h

/-! ## Other limits -/

/-- The state with another limit on guest memory. -/
def State.limited (s : State) (w : Word) : State :=
  { s with memory := s.memory.limited w }

/-- The outcome with another limit on guest memory. -/
def Outcome.limited (w : Word) : Outcome → Outcome
  | .returned s => .returned (s.limited w)
  | .ended s => .ended (s.limited w)
  | .trapped => .trapped
  | .running => .running

section Limited

variable (s : State) (w : Word)

/-- Host registers have nothing to do with the limit of guest memory. -/
@[simp] theorem State.reg_limited (r : Reg) : (s.limited w).reg r = s.reg r := rfl

/-- Host flags have nothing to do with the limit of guest memory. -/
@[simp] theorem State.flags_limited : (s.limited w).flags = s.flags := rfl

/-- A register can be set before or after the limit. -/
@[simp] theorem State.setReg_limited (r : Reg) (v : Word) :
    (s.limited w).setReg r v = (s.setReg r v).limited w := rfl

/-- The flags can be set before or after the limit. -/
@[simp] theorem State.setFlags_limited (f : Flags) :
    (s.limited w).setFlags f = (s.setFlags f).limited w := rfl

/-- Addresses are formed from registers, so the limit does not matter for them. -/
@[simp] theorem State.address_limited (base : Reg) (disp : BitVec 32) :
    (s.limited w).address base disp = s.address base disp := rfl

/-- The host stores without asking for the limit of guest memory: it is the code that compares
addresses with it. -/
@[simp] theorem State.store_limited (a v : Word) (n : Nat) :
    (s.limited w).store a n v = (s.store a n v).map fun t => t.limited w := by
  unfold State.store
  cases Cell.ofAddress? a with
  | some c =>
    dsimp only
    split <;> rfl
  | none =>
    show ((s.memoryIndex? a n).map fun i => _) = ((s.memoryIndex? a n).map fun i => _).map _
    rw [Option.map_map]
    rfl

/-- Operations on registers do the same whatever the limit is. -/
@[simp] theorem State.alu_limited (op : AluOp) (width : Int) (dst : Reg) (x y : Word) :
    (s.limited w).alu op width dst x y = (s.alu op width dst x y).map fun t => t.limited w := by
  unfold State.alu
  rw [flags_limited]
  split
  · rcases op.apply s.flags x y with _ | ⟨_ | r, f⟩ <;> rfl
  · split
    · rcases op.apply s.flags (x.setWidth 32) (y.setWidth 32) with _ | ⟨_ | r, f⟩ <;> rfl
    · rfl

/-- Shifts do the same whatever the limit is. -/
@[simp] theorem State.shift_limited (op : ShiftOp) (width : Int) (dst : Reg) (n : Nat) :
    (s.limited w).shift op width dst n = (s.shift op width dst n).map fun t => t.limited w := by
  unfold State.shift
  rw [flags_limited, reg_limited]
  split
  · rw [Option.map_map]
    rfl
  · split
    · rw [Option.map_map]
      rfl
    · rfl

/-- No instruction looks at the limit on guest memory.

**Proof sketch.** One case for each instruction. Loads and stores find their bytes by the
place of memory, and the rest works on registers and flags. -/
theorem Inst.step_limited (i : Inst) :
    i.step (s.limited w) = (i.step s).map fun t => t.limited w := by
  cases i with
  | load dst base disp size =>
    simp only [Inst.step, State.address_limited, State.setReg_limited]
    cases accessBytes? size with
    | none => rfl
    | some n =>
      rw [Option.bind_eq_bind, Option.bind_some, Option.bind_eq_bind, Option.bind_some,
        Option.map_bind]
      rfl
  | store base disp src size =>
    simp only [Inst.step, State.address_limited, State.reg_limited, State.store_limited]
    cases accessBytes? size <;> rfl
  | storeImm base disp imm => simp [Inst.step]
  | alu op width dst src | aluImm op width dst imm => simp [Inst.step]
  | shift op width dst amount => simp [Inst.step]
  | mov width dst src | test width x y =>
    simp only [Inst.step, State.reg_limited, State.flags_limited, State.setReg_limited,
      State.setFlags_limited]
    split
    · rfl
    · split <;> rfl
  | movImm | movAbs | setcc | movzx16 | bt | lahf | ret | nop => rfl

/-- **Host code under another limit** does the same and ends in the same state but for the limit.

**Proof sketch.** By induction on the number of steps: no instruction reads the limit
(`step_limited`). What a limit does to a block it does when the block is compiled. -/
theorem exec_limited (program : Program) (fuel : Nat) (rest : List Step) :
    exec program fuel rest (s.limited w) = (exec program fuel rest s).limited w := by
  induction fuel generalizing rest s with
  | zero => rfl
  | succ fuel ih =>
    cases rest with
    | nil => rfl
    | cons step rest =>
      cases step with
      | inst i =>
        rw [exec, exec, Inst.step_limited]
        cases i.step s with
        | none => rfl
        | some t =>
          dsimp only [Option.map_some]
          split
          · rfl
          · exact ih t rest
      | jump cond target =>
        rw [exec, exec, State.flags_limited]
        split
        · exact ih s _
        · exact ih s _

end Limited

end Host

/-! ## Calls -/

namespace Engine

variable {program : Host.Program} {registers : Registers} {memory : Memory}

/-- Code that is called leaves guest memory at its place, under its limit. -/
theorem callCode_alike {r : Returned} (h : callCode program registers memory = some r) :
    memory.Alike r.memory := by
  unfold callCode at h
  split at h
  · rename_i s hrun
    cases h
    exact Host.run_alike hrun
  · cases h

/-- **Code that is called** does not look at the limit on guest memory. -/
theorem callCode_limited (w : Word) :
    callCode program registers (memory.limited w) =
      (callCode program registers memory).map fun r =>
        { r with memory := r.memory.limited w } := by
  have hrun : program.run (entryState registers (memory.limited w)) =
      (program.run (entryState registers memory)).limited w :=
    Host.exec_limited (entryState registers memory) w program _ program
  unfold callCode
  rw [hrun]
  cases program.run (entryState registers memory) <;> rfl

end Engine

end Dynarec
