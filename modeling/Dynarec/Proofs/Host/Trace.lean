import Dynarec.Host.Machine

/-!
# What running code writes

An instruction replaces at most one register and writes at most one stretch of bytes. A run is
described by the instructions it runs, each with the state it runs in; what none of them replaces
keeps its value throughout.

## Main definitions

* `Dynarec.Host.Inst.target?`, `Dynarec.Host.Inst.written?` — the register that an instruction
  replaces, and the bytes that it writes.
* `Dynarec.Host.Program.trace` — the instructions that a run runs.

## Main results

* `Dynarec.Host.Inst.step_cases` — an instruction changes nothing else.
* `Dynarec.Host.Program.run_holds` — a register that no instruction of a run replaces, returning
  aside, keeps its value.
-/

set_option autoImplicit false

namespace Dynarec.Host

variable {s t : State} {r : Reg}

/-! ## Single instructions -/

/-- The register that an instruction replaces. -/
def Inst.target? : Inst → Option Reg
  | mov _ dst _ | movImm dst _ | movAbs dst _ | load dst _ _ _ | shift _ _ dst _ | setcc _ dst
  | movzx16 dst _ => some dst
  | alu op _ dst _ | aluImm op _ dst _ => if op = .cmp then none else some dst
  | lahf => some .rax
  | ret => some .rsp
  | store _ _ _ _ | storeImm _ _ _ | test _ _ _ | bt _ _ | nop => none

/-- The host address and the number of the bytes that an instruction writes. -/
def Inst.written? (s : State) : Inst → Option (Word × Nat)
  | store base disp _ size => (accessBytes? size).map fun n => (s.address base disp, n)
  | storeImm base disp _ => some (s.address base disp, 8)
  | _ => none

/-- The state with other flags and, if there is a target, with another value in it. -/
inductive Replaced (s : State) : Option Reg → State → Prop where
  | flags (f : Flags) : Replaced s none (s.setFlags f)
  | reg (r : Reg) (v : Word) (f : Flags) : Replaced s (some r) ((s.setReg r v).setFlags f)

/-- An operation replaces its first operand, or no register if it is a compare.

**Proof sketch.** An operation gives a result for its first operand unless it is a compare,
in either width. -/
theorem State.alu_replaced {op : AluOp} {width : Int} {dst : Reg} {x y : Word}
    (h : s.alu op width dst x y = some t) :
    Replaced s (if op = .cmp then none else some dst) t := by
  have hcmp : ∀ {w : Nat} {f f' : Flags} {u v : BitVec w} {z : Option (BitVec w)},
      op.apply f u v = some (z, f') → (op = .cmp ↔ z = none) := by
    intro w f f' u v z happly
    cases op <;> cases happly <;> simp
  unfold State.alu at h
  split at h
  · split at h <;> rename_i happly <;> cases h <;> simp only [hcmp happly]
    · exact .reg ..
    · exact .flags ..
  · split at h
    · split at h <;> rename_i happly <;> cases h <;> simp only [hcmp happly]
      · exact .reg ..
      · exact .flags ..
    · cases h

/-- A shift replaces its operand. -/
theorem State.shift_replaced {op : ShiftOp} {width : Int} {dst : Reg} {n : Nat}
    (h : s.shift op width dst n = some t) : Replaced s (some dst) t := by
  unfold State.shift at h
  split at h
  · obtain ⟨p, -, rfl⟩ := Option.map_eq_some_iff.1 h
    exact .reg ..
  · split at h
    · obtain ⟨p, -, rfl⟩ := Option.map_eq_some_iff.1 h
      exact .reg ..
    · cases h

/-- **What an instruction does**: it writes some bytes and changes nothing else, or it writes none
and replaces its target.

**Proof sketch.** One case for each instruction: two of them store, and each other writes one
register or the flags. -/
theorem Inst.step_cases {i : Inst} (h : i.step s = some t) :
    (∃ a n v, i.written? s = some (a, n) ∧ i.target? = none ∧ s.store a n v = some t) ∨
      (i.written? s = none ∧ Replaced s i.target? t) := by
  cases i with
  | store base disp src size =>
    simp only [Inst.step, Option.bind_eq_bind, Option.bind_eq_some_iff] at h
    obtain ⟨n, hn, h⟩ := h
    exact .inl ⟨_, n, _, by simp [written?, hn], rfl, h⟩
  | storeImm base disp imm => exact .inl ⟨_, 8, _, rfl, rfl, h⟩
  | load dst base disp size =>
    simp only [Inst.step, Option.bind_eq_bind, Option.bind_eq_some_iff] at h
    obtain ⟨n, -, v, -, h⟩ := h
    cases h
    exact .inr ⟨rfl, .reg ..⟩
  | alu op width dst src | aluImm op width dst imm => exact .inr ⟨rfl, State.alu_replaced h⟩
  | shift op width dst amount => exact .inr ⟨rfl, State.shift_replaced h⟩
  | mov width dst src =>
    simp only [Inst.step] at h
    split at h
    · cases h
      exact .inr ⟨rfl, .reg ..⟩
    · split at h <;> cases h
      exact .inr ⟨rfl, .reg ..⟩
  | test width x y =>
    simp only [Inst.step] at h
    split at h
    · cases h
      exact .inr ⟨rfl, .flags ..⟩
    · split at h <;> cases h
      exact .inr ⟨rfl, .flags ..⟩
  | movImm | movAbs | setcc | movzx16 | lahf | ret =>
    cases h
    exact .inr ⟨rfl, .reg ..⟩
  | bt | nop =>
    cases h
    exact .inr ⟨rfl, .flags ..⟩

/-- A store leaves the registers alone. -/
theorem State.reg_store {a v : Word} {n : Nat} (h : s.store a n v = some t) (r : Reg) :
    t.reg r = s.reg r := by
  unfold State.store at h
  split at h
  · split at h <;> cases h
    rfl
  · obtain ⟨i, -, rfl⟩ := Option.map_eq_some_iff.1 h
    rfl

/-- An instruction replaces its target, and no other register. -/
theorem Inst.reg_step {i : Inst} (h : i.step s = some t) (hr : i.target? ≠ some r) :
    t.reg r = s.reg r := by
  obtain ⟨a, n, v, -, -, hstore⟩ | ⟨-, hreplaced⟩ := Inst.step_cases h
  · exact State.reg_store hstore r
  · generalize i.target? = target at hr hreplaced
    cases hreplaced with
    | flags f => rfl
    | reg q v f =>
      have hne : r ≠ q := by
        rintro rfl
        exact hr rfl
      show (s.setReg q v).reg r = s.reg r
      rw [State.reg_setReg, if_neg hne]

/-! ## Runs -/

/-- The instructions that executing the rest of a program runs, each with the state it runs in. -/
def trace (program : Program) : Nat → List Step → State → List (Inst × State)
  | 0, _, _ => []
  | _ + 1, [], _ => []
  | fuel + 1, .inst i :: rest, s =>
    (i, s) ::
      match i.step s with
      | none => []
      | some t => if i = .ret then [] else trace program fuel rest t
  | fuel + 1, .jump cond target :: rest, s =>
    if cond.holds s.flags then trace program fuel (program.drop target) s
    else trace program fuel rest s

/-- The instructions that running a program from its start runs. -/
def Program.trace (program : Program) (s : State) : List (Inst × State) :=
  Host.trace program (program.length + 1) program s

/-- A register has a value before every instruction of a run and, up to the return address that
returning pops off the stack, behind it. -/
structure Holds (r : Reg) (v : Word) (ran : List (Inst × State)) (outcome : Outcome) : Prop where
  before : ∀ i u, (i, u) ∈ ran → u.reg r = v
  ended : ∀ t, outcome = .ended t → t.reg r = v
  returned : ∀ t, outcome = .returned t → t.reg r = if r = .rsp then v + 8 else v

/-- A register that only returning replaces is held.

**Proof sketch.** Induction on the fuel. No instruction but the last can be a return, and the other
ones leave the register alone. -/
theorem exec_holds {program : Program} {fuel : Nat} {rest : List Step}
    (h : ∀ i u, (i, u) ∈ trace program fuel rest s → i.target? = some r → i = .ret) :
    Holds r (s.reg r) (trace program fuel rest s) (exec program fuel rest s) := by
  induction fuel generalizing rest s with
  | zero => exact ⟨by simp [trace], by simp [exec], by simp [exec]⟩
  | succ fuel ih =>
    cases rest with
    | nil => exact ⟨by simp [trace], by simp [exec], by simp [exec]⟩
    | cons step rest =>
      cases step with
      | inst i =>
        rw [trace] at h ⊢
        rw [exec]
        cases hstep : i.step s with
        | none => exact ⟨by simp, by simp, by simp⟩
        | some t =>
          by_cases hi : i = .ret
          · subst hi
            cases hstep
            refine ⟨by simp, by simp, ?_⟩
            by_cases hr : r = .rsp <;> simp [hr]
          · simp only [hstep, hi, if_false] at h ⊢
            have hkeep : t.reg r = s.reg r :=
              Inst.reg_step hstep fun htarget => hi (h i s List.mem_cons_self htarget)
            obtain ⟨hbefore, hended, hreturned⟩ :=
              ih fun j u hmem => h j u (List.mem_cons_of_mem _ hmem)
            rw [hkeep] at hbefore hended hreturned
            refine ⟨?_, hended, hreturned⟩
            rintro j u hmem
            cases hmem with
            | head => rfl
            | tail _ hmem => exact hbefore j u hmem
      | jump cond target =>
        rw [trace] at h ⊢
        rw [exec]
        split at h
        · rename_i hholds
          rw [if_pos hholds, if_pos hholds]
          exact ih h
        · rename_i hholds
          rw [if_neg hholds, if_neg hholds]
          exact ih h

/-- **A register that only returning replaces** is held throughout a run. -/
theorem Program.run_holds {program : Program}
    (h : ∀ i u, (i, u) ∈ program.trace s → i.target? = some r → i = .ret) :
    Holds r (s.reg r) (program.trace s) (program.run s) :=
  exec_holds h

end Dynarec.Host
