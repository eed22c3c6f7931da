import Dynarec.Proofs.Code.Assemble
import Dynarec.Proofs.Engine.Transfer

/-!
# Branches and leaving

The code that tests a guest condition has one branch, at its end. In finished code, wherever its
label is bound and whatever stands around it, running goes on at the label if the condition holds
for the flag cell and behind the code otherwise, and the guest is as it was. So a conditional branch
leaves the block exactly when its condition holds, and branches and returns always leave.

## Main definitions

* `Dynarec.Code.Builder.step?` — the step that an item becomes in finished code.
* `Dynarec.Lower.BranchesWhen` — code that goes to a label exactly when a condition holds.
* `Dynarec.Guest.Leaving` — an instruction that leaves the block: when, and with what.

## Main results

* `Dynarec.Lower.branchIf_branchesWhen` — the code that tests a guest condition.
* `Dynarec.Engine.Trial.emitted_leaves` — the code of branches and returns.
-/

set_option autoImplicit false

namespace Dynarec

/-! ## Steps of finished code -/

namespace Code.Builder

variable {b b' final : Builder} {code : Assembled}

/-- The step that an item becomes in finished code, if its label is bound. -/
def step? (b : Builder) : Item → Option Host.Step
  | .inst i => some (.inst i)
  | .branch cond label => (b.position? label).map (.jump cond)

/-- An item that is resolved does what its chunk does. -/
theorem step?_of_resolve {i : Nat} {item : Item} {chunk : Chunk}
    (h : b.resolve i item = .ok chunk) : b.step? item = some chunk.step := by
  cases item with
  | inst x =>
    simp only [resolve] at h
    split at h
    · cases h
      rfl
    · cases h
  | branch cond label =>
    simp only [resolve] at h
    split at h
    · rename_i hposition
      cases h
      simp [step?, hposition, Chunk.step]
    · cases h

/-- Items that are resolved do what their chunks do, one by one. -/
theorem steps_of_resolveFrom {i : Nat} {its : List Item} {chunks : List Chunk}
    (h : b.resolveFrom i its = .ok chunks) :
    its.map b.step? = (chunks.map Chunk.step).map some := by
  induction its generalizing i chunks with
  | nil =>
    cases h
    rfl
  | cons item its ih =>
    obtain ⟨chunk, hchunk, h⟩ := bind_eq_ok_iff.1 h
    obtain ⟨more, hmore, h⟩ := bind_eq_ok_iff.1 h
    cases h
    simp [step?_of_resolve hchunk, ih hmore]

/-- The steps of finished code are those of its items. -/
theorem steps_of_assemble (h : b.assemble = .ok code) :
    b.items.toList.map b.step? = code.program.map some := by
  unfold assemble at h
  split at h
  · cases h
  · obtain ⟨chunks, hchunks, h⟩ := bind_eq_ok_iff.1 h
    obtain ⟨bytes, -, h⟩ := bind_eq_ok_iff.1 h
    cases h
    rw [steps_of_resolveFrom hchunks, Assembled.program, map_step_relax]

/-- The steps at the place of items that were added between two builders.

**Proof sketch.** The steps of a program are those of the items, one by one
(`steps_of_assemble`). So what is left of the program behind the first items is the steps of the
items added, and then those of what follows. -/
theorem drop_program {its : List Item} {steps : List Host.Step}
    (hits : b'.items.toList = b.items.toList ++ its)
    (hfinal : b'.items.toList <+: final.items.toList) (hcode : final.assemble = .ok code)
    (hsteps : its.map final.step? = steps.map some) :
    code.program.drop b.length = steps ++ code.program.drop b'.length := by
  obtain ⟨more, hmore⟩ := hfinal
  have hprogram : b.items.toList.map final.step? ++ (steps.map some ++ more.map final.step?) =
      code.program.map some := by
    rw [← steps_of_assemble hcode, ← hmore, hits, List.map_append, List.map_append, hsteps,
      List.append_assoc]
  have hlength : b'.length = b.length + steps.length := by
    have hsame := congrArg List.length hsteps
    simp only [List.length_map] at hsame
    rw [length_eq, hits, List.length_append, hsame, length_eq]
  have hdrop : (code.program.drop b.length).map some =
      steps.map some ++ more.map final.step? := by
    rw [List.map_drop, ← hprogram, List.drop_left' (by simp [length_eq])]
  have hrest : (code.program.drop b'.length).map some = more.map final.step? := by
    rw [hlength, ← List.drop_drop, List.map_drop, hdrop, List.drop_left' (by simp)]
  apply (List.map_inj_right fun _ _ => Option.some.inj).1
  rw [hdrop, List.map_append, hrest]

/-- Items that stand for instructions become those instructions. -/
theorem steps_of_spells {bound : Nat → Option Nat} {insts : List Host.Inst} {i : Nat}
    {its : List Item} (h : Spells bound i its (insts.map .inst)) :
    its.map b.step? = (insts.map Host.Step.inst).map some := by
  induction insts generalizing i its with
  | nil =>
    cases h
    rfl
  | cons x insts ih =>
    cases h with
    | inst h => simp [step?, ih h]

end Code.Builder

/-- Running instructions one after another.

**Proof sketch.** By induction on the instructions: each takes one unit of fuel and none
returns, for the walk falls through. -/
theorem Host.exec_insts (program : Host.Program) (fuel : Nat) (rest : List Host.Step)
    (insts : List Host.Inst) {s t : Host.State}
    (h : Code.walk 0 (insts.map .inst) s = .fell t) :
    Host.exec program (insts.length + fuel) (insts.map .inst ++ rest) s =
      Host.exec program fuel rest t := by
  induction insts generalizing s with
  | nil =>
    cases h
    simp
  | cons i insts ih =>
    simp only [List.map_cons, Code.walk] at h
    simp only [List.map_cons, List.cons_append, List.length_cons, Nat.succ_add_eq_add_succ,
      Nat.add_succ, Host.exec]
    cases hstep : i.step s with
    | none => simp [hstep] at h
    | some u =>
      simp only [hstep] at h ⊢
      split at h
      · cases h
      · rename_i hret
        rw [if_neg hret]
        exact ih h

/-! ## Testing a condition -/

/-- Whether a condition holds for the flags in bits 28 to 31 of a cell. -/
def Guest.Condition.holdsIn (cond : Guest.Condition) (cell : Word) : Bool :=
  cond.holds (.ofNibble ((cell >>> 28).setWidth 4))

namespace Lower

open Code (Builder Assembled)

/-- The code between two builders goes to a label exactly when a condition holds. In every finished
code that has it and binds the label, running from its start on comes to the place of the label if
the condition holds for the flag cell, and to the end of that code otherwise, and the guest is as it
was. -/
def BranchesWhen (cond : Guest.Condition) (label : Nat) (b b' : Builder) : Prop :=
  ∀ (final : Builder) (code : Assembled) (target : Nat),
    b'.items.toList <+: final.items.toList → final.assemble = .ok code →
      final.position? label = some target → ∀ (fuel : Nat) (s : Host.State), ∃ t : Host.State,
        t.guest = s.guest ∧
          Host.exec code.program (b'.length - b.length + fuel) (code.program.drop b.length) s =
            Host.exec code.program fuel
              (code.program.drop (if cond.holdsIn s.cells.nzcv then target else b'.length)) t

/-- The code that tests a guest condition has no branch but the one at its end.

**Proof sketch.** Either nothing is tested and the branch is all there is, or one or two
scratch registers are taken and five instructions are emitted in front of the branch. -/
theorem branchIf_straight (cond : Guest.Condition) (label : Nat) (e : Emission) :
    Forks (branchIf cond label) label e (fun _ P _ => ∃ insts : List Host.Inst, P = insts.map .inst)
      fun _ => True := by
  unfold branchIf
  split
  · exact .emitBranch (by decide) ⟨[], rfl⟩
  · refine .withScratch (fun t _ _ => ?_) fun _ _ => trivial
    split
    · unfold loadZero
      simp only [bind_assoc]
      iterate 5 refine .emit_bind ?_
      exact .emitBranch (by split <;> decide) ⟨[_, _, _, _, _], rfl⟩
    · refine .withScratch (fun table _ _ => ?_) fun _ _ => trivial
      iterate 5 refine .emit_bind ?_
      exact .emitBranch (by decide) ⟨[_, _, _, _, _], rfl⟩

/-- **The code that tests a guest condition.**

**Proof sketch.** The code in front of the branch is instructions only (`branchIf_straight`),
which run one after another (`Host.exec_insts`) and leave the guest alone. Behind them the host
condition of the branch holds exactly if the guest condition does (`branchIf_branches`), and then
the program goes on at the target. -/
theorem branchIf_branchesWhen (cond : Guest.Condition) (label : Nat) {e e' : Emission}
    (hrun : (branchIf cond label).runOn e = (.ok (), e')) :
    e'.scratch = e.scratch ∧ BranchesWhen cond label e.code e'.code := by
  obtain ⟨P, b, c, happ, hc, hcode, ⟨hfits, -, hscratch, -, hwalk⟩, insts, rfl⟩ :=
    ((branches_iff.1 (branchIf_branches cond label e)).and (branchIf_straight cond label e)).of_ok
      hrun
  refine ⟨hscratch, fun final code target hfinal hassemble htarget fuel s => ?_⟩
  obtain ⟨its, hits, hspells⟩ := happ.items
  have hitems : e'.code.items.toList = e.code.items.toList ++ (its ++ [.branch c label]) := by
    rw [hcode, Builder.branch_of_le hc, ← List.append_assoc, ← hits, Array.toList_push]
  have hsteps : (its ++ [Code.Item.branch c label]).map final.step? =
      (insts.map Host.Step.inst ++ [Host.Step.jump c target]).map some := by
    rw [List.map_append, Builder.steps_of_spells hspells]
    simp [Builder.step?, htarget]
  have hlength : e'.code.length - e.code.length = insts.length + 1 := by
    have hits' := hspells.length
    rw [Builder.length_eq, hitems, Builder.length_eq]
    simp at hits' ⊢
    omega
  obtain ⟨t, ht, -, hguest, hholds⟩ := hwalk s
  refine ⟨t, hguest, ?_⟩
  rw [Builder.drop_program hitems hfinal hassemble hsteps, hlength, Nat.add_assoc,
    List.append_assoc, Host.exec_insts _ _ _ _ ht, Nat.add_comm 1 fuel, List.singleton_append,
    Host.exec, hholds]
  have hflags : cond.holdsIn s.cells.nzcv = cond.holds s.guest.flags := rfl
  rw [hflags]
  split <;> rfl

end Lower

/-! ## Instructions that leave -/

namespace Guest

/-- An instruction that leaves the block. -/
structure Leaving where
  /-- The condition on which it leaves; none if it always does. -/
  guard : Option Condition
  /-- The exit. -/
  exit : Exit
  /-- The parameter of the exit. -/
  param : Word

/-- Whether the instruction leaves, with this content of the flag cell. -/
def Leaving.Leaves (x : Leaving) (cell : Word) : Prop :=
  ∀ cond, x.guard = some cond → cond.holdsIn cell = true

/-- How an instruction leaves the block, if it is one that may. -/
def Instruction.leaving? (inst : Instruction) : Option Leaving :=
  match inst.op, inst.operands with
  | .b, [.label distance] => some ⟨none, .branch, BitVec.ofInt 64 distance⟩
  | .bcond, [.cond cond, .label distance] => some ⟨some cond, .branch, BitVec.ofInt 64 distance⟩
  | .ret, _ => some ⟨none, .halt, 0⟩
  | _, _ => none

/-- The operations of branches and returns. -/
def leavingOps : List Op := [.b, .bcond, .ret]

/-- Branches and returns use no registers. -/
theorem named_of_leaving? {inst : Instruction} {x : Leaving} (h : inst.leaving? = some x) :
    inst.named = [] := by
  unfold Instruction.leaving? at h
  split at h
  · rename_i hop hoperands
    simp [Instruction.named, hop, hoperands]
  · rename_i hop hoperands
    simp [Instruction.named, hop, hoperands]
  · rename_i hop
    simp [Instruction.named, hop]
  · cases h

/-- **The step of a branch or a return** leaves or goes on, and leaves the guest alone.

**Proof sketch.** Of the instructions that decoding gives only three leave: a branch and a
return always do, and a conditional branch does if its condition holds for the flags that are
read from the cell. -/
theorem State.step_leaving {inst : Instruction} (h : Regular inst) (hop : inst.op ∈ leavingOps) :
    ∃ x, inst.leaving? = some x ∧ ∀ (s : State) pc effect, s.step pc inst = some effect →
      (x.Leaves s.registers.nzcv → effect.seen = (s, some (x.exit, x.param))) ∧
      (¬ x.Leaves s.registers.nzcv → effect = .next s) := by
  cases h with
  | branch =>
    refine ⟨_, rfl, fun s pc effect hstep => ?_⟩
    cases hstep
    exact ⟨fun _ => rfl, fun hnot => absurd (by simp [Leaving.Leaves]) hnot⟩
  | ret =>
    refine ⟨_, rfl, fun s pc effect hstep => ?_⟩
    cases hstep
    exact ⟨fun _ => rfl, fun hnot => absurd (by simp [Leaving.Leaves]) hnot⟩
  | branchCond =>
    refine ⟨_, rfl, fun s pc effect hstep => ?_⟩
    cases hstep
    simp only [Leaving.Leaves, Option.some.injEq, forall_eq']
    have hflags : ∀ cond : Condition, cond.holdsIn s.registers.nzcv = cond.holds s.flags :=
      fun _ => rfl
    rw [hflags, State.jumpIf]
    split <;> simp [*, Effect.seen]
  | sum hother | logical hother | narrow hother =>
    obtain rfl | rfl | rfl | rfl := hother <;> simp [leavingOps] at hop
  | compare hother | condCompare hother | word hother | pair hother =>
    obtain rfl | rfl := hother <;> simp [leavingOps] at hop
  | moveWide hother => obtain rfl | rfl | rfl := hother <;> simp [leavingOps] at hop
  | move | address | nop => simp [leavingOps] at hop

end Guest

/-! ## Code -/

namespace Engine.Trial

/-- **The code of branches and returns.**

Testing a guest condition: with two scratch registers free the code can be emitted, and once it is
emitted no more registers are in use than before and its branch is taken exactly when the condition
holds for the flag cell, whatever its other bits are.

Instructions: take a branch, a conditional branch or a return that decoding gives. Its code can be
emitted, wherever it stands, whatever memory there is, and with any host registers in use that leave
seven free. Once it is emitted it can be assembled and, run from any host state, it returns with the
exit and the parameter of the instruction if the instruction leaves, and goes on behind its end
otherwise; all cells and all of memory are as they were.

**Proof sketch.** The first part is about the code in front of the branch
(`branchIf_branchesWhen`), which can be emitted unless it runs out of scratch registers. In the
second part the instruction accesses no memory and names no register, so its code is lowered as
it is meant, in any memory; what it shows is the effect of its step (`Guest.State.step_leaving`). -/
theorem emitted_leaves :
    (∀ (cond : Guest.Condition) (label : Nat) (e : Lower.Emission),
      (2 ≤ e.scratch.free → ((Lower.branchIf cond label).runOn e).1 = .ok ()) ∧
        ∀ e', (Lower.branchIf cond label).runOn e = (.ok (), e') →
          e'.scratch = e.scratch ∧ Lower.BranchesWhen cond label e.code e'.code) ∧
    ∀ (word : Opcode) (inst : Guest.Instruction), Guest.decode word = some inst →
      inst.op ∈ Guest.leavingOps → ∀ (pc : Word) (memory : Option Memory)
        (reserved : List Host.Reg),
        let t : Trial := { inst := inst, pc := pc, memory := memory, reserved := reserved }
        (7 ≤ t.initial.scratch.free → t.emitted.1 = .ok ()) ∧
          (t.emitted.1 = .ok () →
            ∃ x code, inst.leaving? = some x ∧ t.emitted.2.code.assemble = .ok code ∧
              ∀ s : Host.State,
                (x.Leaves s.cells.nzcv → ∃ u, code.program.run s = .returned u ∧
                  u.reg .rax = x.exit.number ∧ u.reg .rdx = x.param ∧ u.guest = s.guest) ∧
                (¬ x.Leaves s.cells.nzcv → ∃ u, code.program.run s = .ended u ∧
                  u.guest = s.guest)) := by
  constructor
  · intro cond label e
    refine ⟨fun hfree => ?_, fun e' hrun => Lower.branchIf_branchesWhen cond label hrun⟩
    rcases hrun : (Lower.branchIf cond label).runOn e with ⟨f | _, e'⟩
    · have hforks := Lower.branches_iff.1 (Lower.branchIf_branches cond label e)
      obtain ⟨r, hr, -⟩ | ⟨hlt, -⟩ := hforks.of_error hrun
      · simp at hr
      · omega
    · rfl
  · intro word inst hword hop pc memory reserved t
    have hinst := Guest.regular_of_decode hword
    have hpure : inst.access? = none := by
      have hothers : ∀ op ∈ Guest.leavingOps, op ∉ Guest.transferOps := by decide
      exact Guest.access?_of_not_mem (hothers inst.op hop)
    have hrealizes := Lower.instruction_realizes_of_pure hinst hpure pc memory
    obtain ⟨x, hx, hsteps⟩ := Guest.State.step_leaving hinst hop
    have hmapped : ∀ r ∈ inst.named, r.Mapped := by
      rw [Guest.named_of_leaving? hx]
      simp
    refine ⟨emitted_ok_of_realizes (t := t) hrealizes hmapped, fun hok => ?_⟩
    obtain ⟨code, hcode, hruns⟩ := code_shows (t := t) hrealizes hok
    refine ⟨x, code, hx, hcode, fun s => ?_⟩
    obtain ⟨effect, walked, hstep, hrun, hshows⟩ := hruns s trivial
    obtain ⟨hleaves, hgoes⟩ := hsteps s.guest pc effect hstep
    constructor
    · intro hleave
      obtain ⟨u, rfl, hleft⟩ := hshows.left (hleaves hleave)
      exact ⟨u, hrun, hleft.kind, hleft.param, hleft.guest⟩
    · intro hstay
      obtain ⟨u, rfl, hguest⟩ := hshows.fell (hgoes hstay)
      exact ⟨u, hrun, hguest⟩

/-- A branch on a clear zero flag, which leaves or goes on as one bit of the flag cell says. -/
theorem emitted_leaves_ne :
    let inst : Guest.Instruction := { op := .bcond, operands := [.cond .ne, .label (-8)] }
    let t : Trial := { inst := inst, pc := 0, memory := none }
    Guest.decode 0x54ffffc1 = some inst ∧
      (∃ e, (Lower.branchIf .ne 0).runOn {} = (.ok (), e) ∧ Lower.BranchesWhen .ne 0 {} e.code) ∧
      t.emitted.1 = .ok () ∧ ∃ code, t.emitted.2.code.assemble = .ok code ∧ ∀ s : Host.State,
        (s.cells.nzcv.getLsbD 30 = false → ∃ u, code.program.run s = .returned u ∧
          u.reg .rax = Exit.branch.number ∧ u.reg .rdx = -8 ∧ u.guest = s.guest) ∧
        (s.cells.nzcv.getLsbD 30 = true → ∃ u, code.program.run s = .ended u ∧
          u.guest = s.guest) := by
  intro inst t
  have hword : Guest.decode 0x54ffffc1 = some inst := by decide
  have hok : t.emitted.1 = .ok () :=
    (emitted_leaves.2 _ _ hword (by decide) 0 none []).1 (by decide)
  obtain ⟨x, code, hx, hcode, hruns⟩ :=
    (emitted_leaves.2 _ _ hword (by decide) 0 none []).2 hok
  cases hx
  have hleaves : ∀ cell, Guest.Leaving.Leaves ⟨some .ne, .branch, -8⟩ cell ↔
      cell.getLsbD 30 = false := by
    intro cell
    simp [Guest.Leaving.Leaves, Guest.Condition.holdsIn, Guest.Condition.holds,
      Guest.Condition.ne, Guest.Flags.ofNibble]
  obtain ⟨htests, hbranches⟩ := emitted_leaves.1 .ne 0 {}
  refine ⟨hword, ⟨_, Prod.ext (htests (by decide)) rfl, ?_⟩, hok, code, hcode, fun s => ?_⟩
  · exact (hbranches _ (Prod.ext (htests (by decide)) rfl)).2
  · obtain ⟨hleave, hstay⟩ := hruns s
    exact ⟨fun hbit => hleave ((hleaves _).2 hbit), fun hbit => hstay fun h => by
      rw [(hleaves _).1 h] at hbit
      cases hbit⟩

end Engine.Trial

end Dynarec
