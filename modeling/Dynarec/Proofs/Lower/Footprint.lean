import Dynarec.Proofs.Code.Trace
import Dynarec.Proofs.Lower.Instruction

/-!
# Code that keeps to its registers and its memory

The code of a guest instruction may replace registers of the pool, write cells, and write guest
memory that is not below its limit. Code is tame if it does no more than that, from whatever state
it is run: a store to a cell then has to come right after its address is loaded. Tame code is put
together as pieces are, so an action adds tame code if its parts do.

## Main definitions

* `Dynarec.Lower.Writable` — the host bytes that code may write.
* `Dynarec.Lower.Permitted` — an instruction keeps to the pool and to those bytes.
* `Dynarec.Lower.Tame` — code that runs only such instructions.
* `Dynarec.Lower.Keeps` — an action that adds only such code.

## Main results

* `Dynarec.Lower.Tame.append`, `Dynarec.Lower.Tame.jumpOver`, `Dynarec.Lower.Tame.choose` — tame
  code put together.
* `Dynarec.Lower.Tame.cell`, `Dynarec.Lower.Tame.cellImm` — stores to cells.
* `Dynarec.Lower.Keeps.bind` — sequencing.
-/

set_option autoImplicit false

namespace Dynarec.Lower

open Host (Reg Inst State AluOp)
open Code (Piece trace Lands mem_trace_inst mem_trace_append)

/-! ## Instructions -/

/-- Host bytes that code may write: a cell, or bytes of guest memory that are not below the
limit. -/
inductive Writable (mem : Memory) : Word → Nat → Prop where
  | cell (c : Cell) : Writable mem c.address 8
  | guest {address : Word} {n : Nat} (hlow : mem.writableStart ≤ address)
      (hhigh : address.toNat + n ≤ mem.base.toNat + mem.bytes.size) :
      Writable mem (mem.hostAddress + (address - mem.base)) n

/-- An instruction that runs in a state keeps to the registers of the pool, returning aside, and to
the bytes that code may write. -/
structure Permitted (mem : Memory) (i : Inst) (s : State) : Prop where
  target : ∀ r, i.target? = some r → r ∈ Scratch.pool ∨ i = .ret
  written : ∀ a n, i.written? s = some (a, n) → Writable mem a n

/-- An instruction that replaces at most a register of the pool and writes no memory. -/
def Plain : Inst → Prop
  | .mov _ dst _ | .movImm dst _ | .movAbs dst _ | .load dst _ _ _ | .alu _ _ dst _
  | .aluImm _ _ dst _ | .shift _ _ dst _ | .setcc _ dst | .movzx16 dst _ => dst ∈ Scratch.pool
  | .test _ _ _ | .bt _ _ | .lahf | .nop => True
  | .store _ _ _ _ | .storeImm _ _ _ | .ret => False

section Instructions

variable {mem : Memory} {s : State} {addr src : Reg}

/-- Plain instructions are permitted in every state.

**Proof sketch.** A plain instruction writes a register that is free to change, and no
memory. -/
theorem Plain.permitted {i : Inst} (h : Plain i) : Permitted mem i s where
  target r hr := by
    left
    cases i with
    | lahf =>
      cases hr
      decide
    | mov | movImm | movAbs | load | shift | setcc | movzx16 =>
      cases hr
      exact h
    | alu op | aluImm op =>
      rw [Inst.target?] at hr
      split at hr <;> cases hr
      exact h
    | test | bt | nop => cases hr
    | store | storeImm | ret => cases h
  written a n hw := by
    cases i with
    | store | storeImm => cases h
    | _ => cases hw

/-- The register that an exit is returned in belongs to the pool. -/
theorem rax_mem_pool : Reg.rax ∈ Scratch.pool := by
  decide

/-- The register that the parameter of an exit is returned in belongs to the pool. -/
theorem rdx_mem_pool : Reg.rdx ∈ Scratch.pool := by
  decide

/-- Returning is permitted. It moves the stack pointer, which is no register of the pool, but
gives it back as the caller expects. -/
theorem Permitted.ret : Permitted mem .ret s where
  target _ _ := .inr rfl
  written a n hw := by cases hw

/-- An instruction that writes eight bytes at the address in a register. -/
structure WritesAt (addr : Reg) (i : Inst) : Prop where
  target : i.target? = none
  written : ∀ s, i.written? s = some (s.reg addr, 8)

/-- A store of a register without a displacement writes at the address in its base. -/
theorem WritesAt.store : WritesAt addr (.store addr 0 src 8) where
  target := rfl
  written s := by
    have haddr : s.address addr 0 = s.reg addr := address_zero s addr
    rw [← haddr]
    rfl

/-- A store of a constant without a displacement writes at the address in its base. -/
theorem WritesAt.storeImm (imm : BitVec 32) : WritesAt addr (.storeImm addr 0 imm) where
  target := rfl
  written s := by
    have haddr : s.address addr 0 = s.reg addr := address_zero s addr
    rw [← haddr]
    rfl

/-- A write at the address in a register is permitted where the address is that of a cell. -/
theorem WritesAt.permitted {i : Inst} (h : WritesAt addr i) {c : Cell}
    (hc : s.reg addr = c.address) : Permitted mem i s where
  target r hr := by simp [h.target] at hr
  written a n hw := by
    rw [h.written, hc] at hw
    cases hw
    exact .cell c

end Instructions

/-! ## Code -/

/-- Code that only runs permitted instructions, from whatever state. -/
structure Tame (mem : Memory) (P : List Piece) : Prop where
  lands : Lands P
  permitted : ∀ s i u, (i, u) ∈ trace 0 P s → Permitted mem i u

namespace Tame

variable {mem : Memory} {P Q : List Piece}

/-- No code is tame. -/
theorem nil : Tame mem [] :=
  ⟨trivial, by simp⟩

/-- A permitted instruction is tame code, provided that it is permitted in every state. -/
theorem inst {i : Inst} (h : ∀ s, Permitted mem i s) : Tame mem [.inst i] where
  lands := trivial
  permitted s j u hmem := by
    obtain hmem | ⟨t, -, hmem⟩ := mem_trace_inst hmem
    · cases hmem
      exact h s
    · simp at hmem

/-- **Tame code behind tame code is tame.** What the second part runs, it runs from the states
that the first part leaves, and it is tame from all states. -/
theorem append (hP : Tame mem P) (hQ : Tame mem Q) : Tame mem (P ++ Q) where
  lands := hP.lands.append hQ.lands
  permitted s i u hmem := by
    obtain hmem | ⟨t, -, hmem⟩ := mem_trace_append hP.lands hmem
    · exact hP.permitted s i u hmem
    · exact hQ.permitted t i u hmem

/-- Code that may be passed over in part is tame if it is tame from both places on. -/
theorem hop (cond : Host.Cond) (hall : Tame mem (P ++ Q)) (hrest : Tame mem Q) :
    Tame mem (.hop cond P.length :: (P ++ Q)) where
  lands := ⟨by simp, hall.lands⟩
  permitted s i u hmem := by
    rw [trace] at hmem
    split at hmem
    · rw [Code.trace_skip] at hmem
      exact hrest.permitted s i u hmem
    · exact hall.permitted s i u hmem

/-- Tame code with a branch over its second part is tame: the branch skips code and adds none. -/
theorem jumpOver (cond : Host.Cond) (hP : Tame mem P) (hQ : Tame mem Q) :
    Tame mem (P ++ .hop cond Q.length :: Q) := by
  have hhop : Tame mem (.hop cond Q.length :: (Q ++ [])) :=
    .hop cond (by simpa using hQ) .nil
  rw [List.append_nil] at hhop
  exact hP.append hhop

/-- Tame code of which one of two parts is run is tame: the branch leads to the one, and a jump
behind the other leads over it. -/
theorem choose {U : List Piece} (cond : Host.Cond) (hP : Tame mem P) (hQ : Tame mem Q)
    (hU : Tame mem U) :
    Tame mem (P ++ .hop cond (Q.length + 1) :: (Q ++ .hop .always U.length :: U)) := by
  have hall : Tame mem (Q ++ [.hop .always U.length] ++ U) := by
    simpa using hQ.jumpOver .always hU
  have hhop := Tame.hop cond hall hU
  rw [List.length_append, List.length_singleton, List.append_assoc] at hhop
  exact hP.append hhop

/-- A write to a cell whose address has just been loaded. -/
theorem cell {addr : Reg} (haddr : addr ∈ Scratch.pool) (c : Cell) {i : Inst}
    (hi : WritesAt addr i) : Tame mem [.inst (.movAbs addr c.address), .inst i] where
  lands := trivial
  permitted s j u hmem := by
    obtain hmem | ⟨t, ht, hmem⟩ := mem_trace_inst hmem
    · cases hmem
      exact Plain.permitted haddr
    · cases ht
      obtain hmem | ⟨t, -, hmem⟩ := mem_trace_inst hmem
      · cases hmem
        exact hi.permitted (c := c) (by simp)
      · simp at hmem

/-- A write to a cell whose address has been loaded before the value.

**Proof sketch.** The address and the value are loaded into different registers, so the
address is still there at the write. -/
theorem cellImm {addr val : Reg} (haddr : addr ∈ Scratch.pool) (hval : val ∈ Scratch.pool)
    (hne : addr ≠ val) (c : Cell) (v : Word) {i : Inst} (hi : WritesAt addr i) :
    Tame mem [.inst (.movAbs addr c.address), .inst (.movImm val v), .inst i] where
  lands := trivial
  permitted s j u hmem := by
    obtain hmem | ⟨t, ht, hmem⟩ := mem_trace_inst hmem
    · cases hmem
      exact Plain.permitted haddr
    cases ht
    obtain hmem | ⟨t, ht, hmem⟩ := mem_trace_inst hmem
    · cases hmem
      exact Plain.permitted hval
    cases ht
    obtain hmem | ⟨t, -, hmem⟩ := mem_trace_inst hmem
    · cases hmem
      exact hi.permitted (c := c) (by simp [hne])
    · simp at hmem

end Tame

/-! ## Actions -/

/-- Wherever the action succeeds, its value is in `V` and the code it adds is tame. -/
def Keeps {α : Type} (mem : Memory) (act : Emit α) (V : α → Prop) : Prop :=
  ∀ e, Emits act e (fun a _ P => V a ∧ Tame mem P) fun _ => True

/-- Wherever the action succeeds, the code it adds before a branch to an open label is tame. -/
def KeepsBranch (mem : Memory) (act : Emit Unit) (label : Nat) : Prop :=
  ∀ e, Forks act label e (fun _ P _ => Tame mem P) fun _ => True

namespace Keeps

variable {α β : Type} {mem : Memory} {act : Emit α} {k : α → Emit β}
variable {V : α → Prop} {W : β → Prop}

/-- Giving a value adds no code. -/
theorem pure {a : α} (h : V a) : Keeps mem (Pure.pure a) V :=
  fun _ => .pure ⟨h, .nil⟩

/-- Failing adds no code. Nothing is asked of the value, as there is none. -/
theorem fail {kind : Kind} {reason : Reason} : Keeps mem (Emit.fail kind reason) V :=
  fun _ => .fail trivial

/-- **Sequencing keeps code tame.** What is known of the value of the first action can be used
for the second. -/
theorem bind (h : Keeps mem act V) (hk : ∀ a, V a → Keeps mem (k a) W) :
    Keeps mem (act >>= k) W := by
  intro e
  refine (h e).bind ?_
  rintro a e' P ⟨ha, hP⟩
  refine (hk a ha e').mono ?_ fun _ hf => hf
  rintro b e'' P' ⟨hb, hP'⟩
  exact ⟨hb, hP.append hP'⟩

/-- Changing the emission around the code adds none. -/
theorem update {f : Emission → Emission} (hf : ∀ e, (f e).code = e.code) :
    Keeps mem (Emit.update f) fun _ => True :=
  fun e => .update (hf e) ⟨trivial, .nil⟩

/-- Marking a register as in use adds no code. -/
theorem reserve (r : Reg) : Keeps mem (Lower.reserve r) fun _ => True :=
  .update fun _ => rfl

/-- Marking a register as free adds no code. -/
theorem release (r : Reg) : Keeps mem (Lower.release r) fun _ => True :=
  .update fun _ => rfl

/-- Saying that the line goes on adds no code. -/
theorem goOn : Keeps mem Lower.goOn fun _ => True :=
  .update fun _ => rfl

/-- Emitting a plain instruction adds tame code. -/
theorem emit {i : Inst} (hi : Plain i) : Keeps mem (Lower.emit i) fun _ => True :=
  fun _ => .emit ⟨trivial, .inst fun _ => hi.permitted⟩

/-- Emitting a plain instruction and going on. -/
theorem emit_bind {i : Inst} {k : Unit → Emit β} (hi : Plain i) (hk : Keeps mem (k ()) W) :
    Keeps mem (Lower.emit i >>= k) W :=
  .bind (.emit hi) fun _ _ => hk

/-- Emitting a return adds tame code. -/
theorem ret : Keeps mem (Lower.emit .ret) fun _ => True :=
  fun _ => .emit ⟨trivial, .inst fun _ => .ret⟩

/-- Claiming a register adds no code, and gives a register of the pool. -/
theorem claim : Keeps mem Lower.claim (· ∈ Scratch.pool) := by
  intro e
  rw [← bind_pure Lower.claim]
  exact .claim_bind (fun r hr _ => .pure ⟨hr, .nil⟩) fun _ _ => trivial

/-- Holding a scratch register for the duration of an action: the action may take it for one of
the pool. -/
theorem withScratch {body : Reg → Emit α} (h : ∀ r ∈ Scratch.pool, Keeps mem (body r) V) :
    Keeps mem (Lower.withScratch body) V :=
  fun e => .withScratch (fun r hr _ => h r hr (e.reserve r)) fun _ _ => trivial

/-- Code of which one part is run. -/
theorem ite {p : Prop} [Decidable p] {act act' : Emit α} (h : Keeps mem act V)
    (h' : Keeps mem act' V) : Keeps mem (if p then act else act') V := by
  split
  · exact h
  · exact h'

/-- Loading the address of a cell, and a write to it. -/
theorem cell_bind {addr : Reg} (haddr : addr ∈ Scratch.pool) (c : Cell) {i : Inst}
    (hi : WritesAt addr i) {k : Unit → Emit β} (hk : Keeps mem (k ()) W) :
    Keeps mem (Lower.emit (.movAbs addr c.address) >>= fun _ => Lower.emit i >>= k) W := by
  intro e
  refine .emit_bind (.emit_bind ((hk _).mono ?_ fun _ hf => hf))
  rintro b e' P ⟨hb, hP⟩
  exact ⟨hb, (Tame.cell haddr c hi).append hP⟩

/-- An action with a branch over its second part. The label is new, so nothing else branches to
it. -/
theorem jumpOver {test : Nat → Emit Unit} {body : Emit Unit}
    (htest : ∀ label, KeepsBranch mem (test label) label)
    (hbody : Keeps mem body fun _ => True) :
    Keeps mem (do let label ← newLabel; test label; body; bindLabel label) fun _ => True := by
  intro e
  refine .jumpOver (htest _ _) ?_
  intro e' P cond hP
  refine (hbody e').mono ?_ fun _ hf => hf
  rintro _ e'' P' ⟨-, hP'⟩
  exact ⟨trivial, hP.jumpOver cond hP'⟩

/-- An action with a label to which nothing branches. -/
theorem unusedLabel {body : Emit Unit} (hbody : Keeps mem body fun _ => True) :
    Keeps mem (do let label ← newLabel; body; bindLabel label) fun _ => True :=
  fun _ => .unusedLabel (hbody _)

/-- An action of which one of two parts is run, with two new labels. -/
theorem choose {test : Nat → Emit Unit} {body other : Emit Unit}
    (htest : ∀ label, KeepsBranch mem (test label) label)
    (hbody : Keeps mem body fun _ => True) (hother : Keeps mem other fun _ => True) :
    Keeps mem (do
      let label ← newLabel
      let done ← newLabel
      test label
      body
      emitBranch .always done
      bindLabel label
      other
      bindLabel done) fun _ => True := by
  intro e
  refine .choose (T := fun P _ _ P' => Tame mem P ∧ Tame mem P') (htest _ _) ?_ ?_
  · intro e' P cond hP
    exact (hbody e').mono (fun _ _ _ hP' => ⟨hP, hP'.2⟩) fun _ hf => hf
  · rintro P cond e' P' ⟨hP, hP'⟩
    refine (hother e').mono ?_ fun _ hf => hf
    rintro _ e'' U ⟨-, hU⟩
    exact ⟨trivial, hP.choose cond hP' hU⟩

end Keeps

namespace KeepsBranch

variable {mem : Memory} {label : Nat}

/-- Sequencing before a branch: the code of the first action comes before the branch, too. -/
theorem bind {α : Type} {act : Emit α} {V : α → Prop} {k : α → Emit Unit} (h : Keeps mem act V)
    (hk : ∀ a, V a → KeepsBranch mem (k a) label) : KeepsBranch mem (act >>= k) label := by
  intro e
  refine .bind (h e) ?_
  rintro a e' P ⟨ha, hP⟩
  exact (hk a ha e').mono (fun _ _ _ hP' => hP.append hP') fun _ hf => hf

/-- Emitting a plain instruction before a branch. -/
theorem emit_bind {i : Inst} {k : Unit → Emit Unit} (hi : Plain i)
    (hk : KeepsBranch mem (k ()) label) : KeepsBranch mem (emit i >>= k) label :=
  .bind (.emit hi) fun _ _ => hk

/-- The branch itself, with no code before it. -/
theorem emitBranch {cond : Host.Cond} (hc : cond.code ≤ Host.Cond.always.code) :
    KeepsBranch mem (emitBranch cond label) label :=
  fun _ => .emitBranch hc .nil

/-- Holding a scratch register up to a branch. -/
theorem withScratch {body : Reg → Emit Unit}
    (h : ∀ r ∈ Scratch.pool, KeepsBranch mem (body r) label) :
    KeepsBranch mem (withScratch body) label :=
  fun e => .withScratch (fun r hr _ => h r hr (e.reserve r)) fun _ _ => trivial

end KeepsBranch

end Dynarec.Lower
