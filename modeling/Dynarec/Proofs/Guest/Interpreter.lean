import Dynarec.Proofs.Guest.Line
import Mathlib.Logic.Relation

/-!
# Running one instruction at a time

The interpreter is a machine that moves from one state and offset to the next until it ends. A
straight line takes it from the start of the line to where the line is left.

## Main definitions

* `Dynarec.Guest.advance` — one step of the interpreter.
* `Dynarec.Guest.Moves`, `Dynarec.Guest.Reaches` — one step, and any number of them.

## Main results

* `Dynarec.Guest.runFrom_succ` — a run is a step and the rest of the run.
* `Dynarec.Guest.Reaches.runFrom`, `Dynarec.Guest.runFrom_of_moves` — runs from both ends of a path.
* `Dynarec.Guest.lineOutcome_runs` — the interpreter runs lines to their outcome.
-/

set_option autoImplicit false

namespace Dynarec.Guest

/-- One step of the interpreter: how it ends, or where it goes on. -/
def advance (text : List Opcode) (loadBias : Word) (s : State) (offset : Word) :
    Ending ⊕ (State × Word) :=
  if offset = BitVec.ofNat 64 (text.length * instructionSize) then .inl (.halted s)
  else
    match wordAt? text offset with
    | none => .inl (.outside offset s)
    | some word =>
      match (decode word).bind fun inst =>
          (s.setPc (loadBias + offset)).step (loadBias + offset) inst with
      | none => .inl (.refused (s.setPc (loadBias + offset)))
      | some (.next t) => .inr (t, offset + BitVec.ofNat 64 instructionSize)
      | some (.jump distance t) => .inr (t, offset + distance)
      | some (.halt t) => .inl (.halted t)
      | some (.fault address t) => .inl (.faulted address t)

section Runs

variable {text : List Opcode} {loadBias : Word}

/-- A run is a step and the rest of the run. -/
theorem runFrom_succ (fuel : Nat) (s : State) (offset : Word) :
    runFrom text loadBias (fuel + 1) s offset =
      (advance text loadBias s offset).elim some fun p => runFrom text loadBias fuel p.1 p.2 := by
  rw [runFrom, advance]
  split
  · rfl
  · cases wordAt? text offset with
    | none => rfl
    | some word =>
      dsimp only
      cases (decode word).bind fun inst =>
          (s.setPc (loadBias + offset)).step (loadBias + offset) inst with
      | none => rfl
      | some effect => cases effect <;> rfl

/-- The interpreter goes from one state and offset to another in one step. -/
def Moves (text : List Opcode) (loadBias : Word) (p q : State × Word) : Prop :=
  advance text loadBias p.1 p.2 = .inr q

/-- The interpreter goes from one state and offset to another. -/
def Reaches (text : List Opcode) (loadBias : Word) : State × Word → State × Word → Prop :=
  Relation.ReflTransGen (Moves text loadBias)

variable {p q : State × Word} {r r' : Ending} {fuel fuel' : Nat}

/-- With one more block to run, a run goes on where its first block leads. -/
theorem runFrom_of_moves (h : Moves text loadBias p q) (fuel : Nat) :
    runFrom text loadBias (fuel + 1) p.1 p.2 = runFrom text loadBias fuel q.1 q.2 := by
  rw [runFrom_succ, show advance text loadBias p.1 p.2 = .inr q from h]
  rfl

/-- A run ends with the first block that does not go on. -/
theorem runFrom_of_inl (h : advance text loadBias p.1 p.2 = .inl r) :
    runFrom text loadBias 1 p.1 p.2 = some r := by
  rw [runFrom_succ, h]
  rfl

/-- More fuel keeps the ending of a run.

**Proof sketch.** By induction on the fuel: both runs make the same first step, and if it is
not the last the rest has less fuel on both sides. -/
theorem runFrom_mono (h : runFrom text loadBias fuel p.1 p.2 = some r) (hle : fuel ≤ fuel') :
    runFrom text loadBias fuel' p.1 p.2 = some r := by
  induction fuel generalizing p fuel' with
  | zero => cases h
  | succ fuel ih =>
    obtain ⟨fuel', rfl⟩ : ∃ k, fuel' = k + 1 := ⟨fuel' - 1, by omega⟩
    rw [runFrom_succ] at h ⊢
    cases hadvance : advance text loadBias p.1 p.2 with
    | inl r' =>
      rw [hadvance] at h
      exact h
    | inr q =>
      rw [hadvance] at h
      exact ih (p := q) h (by omega)

/-- A run has one ending. -/
theorem runFrom_unique (h : runFrom text loadBias fuel p.1 p.2 = some r)
    (h' : runFrom text loadBias fuel' p.1 p.2 = some r') : r = r' := by
  have hmax := runFrom_mono h (Nat.le_max_left fuel fuel')
  rw [runFrom_mono h' (Nat.le_max_right fuel fuel')] at hmax
  exact (Option.some.inj hmax).symm

/-- What the interpreter comes to from where it gets, it comes to. -/
theorem Reaches.runFrom (h : Reaches text loadBias p q)
    (hq : runFrom text loadBias fuel q.1 q.2 = some r) :
    ∃ fuel', runFrom text loadBias fuel' p.1 p.2 = some r := by
  induction h using Relation.ReflTransGen.head_induction_on with
  | refl => exact ⟨fuel, hq⟩
  | head hmove _ ih =>
    obtain ⟨fuel', hrun⟩ := ih
    exact ⟨fuel' + 1, (runFrom_of_moves hmove fuel').trans hrun⟩

/-- On a path the interpreter needs less fuel the farther it is. -/
theorem runFrom_of_transGen (h : Relation.TransGen (Moves text loadBias) p q)
    (hp : runFrom text loadBias fuel p.1 p.2 = some r) :
    ∃ fuel' < fuel, runFrom text loadBias fuel' q.1 q.2 = some r := by
  induction h with
  | single hmove =>
    cases fuel with
    | zero => cases hp
    | succ fuel => exact ⟨fuel, Nat.lt_succ_self _, (runFrom_of_moves hmove fuel).symm.trans hp⟩
  | tail _ hmove ih =>
    obtain ⟨fuel', hlt, hrun⟩ := ih
    cases fuel' with
    | zero => cases hrun
    | succ fuel' =>
      exact ⟨fuel', by omega, (runFrom_of_moves hmove fuel').symm.trans hrun⟩

/-! ## Lines -/

/-- Where the interpreter gets from a state and an offset, by the outcome of a line. -/
inductive Arrives (text : List Opcode) (loadBias : Word) (p : State × Word) :
    Option (Exit × Word × State) → Prop where
  | refused {t : State} (h : ∃ fuel, runFrom text loadBias fuel p.1 p.2 = some (.refused t)) :
      Arrives text loadBias p none
  | halt {t : State} (h : ∃ fuel, runFrom text loadBias fuel p.1 p.2 = some (.halted t)) :
      Arrives text loadBias p (some (.halt, 0, t))
  | branch {distance : Word} {t : State} (h : Relation.TransGen (Moves text loadBias) p
      (t, t.registers.pc - loadBias + distance)) :
      Arrives text loadBias p (some (.branch, distance, t))
  | fault {address : Word} {t : State}
      (h : ∃ fuel, runFrom text loadBias fuel p.1 p.2 = some (.faulted address t)) :
      Arrives text loadBias p (some (.fault, address, t))

variable {outcome : Option (Exit × Word × State)}

/-- Arriving from where one block leads is arriving from before that block. -/
theorem Arrives.head (hmove : Moves text loadBias p q) (h : Arrives text loadBias q outcome) :
    Arrives text loadBias p outcome := by
  have hrun : ∀ {r}, (∃ fuel, runFrom text loadBias fuel q.1 q.2 = some r) →
      ∃ fuel, runFrom text loadBias fuel p.1 p.2 = some r := by
    rintro r ⟨fuel, hfuel⟩
    exact ⟨fuel + 1, (runFrom_of_moves hmove fuel).trans hfuel⟩
  cases h with
  | refused h => exact .refused (hrun h)
  | halt h => exact .halt (hrun h)
  | branch h => exact .branch (.head hmove h)
  | fault h => exact .fault (hrun h)

/-- The step of the interpreter at a word, by its effect. -/
theorem advance_of_word {offset : Word} {word : Opcode}
    (hend : offset ≠ BitVec.ofNat 64 (text.length * instructionSize))
    (hword : wordAt? text offset = some word) (loadBias : Word) (s : State) :
    advance text loadBias s offset =
      match (decode word).bind fun inst =>
          (s.setPc (loadBias + offset)).step (loadBias + offset) inst with
      | none => .inl (.refused (s.setPc (loadBias + offset)))
      | some (.next t) => .inr (t, offset + BitVec.ofNat 64 instructionSize)
      | some (.jump distance t) => .inr (t, offset + distance)
      | some (.halt t) => .inl (.halted t)
      | some (.fault address t) => .inl (.faulted address t) := by
  rw [advance, if_neg hend, hword]

/-- The interpreter at a word that leaves the line or faults.

**Proof sketch.** Interpreter and line take the same step at the word. If it ends the line,
the interpreter takes the branch or halts (`State.step_ends`). Otherwise the step faults, or goes
on to the next word, from where the rest is assumed (`State.step_follows`). -/
theorem Arrives.of_word {offset : Word} {word : Opcode} {s : State} {rest : List Opcode}
    (hend : offset ≠ BitVec.ofNat 64 (text.length * instructionSize))
    (hword : wordAt? text offset = some word)
    (hrest : ∀ t, advance text loadBias s offset =
        .inr (t, offset + BitVec.ofNat 64 instructionSize) →
      Arrives text loadBias (t, offset + BitVec.ofNat 64 instructionSize)
        (lineOutcome rest (loadBias + offset + BitVec.ofNat 64 instructionSize) t)) :
    Arrives text loadBias (s, offset) (lineOutcome (word :: rest) (loadBias + offset) s) := by
  have hadvance := advance_of_word hend hword loadBias s
  have hback : (s.setPc (loadBias + offset)).registers.pc - loadBias = offset := by
    show loadBias + offset - loadBias = offset
    rw [BitVec.add_comm, BitVec.add_sub_cancel]
  cases hinst : decode word with
  | none =>
    rw [hinst, Option.bind_none] at hadvance
    rw [lineOutcome, hinst, Option.bind_none]
    exact .refused ⟨1, runFrom_of_inl hadvance⟩
  | some inst =>
    rw [hinst, Option.bind_some] at hadvance
    rw [lineOutcome, hinst, Option.bind_some]
    cases hstep : (s.setPc (loadBias + offset)).step (loadBias + offset) inst with
    | none =>
      rw [hstep] at hadvance
      exact .refused ⟨1, runFrom_of_inl hadvance⟩
    | some effect =>
      rw [hstep] at hadvance
      cases hends : inst.op.endsLine with
      | true =>
        -- the state is the one with the program counter set, so the parameter counts from here
        cases State.step_ends (regular_of_decode hinst) hends hstep with
        | next =>
          refine .branch (.single (hadvance.trans ?_))
          rw [hback]
        | jump =>
          refine .branch (.single (hadvance.trans ?_))
          rw [hback]
        | halt => exact .halt ⟨1, runFrom_of_inl hadvance⟩
      | false =>
        cases State.step_follows (regular_of_decode hinst) hends hstep with
        | next => exact .head hadvance (hrest _ hadvance)
        | fault => exact .fault ⟨1, runFrom_of_inl hadvance⟩

/-- **The interpreter runs a line to its outcome.**

**Proof sketch.** By induction on the words of the line: at the end of the stream the interpreter
halts; otherwise its step at the first word either leaves the line as the outcome says, or goes on
at the next offset, where the rest of the line starts. -/
theorem lineOutcome_runs (hsize : text.length * instructionSize < 0x10000000000000000)
    (words : List Opcode) (s : State) (offset : Word)
    (haligned : offset.toNat % instructionSize = 0)
    (hle : offset.toNat ≤ text.length * instructionSize)
    (hwords : text.drop (offset.toNat / instructionSize) = words) :
    Arrives text loadBias (s, offset) (lineOutcome words (loadBias + offset) s) := by
  unfold instructionSize at *
  have hend : (BitVec.ofNat 64 (text.length * 4)).toNat = text.length * 4 := by
    rw [BitVec.toNat_ofNat]
    exact Nat.mod_eq_of_lt hsize
  induction words generalizing s offset with
  | nil =>
    have hlength : text.length ≤ offset.toNat / 4 := List.drop_eq_nil_iff.1 hwords
    have hoffset : offset = BitVec.ofNat 64 (text.length * 4) := by
      apply BitVec.eq_of_toNat_eq
      omega
    refine .halt ⟨1, runFrom_of_inl (p := (s, offset)) ?_⟩
    exact if_pos hoffset
  | cons word rest ih =>
    have hlt : offset.toNat / 4 < text.length := by
      by_contra hge
      rw [List.drop_eq_nil_of_le (Nat.not_lt.1 hge)] at hwords
      cases hwords
    rw [List.drop_eq_getElem_cons hlt, List.cons.injEq] at hwords
    obtain ⟨hword, hrest⟩ := hwords
    have hne : offset ≠ BitVec.ofNat 64 (text.length * 4) := by
      rintro heq
      have hnat := congrArg BitVec.toNat heq
      omega
    have hat : wordAt? text offset = some word := by
      unfold wordAt? instructionSize
      rw [if_pos haligned, List.getElem?_eq_getElem hlt, hword]
    have hnext : (offset + BitVec.ofNat 64 4).toNat = offset.toNat + 4 := by
      rw [BitVec.toNat_add, BitVec.toNat_ofNat]
      omega
    refine .of_word hne hat fun t _ => ?_
    have hpc : loadBias + offset + BitVec.ofNat 64 instructionSize =
        loadBias + (offset + BitVec.ofNat 64 instructionSize) := BitVec.add_assoc ..
    rw [hpc]
    refine ih t _ ?_ ?_ ?_
    · unfold instructionSize
      omega
    · unfold instructionSize
      omega
    · have hindex : (offset + BitVec.ofNat 64 instructionSize).toNat / 4 =
          offset.toNat / 4 + 1 := by
        unfold instructionSize
        omega
      rw [hindex, hrest]

end Runs

end Dynarec.Guest
