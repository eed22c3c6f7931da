import Dynarec.Lower.Emit
import Dynarec.Proofs.Guest.Access
import Mathlib.Tactic.ByContra

/-!
# Straight lines

A straight line runs from an instruction up to and including the first branch or return, or to the
end of the stream. What running it comes to is said directly: the line is left at its end, by a
jump, by a return, or by an access that may not be made.

## Main definitions

* `Dynarec.Guest.Translatable` — a word that decodes and names only mapped registers.
* `Dynarec.Guest.straightLine` — the words of a line.
* `Dynarec.Guest.lineOutcome` — what running a line comes to.
* `Dynarec.Guest.Frames` — what no instruction changes.
* `Dynarec.Guest.Follows`, `Dynarec.Guest.Ends` — effects inside a line and at its end.

## Main results

* `Dynarec.Guest.State.step_follows`, `Dynarec.Guest.State.step_ends` — instructions leave the
  program counter and the limits of memory alone.
* `Dynarec.Guest.lineOutcome_cases` — how the outcome of a line comes about.
* `Dynarec.Guest.lineOutcome_kept` — lines keep memory where it lies, and the bytes below its limit.
* `Dynarec.Guest.lineOutcome_of_mem` — a line with a word that is not translatable has none, or
  faults before it gets there.
-/

set_option autoImplicit false

namespace Dynarec.Guest

/-! ## What no instruction changes -/

/-- The program counter is the same, and memory lies at the same place with the same limit and the
same bytes below it. -/
structure Frames (s t : State) : Prop where
  pc : t.registers.pc = s.registers.pc
  memory : s.memory.Kept t.memory

namespace Frames

variable {s t u : State} {r : Register} {v : Word}

/-- Doing nothing changes nothing. -/
theorem refl (s : State) : Frames s s :=
  ⟨rfl, .refl _⟩

/-- What neither of two steps changes is not changed by both. -/
theorem trans (h : Frames s t) (h' : Frames t u) : Frames s u :=
  ⟨h'.pc.trans h.pc, h.memory.trans h'.memory⟩

/-- Setting the flags moves neither the program counter nor memory. -/
theorem setFlags (s : State) (f : Flags) : Frames s (s.setFlags f) where
  pc := by rw [State.setFlags]
  memory := by
    rw [State.setFlags]
    exact .refl s.memory

/-- A store that may be made leaves the bytes below the limit alone, since its address is not
below the limit. -/
theorem stored {address : Word} {n : Nat} (h : s.mayStore address n = true) (data : List Byte) :
    Frames s (s.stored address data) := by
  rw [mayStore_eq] at h
  exact ⟨rfl, .setBytesAt h data⟩

/-- Guest registers are not the program counter.

**Proof sketch.** Writing to the zero register changes nothing, and any other register is one
of the 31, which is not the program counter. -/
theorem write (h : s.write r v = some t) : Frames s t := by
  unfold State.write at h
  split at h
  · cases h
    exact .refl s
  · obtain ⟨c, hc, rfl⟩ := Option.map_eq_some_iff.1 h
    refine ⟨?_, .refl _⟩
    have hcell : c = .x0 ∨ c = .x1 := by
      unfold Cell.ofRegister? at hc
      split at hc
      · exact .inl (Option.some.inj hc).symm
      · exact .inr (Option.some.inj hc).symm
      · cases hc
    obtain rfl | rfl := hcell <;> rfl

end Frames

/-- The effects of instructions inside a line: they go on, or make an access they may not make. -/
inductive Follows (s : State) : Effect → Prop where
  | next {t : State} (h : Frames s t) : Follows s (.next t)
  | fault {address : Word} : Follows s (.fault address s)

/-- The effects of instructions that end a line: they leave the state alone. -/
inductive Ends (s : State) : Effect → Prop where
  | next : Ends s (.next s)
  | jump {distance : Word} : Ends s (.jump distance s)
  | halt : Ends s (.halt s)

namespace State

variable {s : State} {rd rn rt rt2 : Register} {src : Operand} {effect : Effect}

/-- Sums go on: all they change are a register and the flags. -/
theorem sum_follows {sub flags : Bool} (h : s.sum rd rn src sub flags = some effect) :
    Follows s effect := by
  simp only [sum, Option.bind_eq_bind, Option.bind_eq_some_iff] at h
  obtain ⟨x, -, y, -, t, ht, h⟩ := h
  cases h
  cases flags with
  | false => exact .next (.write ht)
  | true => exact .next ((Frames.write ht).trans (.setFlags _ _))

/-- Logical operations go on: all they change are a register and the flags. -/
theorem logical_follows {op : Bitwise} {flags : Bool}
    (h : s.logical rd rn src op flags = some effect) : Follows s effect := by
  simp only [logical, Option.bind_eq_bind, Option.bind_eq_some_iff] at h
  obtain ⟨x, -, y, -, t, ht, h⟩ := h
  cases h
  cases flags with
  | false => exact .next (.write ht)
  | true => exact .next ((Frames.write ht).trans (.setFlags _ _))

/-- Comparisons go on, and change nothing but the flags. -/
theorem compareFlags_follows {sub : Bool}
    (h : (s.compareFlags rn src sub).map (fun f => .next (s.setFlags f)) = some effect) :
    Follows s effect := by
  obtain ⟨f, -, rfl⟩ := Option.map_eq_some_iff.1 h
  exact .next (.setFlags _ _)

/-- Conditional comparisons go on, and change nothing but the flags. -/
theorem condCompare_follows {nzcv : Word} {c : Condition} {sub : Bool}
    (h : s.condCompare rn src nzcv c sub = some effect) : Follows s effect := by
  simp only [condCompare, Option.bind_eq_bind, Option.bind_eq_some_iff] at h
  obtain ⟨f, -, h⟩ := h
  cases h
  exact .next (.setFlags _ _)

/-- Moves go on, and change one register. -/
theorem move_follows {v : Word} (h : s.move rd v = some effect) : Follows s effect := by
  obtain ⟨t, ht, rfl⟩ := Option.map_eq_some_iff.1 h
  exact .next (.write ht)

/-- Loads go on with a register changed, or fault with the state as it was: the register is
written only behind the check. -/
theorem load_follows {m : MemoryRef} {n : Nat} (h : s.load rt m n = some effect) :
    Follows s effect := by
  simp only [load, Option.bind_eq_bind, Option.bind_eq_some_iff] at h
  obtain ⟨a, -, t, ht, h⟩ := h
  cases h
  split
  · exact .next (.write ht)
  · exact .fault

/-- Stores go on with memory changed at or above its limit, or fault with the state as it was. -/
theorem store_follows {m : MemoryRef} {n : Nat} (h : s.store rt m n = some effect) :
    Follows s effect := by
  simp only [store, Option.bind_eq_bind, Option.bind_eq_some_iff] at h
  obtain ⟨v, -, a, -, h⟩ := h
  cases h
  split
  · rename_i hmay
    exact .next (.stored hmay _)
  · exact .fault

/-- Loads of two registers go on with both of them changed, or fault with neither changed. -/
theorem loadPair_follows {m : MemoryRef} {n : Nat} (h : s.loadPair rt rt2 m n = some effect) :
    Follows s effect := by
  simp only [loadPair, Option.bind_eq_bind, Option.bind_eq_some_iff] at h
  obtain ⟨a, -, t, ht, u, hu, h⟩ := h
  cases h
  split
  · exact .next ((Frames.write ht).trans (.write hu))
  · exact .fault

/-- Stores of two registers go on with both of them stored, or fault with neither stored. -/
theorem storePair_follows {m : MemoryRef} {n : Nat} (h : s.storePair rt rt2 m n = some effect) :
    Follows s effect := by
  simp only [storePair, Option.bind_eq_bind, Option.bind_eq_some_iff] at h
  obtain ⟨v, -, v2, -, a, -, h⟩ := h
  cases h
  split
  · rename_i hmay
    exact .next (.stored hmay _)
  · exact .fault

/-- **Instructions inside a line** go on or fault, and never change the program counter or where
memory lies.

**Proof sketch.** One case for each shape of instruction: what is computed goes into
registers or flags, and an access changes registers, writes bytes of memory or faults. -/
theorem step_follows {pc : Word} {inst : Instruction} (hinst : Regular inst)
    (hends : inst.op.endsLine = false) (h : s.step pc inst = some effect) : Follows s effect := by
  cases hinst with
  | sum hop => obtain rfl | rfl | rfl | rfl := hop <;> rw [step] at h <;> exact sum_follows h
  | compare hop => obtain rfl | rfl := hop <;> rw [step] at h <;> exact compareFlags_follows h
  | condCompare hop => obtain rfl | rfl := hop <;> rw [step] at h <;> exact condCompare_follows h
  | logical hop =>
    obtain rfl | rfl | rfl | rfl := hop <;> rw [step] at h <;> exact logical_follows h
  | move =>
    rw [step] at h
    obtain ⟨v, -, h⟩ := Option.bind_eq_some_iff.1 h
    exact move_follows h
  | moveWide hop =>
    obtain rfl | rfl | rfl := hop <;> rw [step] at h
    · exact move_follows h
    · exact move_follows h
    · obtain ⟨v, -, h⟩ := Option.bind_eq_some_iff.1 h
      exact move_follows h
  | address =>
    rw [step] at h
    exact move_follows h
  | word hop =>
    obtain rfl | rfl := hop <;> rw [step] at h
    · exact load_follows h
    · exact store_follows h
  | narrow hop =>
    obtain rfl | rfl | rfl | rfl := hop <;> rw [step] at h
    · exact load_follows h
    · exact load_follows h
    · exact store_follows h
    · exact store_follows h
  | pair hop =>
    obtain rfl | rfl := hop <;> rw [step] at h
    · exact loadPair_follows h
    · exact storePair_follows h
  | nop =>
    cases h
    exact .next (.refl s)
  | branch | branchCond | ret => cases hends

/-- **Instructions that end a line** leave the state alone.

**Proof sketch.** One case for each shape of instruction. Only branches and returns end a
line: a branch goes elsewhere or on, and a return halts. -/
theorem step_ends {pc : Word} {inst : Instruction} (hinst : Regular inst)
    (hends : inst.op.endsLine = true) (h : s.step pc inst = some effect) : Ends s effect := by
  cases hinst with
  | branch =>
    cases h
    exact .jump
  | branchCond =>
    rw [step] at h
    cases h
    unfold jumpIf
    split
    · exact .jump
    · exact .next
  | ret =>
    cases h
    exact .halt
  | sum hop | logical hop => obtain rfl | rfl | rfl | rfl := hop <;> cases hends
  | compare hop | condCompare hop | word hop | pair hop => obtain rfl | rfl := hop <;> cases hends
  | moveWide hop => obtain rfl | rfl | rfl := hop <;> cases hends
  | narrow hop => obtain rfl | rfl | rfl | rfl := hop <;> cases hends
  | move | address | nop => cases hends

end State

/-! ## Lines -/

/-- A word that decodes to an instruction all of whose registers are mapped. -/
def Translatable (word : Opcode) : Prop :=
  ∃ inst, decode word = some inst ∧ ∀ r ∈ inst.named, r.Mapped

/-- Whether a word is a branch or a return. -/
def endsLine (word : Opcode) : Bool :=
  (decode word).any fun inst => inst.op.endsLine

/-- The words up to and including the first branch or return. -/
def straightLine : List Opcode → List Opcode
  | [] => []
  | word :: rest => if endsLine word then [word] else word :: straightLine rest

/-- What running a straight line comes to: how it is left, with a parameter, and the state then. A
branch goes on at the program counter plus the parameter; none when a word that is reached has no
effect. -/
def lineOutcome : List Opcode → Word → State → Option (Exit × Word × State)
  | [], _, s => some (.halt, 0, s)
  | word :: rest, pc, s =>
    (decode word).bind fun inst =>
      match (s.setPc pc).step pc inst with
      | none => none
      | some (.next t) =>
        if inst.op.endsLine then some (.branch, BitVec.ofNat 64 instructionSize, t)
        else lineOutcome rest (pc + BitVec.ofNat 64 instructionSize) t
      | some (.jump distance t) => some (.branch, distance, t)
      | some (.halt t) => some (.halt, 0, t)
      | some (.fault address t) => some (.fault, address, t)

section Lines

variable {word : Opcode} {words rest : List Opcode} {pc : Word} {s t : State} {inst : Instruction}

/-- Whether a word ends a line is told by the operation it decodes to. -/
theorem endsLine_of_decode (h : decode word = some inst) : endsLine word = inst.op.endsLine := by
  rw [endsLine, h]
  rfl

/-- An instruction of a translatable word has an effect, and one of another word has none. -/
theorem translatable_iff (h : decode word = some inst) (s : State) (pc : Word) :
    Translatable word ↔ ∃ effect, s.step pc inst = some effect := by
  rw [← Option.ne_none_iff_exists', Ne, State.step_eq_none_iff (regular_of_decode h)]
  constructor
  · rintro ⟨inst', hinst', hmapped⟩ ⟨r, hr, hr'⟩
    rw [h] at hinst'
    cases hinst'
    exact hr' (hmapped r hr)
  · intro hnone
    refine ⟨inst, h, fun r hr => ?_⟩
    by_contra hr'
    exact hnone ⟨r, hr, hr'⟩

/-- The outcome of a line that its first word ends. -/
theorem lineOutcome_of_ends (h : decode word = some inst) (hends : inst.op.endsLine = true)
    {effect : Effect} (hstep : (s.setPc pc).step pc inst = some effect) :
    ∃ exit param, lineOutcome (word :: rest) pc s = some (exit, param, s.setPc pc) ∧
      (exit = .halt ∨ exit = .branch) := by
  have hcases := State.step_ends (regular_of_decode h) hends hstep
  rw [lineOutcome, h, Option.bind_some, hstep]
  cases hcases with
  | next =>
    rw [hends]
    exact ⟨_, _, rfl, .inr rfl⟩
  | jump => exact ⟨_, _, rfl, .inr rfl⟩
  | halt => exact ⟨_, _, rfl, .inl rfl⟩

/-- The outcome of a line that goes on behind its first word. -/
theorem lineOutcome_of_next (h : decode word = some inst) (hends : inst.op.endsLine = false)
    (hstep : (s.setPc pc).step pc inst = some (.next t)) :
    lineOutcome (word :: rest) pc s =
      lineOutcome rest (pc + BitVec.ofNat 64 instructionSize) t := by
  rw [lineOutcome, h, Option.bind_some, hstep]
  simp [hends]

/-- The outcome of a line whose first word faults. -/
theorem lineOutcome_of_fault (h : decode word = some inst) {address : Word}
    (hstep : (s.setPc pc).step pc inst = some (.fault address t)) :
    lineOutcome (word :: rest) pc s = some (.fault, address, t) := by
  rw [lineOutcome, h, Option.bind_some, hstep]

/-- A line that comes to a word that is not translatable has no outcome there. -/
theorem lineOutcome_of_untranslatable (h : ¬ Translatable word) :
    lineOutcome (word :: rest) pc s = none := by
  cases hinst : decode word with
  | none => rw [lineOutcome, hinst, Option.bind_none]
  | some inst =>
    rw [lineOutcome, hinst, Option.bind_some]
    cases hstep : (s.setPc pc).step pc inst with
    | none => rfl
    | some effect => exact absurd ((translatable_iff hinst _ _).2 ⟨effect, hstep⟩) h

/-- **How the outcome of a line comes about**: its first word ends it, or goes on with the rest, or
faults.

Proofs about lines go by induction on their words, and this is what they know about the first.

**Proof sketch.** The word is translatable, or there would be no outcome. If it ends the
line, its effect is a branch or a halt (`State.step_ends`), and if not, the line goes on or
faults (`State.step_follows`). -/
theorem lineOutcome_cases {exit : Exit} {param : Word}
    (h : lineOutcome (word :: rest) pc s = some (exit, param, t)) :
    ∃ inst, decode word = some inst ∧
      ((inst.op.endsLine = true ∧ (exit = .halt ∨ exit = .branch) ∧ t = s.setPc pc) ∨
        (inst.op.endsLine = false ∧ ∃ u, (s.setPc pc).step pc inst = some (.next u) ∧
          Frames (s.setPc pc) u ∧
          lineOutcome rest (pc + BitVec.ofNat 64 instructionSize) u = some (exit, param, t)) ∨
        (inst.op.endsLine = false ∧ (s.setPc pc).step pc inst = some (.fault param (s.setPc pc)) ∧
          exit = .fault ∧ t = s.setPc pc)) := by
  by_cases hword : Translatable word
  · obtain ⟨inst, hinst, -⟩ := id hword
    obtain ⟨effect, hstep⟩ := (translatable_iff hinst (s.setPc pc) pc).1 hword
    refine ⟨inst, hinst, ?_⟩
    cases hends : inst.op.endsLine with
    | true =>
      obtain ⟨exit', param', houtcome, hexit⟩ := lineOutcome_of_ends hinst hends hstep
      rw [houtcome] at h
      cases h
      exact .inl ⟨rfl, hexit, rfl⟩
    | false =>
      cases State.step_follows (regular_of_decode hinst) hends hstep with
      | next hframes =>
        rw [lineOutcome_of_next hinst hends hstep] at h
        exact .inr (.inl ⟨rfl, _, hstep, hframes, h⟩)
      | fault =>
        rw [lineOutcome_of_fault hinst hstep] at h
        cases h
        exact .inr (.inr ⟨rfl, hstep, rfl, rfl⟩)
  · rw [lineOutcome_of_untranslatable hword] at h
    cases h

/-- Lines are left by a halt, a branch or a fault. -/
theorem lineOutcome_exit {exit : Exit} {param : Word}
    (h : lineOutcome words pc s = some (exit, param, t)) :
    exit = .halt ∨ exit = .branch ∨ exit = .fault := by
  induction words generalizing pc s with
  | nil =>
    cases h
    exact .inl rfl
  | cons word rest ih =>
    obtain ⟨inst, -, ⟨-, rfl | rfl, -⟩ | ⟨-, u, -, -, hrest⟩ | ⟨-, -, rfl, -⟩⟩ :=
      lineOutcome_cases h
    · exact .inl rfl
    · exact .inr (.inl rfl)
    · exact ih hrest
    · exact .inr (.inr rfl)

/-- **Lines keep memory** where it lies, and the bytes below its limit. -/
theorem lineOutcome_kept {exit : Exit} {param : Word}
    (h : lineOutcome words pc s = some (exit, param, t)) : s.memory.Kept t.memory := by
  induction words generalizing pc s with
  | nil =>
    cases h
    exact .refl _
  | cons word rest ih =>
    obtain ⟨inst, -, ⟨-, -, rfl⟩ | ⟨-, u, -, hframes, hrest⟩ | ⟨-, -, -, rfl⟩⟩ :=
      lineOutcome_cases h
    · exact .refl _
    · exact hframes.memory.trans (ih hrest)
    · exact .refl _

/-- A line that is left by a fault is left at one of its words, and the program counter says
which. -/
theorem lineOutcome_fault_pc {param : Word}
    (h : lineOutcome words pc s = some (.fault, param, t)) : ∃ k < words.length,
      t.registers.pc = pc + BitVec.ofNat 64 (k * instructionSize) := by
  induction words generalizing pc s with
  | nil => cases h
  | cons word rest ih =>
    obtain ⟨inst, -, ⟨-, hexit, -⟩ | ⟨-, u, -, -, hrest⟩ | ⟨-, -, -, rfl⟩⟩ := lineOutcome_cases h
    · rcases hexit with hexit | hexit <;> cases hexit
    · obtain ⟨k, hk, hpc⟩ := ih hrest
      refine ⟨k + 1, Nat.succ_lt_succ hk, ?_⟩
      rw [hpc, Nat.succ_mul, Nat.add_comm, BitVec.ofNat_add, BitVec.add_assoc]
    · exact ⟨0, Nat.succ_pos _, by simp [State.setPc]⟩

/-- **Lines that are not translatable** as a whole have no outcome, or one that does not reach the
word that is not.

**Proof sketch.** By induction on the words. At the word that is not translatable there is no
outcome. Before it the line does not end, so it faults or goes on to the rest, which has the word
in it. -/
theorem lineOutcome_of_mem (h : ∃ word ∈ straightLine words, ¬ Translatable word) (pc : Word)
    (s : State) :
    lineOutcome words pc s = none ∨
      ∃ address t, lineOutcome words pc s = some (.fault, address, t) := by
  induction words generalizing pc s with
  | nil => simp [straightLine] at h
  | cons word rest ih =>
    by_cases hword : Translatable word
    · obtain ⟨inst, hinst, -⟩ := id hword
      obtain ⟨effect, hstep⟩ := (translatable_iff hinst (s.setPc pc) pc).1 hword
      obtain ⟨bad, hbad, hbad'⟩ := h
      rw [straightLine, endsLine_of_decode hinst] at hbad
      cases hends : inst.op.endsLine with
      | true =>
        rw [hends, if_pos rfl, List.mem_singleton] at hbad
        exact absurd (hbad ▸ hword) hbad'
      | false =>
        rw [hends, if_neg (by simp), List.mem_cons] at hbad
        have hrest : bad ∈ straightLine rest := hbad.resolve_left fun heq => hbad' (heq ▸ hword)
        cases State.step_follows (regular_of_decode hinst) hends hstep with
        | next hframes =>
          rw [lineOutcome_of_next hinst hends hstep]
          exact ih ⟨bad, hrest, hbad'⟩ _ _
        | fault => exact .inr ⟨_, _, lineOutcome_of_fault hinst hstep⟩
    · exact .inl (lineOutcome_of_untranslatable hword)

end Lines

end Dynarec.Guest
