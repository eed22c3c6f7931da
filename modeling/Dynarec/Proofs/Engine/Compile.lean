import Dynarec.Engine.Run
import Dynarec.Proofs.Guest.Line
import Dynarec.Proofs.Lower.Instruction

/-!
# Compiling straight lines

A straight line compiles exactly when all its words are translatable, and fails with the error of
the first word that is not. The code of a line, called with the guest registers, leaves the block as
the line is left, with the registers and the memory that the guest has then.

## Main definitions

* `Dynarec.Engine.Rejects` — the error of a word that is not translatable.
* `Dynarec.Engine.FailsAt` — the error of the first such word of a line.
* `Dynarec.Engine.LineCode` — what the code of a line is like.
* `Dynarec.Engine.Made` — a block is what compiling a stream at an entry gives.

## Main results

* `Dynarec.Engine.compileLine_spec` — when a line compiles, and what its code is like.
* `Dynarec.Engine.Made.performs` — what the code of a block does.
* `Dynarec.Engine.compile_cases` — what compiling at an entry does to an engine.
* `Dynarec.Engine.compile_ok_iff` — when compiling at an entry succeeds.
-/

set_option autoImplicit false

namespace Dynarec

/-! ## One instruction -/

namespace Lower

open Host (State)
open Code (Walked)

/-- What code shows from a state that holds the same cells and memory it shows from the state
before. -/
theorem Shows.of_held {sc : Scratch} {s t : State} {walked : Walked} {effect : Guest.Effect}
    (hheld : Held sc s t) (h : Shows t walked effect) : Shows s walked effect := by
  cases h with
  | next h => exact .next (hheld.empty.trans h)
  | jump h => exact .jump (h.of_held hheld)
  | halt h => exact .halt (h.of_held hheld)
  | fault h => exact .fault (h.of_held hheld)

/-- With no register in use there are enough of them. -/
theorem Refused.of_unused {regs : List Guest.Register} {n : Nat} {f : Failure}
    (h : Refused regs n {} f) (hn : n ≤ 9) :
    ∃ r ∈ regs, ¬ r.Mapped ∧ f = .of .unmapped (.unmappedRegister r) := by
  obtain h | ⟨hlt, -⟩ := h
  · exact h
  · have hfree : ({} : Scratch).free = 9 := by decide
    omega

end Lower

namespace Engine

open Lower (Lowers Shows Held Left Meaning)
open Code (Walked Appended Fits walk Piece Builder)

variable {dis : Guest.Disassembler}

/-- **The code of one instruction** sets the program counter and shows the effect. It fails only
for a register that is not mapped.

**Proof sketch.** The program counter is stored first, which takes no scratch register of its
own beyond the nine there are and leaves nothing else changed. The code of the instruction then
runs on the guest with that program counter (`Lower.instruction_realizes`). An error can only
name a register, since nothing is in use yet (`Lower.Refused.of_unused`). -/
theorem compileOne_lowers {inst : Guest.Instruction} (h : Guest.Regular inst) (memory : Memory)
    (pc : Word) (code : Builder) :
    Lowers (compileOne memory pc inst) { code := code }
      (fun _ e w => e.goesOn = !inst.op.endsLine ∧ ∀ s,
        ∃ effect, (s.guest.setPc pc).step pc inst = some effect ∧
          (memory.Sound ∧ memory.Alike s.memory → Shows s (w s) effect))
      (fun f => ∃ r ∈ inst.named, ¬ r.Mapped ∧ f = .of .unmapped (.unmappedRegister r)) := by
  refine .bind ((Lower.storeCellImm_lowers .pc pc { code := code }).mono (fun _ _ _ => id) ?_) ?_
  · intro f hf
    obtain ⟨r, hr, -⟩ := hf.of_unused (by omega)
    cases hr
  · rintro _ e₁ w₁ ⟨hadds, hstore⟩
    refine (Lower.instruction_realizes h pc memory e₁).mono ?_ fun f hf => ?_
    · rintro _ e₂ w₂ ⟨hgoes, hrun⟩
      refine ⟨?_, fun s => ?_⟩
      · rw [hgoes, hadds.goesOn]
        simp
      · obtain ⟨t, ht, hheld, -, hguest⟩ := hstore s
        obtain ⟨effect, hstep, hshows⟩ := hrun t
        rw [hguest] at hstep
        have hmemory : t.memory = s.memory := congrArg Guest.State.memory hguest
        refine ⟨effect, hstep, fun hmem => ?_⟩
        rw [Meaning.andThen_of_fell ht]
        exact .of_held hheld (hshows ⟨hmem.1, by rw [hmemory]; exact hmem.2⟩)
    · rw [hadds.scratch] at hf
      exact hf.of_unused (by omega)

/-! ## Lines -/

/-- The error of a word at an address that is not translatable. -/
def Rejects (pc : Word) (word : Opcode) (f : Failure) : Prop :=
  (Guest.decode word = none ∧ f = .ofAt .decode pc (.rejected word)) ∨
    ∃ inst r, Guest.decode word = some inst ∧ r ∈ inst.named ∧ ¬ r.Mapped ∧
      f = .ofAt .unmapped pc (.unmappedRegister r)

/-- A word that is rejected is not translatable: it does not decode, or it names a register that
is not mapped. -/
theorem Rejects.not_translatable {pc : Word} {word : Opcode} {f : Failure}
    (h : Rejects pc word f) : ¬ Guest.Translatable word := by
  rintro ⟨inst, hinst, hmapped⟩
  obtain ⟨hnone, -⟩ | ⟨inst', r, hinst', hr, hunmapped, -⟩ := h
  · rw [hnone] at hinst
    cases hinst
  · rw [hinst] at hinst'
    cases hinst'
    exact hunmapped (hmapped r hr)

/-- The exit behind a line, by whether an instruction ended it. -/
def IsTail (stopped : Bool) (tail : Meaning) : Prop :=
  ∀ s, ∃ u, tail s = .returned u ∧
    Left (if stopped then .branch else .halt)
      (if stopped then BitVec.ofNat 64 Guest.instructionSize else 0) s.guest s u

/-- The code of a line with the exit behind it leaves the block as the line is left. -/
def Follows (memory : Memory) (words : List Opcode) (pc : Word) (w : Meaning) : Prop :=
  ∀ s, memory.Sound ∧ memory.Alike s.memory → ∃ exit param g u,
    Guest.lineOutcome words pc s.guest = some (exit, param, g) ∧ w s = .returned u ∧
      Left exit param g s u

/-- The code of a line: what a line that compiles is like. -/
structure LineCode (memory : Memory) (words : List Opcode) (pc : Word) (code : Builder)
    (line : Line) (P : List Piece) : Prop where
  appended : Appended code line.code P
  fits : Fits P
  count : line.count = (Guest.straightLine words).length
  run : ∀ tail, IsTail line.stopped tail →
    Follows memory words pc (Meaning.andThen (walk 0 P) tail)

/-- A line is compiled word by word, until one is rejected or ends the line. The error of a word
is given the address of that word. -/
theorem compileLine_cons {memory : Memory} {word : Opcode} {rest : List Opcode} {pc : Word}
    {code : Builder} {inst : Guest.Instruction} (hinst : Guest.decode word = some inst) :
    (compileLine memory (word :: rest) pc code).2 =
      match (compileOne memory pc inst).runOn { code := code } with
      | (.error f, _) => .error (f.attributeTo pc .encoding)
      | (.ok (), e) =>
        if e.goesOn then
          (compileLine memory rest (pc + BitVec.ofNat 64 Guest.instructionSize) e.code).2.map
            fun line => { line with count := line.count + 1 }
        else .ok { code := e.code, count := 1, stopped := true } := by
  rw [compileLine, Guest.decodeAccepted_eq, hinst]
  dsimp only
  rcases (compileOne memory pc inst).runOn { code := code } with ⟨f | _, e⟩
  · rfl
  · dsimp only
    split <;> rfl

/-- The first word of a line that is not translatable, and the error it gives. -/
def FailsAt (words : List Opcode) (pc : Word) (f : Failure) : Prop :=
  ∃ front word back, Guest.straightLine words = front ++ word :: back ∧
    (∀ w ∈ front, Guest.Translatable w) ∧
      Rejects (pc + BitVec.ofNat 64 (front.length * Guest.instructionSize)) word f

/-- A line whose first word is rejected fails there. -/
theorem FailsAt.head {word : Opcode} {rest : List Opcode} {pc : Word} {f : Failure}
    (h : Rejects pc word f) : FailsAt (word :: rest) pc f := by
  obtain ⟨back, hback⟩ : ∃ back, Guest.straightLine (word :: rest) = word :: back := by
    rw [Guest.straightLine]
    split
    · exact ⟨_, rfl⟩
    · exact ⟨_, rfl⟩
  refine ⟨[], word, back, hback, by simp, ?_⟩
  simpa using h

/-- A line fails behind a translatable word where the rest fails: addresses of the rest are
counted from one word further back. -/
theorem FailsAt.cons {word : Opcode} {rest : List Opcode} {pc : Word} {f : Failure}
    (hword : Guest.Translatable word) (hends : Guest.endsLine word = false)
    (h : FailsAt rest (pc + BitVec.ofNat 64 Guest.instructionSize) f) :
    FailsAt (word :: rest) pc f := by
  obtain ⟨front, bad, back, hline, hfront, hbad⟩ := h
  refine ⟨word :: front, bad, back, ?_, ?_, ?_⟩
  · rw [Guest.straightLine, hends, hline]
    simp
  · simpa using ⟨hword, hfront⟩
  · have hpc : pc + BitVec.ofNat 64 ((word :: front).length * Guest.instructionSize) =
        pc + BitVec.ofNat 64 Guest.instructionSize +
          BitVec.ofNat 64 (front.length * Guest.instructionSize) := by
      rw [List.length_cons, Nat.succ_mul, Nat.add_comm, BitVec.ofNat_add, BitVec.add_assoc]
    rwa [hpc]

section Lines

variable {memory : Memory} {word : Opcode} {rest : List Opcode} {pc : Word} {code : Builder}
variable {inst : Guest.Instruction} {e : Lower.Emission} {P : List Piece}

/-- The code of a line that its first word ends.

**Proof sketch.** If the code falls through, it is the tail that leaves, by a branch to the
next instruction. If it returns, it has left as the effect says. It cannot leave with a fault,
because what ends a line accesses no memory (`Guest.State.step_ends`). -/
theorem LineCode.last (hinst : Guest.decode word = some inst) (hends : inst.op.endsLine = true)
    (happ : Appended code e.code P) (hfits : Fits P)
    (hrun : ∀ s, ∃ effect, (s.guest.setPc pc).step pc inst = some effect ∧
      (memory.Sound ∧ memory.Alike s.memory → Shows s (walk 0 P s) effect)) :
    LineCode memory (word :: rest) pc code { code := e.code, count := 1, stopped := true } P where
  appended := happ
  fits := hfits
  count := by
    rw [Guest.straightLine, Guest.endsLine_of_decode hinst, hends]
    rfl
  run tail htail s hs := by
    obtain ⟨effect, hstep, hshows⟩ := hrun s
    have hshows := hshows hs
    generalize hwalk : walk 0 P s = walked at hshows
    rw [Guest.lineOutcome, hinst, Option.bind_some, hstep]
    cases hshows with
    | @next t hheld =>
      obtain ⟨u, hu, hleft⟩ := htail t
      refine ⟨.branch, BitVec.ofNat 64 Guest.instructionSize, t.guest, u, ?_, ?_, ?_⟩
      · simp only [hends, if_true]
      · rw [Meaning.andThen_of_fell hwalk, hu]
      · exact hleft.of_held hheld
    | jump hleft => exact ⟨_, _, _, _, rfl, Meaning.andThen_of_returned hwalk _, hleft⟩
    | halt hleft => exact ⟨_, _, _, _, rfl, Meaning.andThen_of_returned hwalk _, hleft⟩
    | fault hleft => cases Guest.State.step_ends (Guest.regular_of_decode hinst) hends hstep

/-- The code of a line that goes on behind its first word.

**Proof sketch.** If the code of the first word falls through, the rest is run from a state
with memory at the same place, and what it comes to is the outcome of the line
(`Guest.lineOutcome_of_next`). If it returns, it has faulted, since an instruction inside a line
does nothing else (`Guest.State.step_follows`). -/
theorem LineCode.cons (hinst : Guest.decode word = some inst) (hends : inst.op.endsLine = false)
    (happ : Appended code e.code P) (hfits : Fits P)
    (hrun : ∀ s, ∃ effect, (s.guest.setPc pc).step pc inst = some effect ∧
      (memory.Sound ∧ memory.Alike s.memory → Shows s (walk 0 P s) effect))
    {line : Line} {Q : List Piece}
    (h : LineCode memory rest (pc + BitVec.ofNat 64 Guest.instructionSize) e.code line Q) :
    LineCode memory (word :: rest) pc code { line with count := line.count + 1 } (P ++ Q) where
  appended := happ.trans h.appended
  fits := hfits.append h.fits
  count := by
    rw [Guest.straightLine, Guest.endsLine_of_decode hinst, hends, h.count]
    rfl
  run tail htail s hs := by
    obtain ⟨effect, hstep, hshows⟩ := hrun s
    have hshows := hshows hs
    have hwalks : Meaning.andThen (walk 0 (P ++ Q)) tail =
        Meaning.andThen (walk 0 P) (Meaning.andThen (walk 0 Q) tail) := by
      rw [← Meaning.andThen_assoc]
      congr 1
      exact funext (Code.walk_append hfits Q)
    rw [hwalks]
    generalize hwalk : walk 0 P s = walked at hshows
    have hfollows := Guest.State.step_follows (Guest.regular_of_decode hinst) hends hstep
    cases hshows with
    | @next t hheld =>
      cases hfollows with
      | next hframes =>
        obtain ⟨exit, param, g, u, houtcome, hu, hleft⟩ :=
          h.run tail htail t ⟨hs.1, hs.2.trans hframes.memory.toAlike⟩
        refine ⟨exit, param, g, u, ?_, ?_, hleft.of_held hheld⟩
        · rw [Guest.lineOutcome_of_next hinst hends hstep, houtcome]
        · rw [Meaning.andThen_of_fell hwalk, hu]
    | jump hleft | halt hleft => cases hfollows
    | fault hleft =>
      exact ⟨_, _, _, _, Guest.lineOutcome_of_fault hinst hstep,
        Meaning.andThen_of_returned hwalk _, hleft⟩

end Lines

/-- **Compiling a line** succeeds if all its words are translatable, with code that follows the
line, and otherwise fails with the error of the first word that is not.

**Proof sketch.** By induction on the words. The code of the first word shows its effect; if the
word ends the line this is all the code there is, and otherwise the rest of the line is compiled
behind it. -/
theorem compileLine_spec [Guest.Disassembler] (memory : Memory) (words : List Opcode) (pc : Word)
    (code : Builder) :
    match (compileLine memory words pc code).2 with
    | .ok line => (∀ word ∈ Guest.straightLine words, Guest.Translatable word) ∧
        ∃ P, LineCode memory words pc code line P
    | .error f => FailsAt words pc f := by
  induction words generalizing pc code with
  | nil =>
    refine ⟨by simp [Guest.straightLine], [], .refl code, trivial, rfl, fun tail htail s _ => ?_⟩
    obtain ⟨u, hu, hleft⟩ := htail s
    have hnone : Meaning.andThen (walk 0 []) tail = tail := by
      rw [show walk 0 [] = Walked.fell from funext (Code.walk_nil 0), Meaning.fell_andThen]
    rw [hnone]
    exact ⟨.halt, 0, s.guest, u, rfl, hu, hleft⟩
  | cons word rest ih =>
    cases hinst : Guest.decode word with
    | none =>
      rw [compileLine, Guest.decodeAccepted_eq, hinst]
      exact .head (.inl ⟨hinst, rfl⟩)
    | some inst =>
      rw [compileLine_cons hinst]
      have hone := compileOne_lowers (Guest.regular_of_decode hinst) memory pc code
      rcases hact : (compileOne memory pc inst).runOn { code := code } with ⟨f | _, e⟩
      · obtain ⟨r, hr, hunmapped, rfl⟩ := hone.of_error hact
        refine .head (.inr ⟨inst, r, hinst, hr, hunmapped, ?_⟩)
        rfl
      · obtain ⟨P, happ, hfits, hgoes, hrun⟩ := hone.of_ok hact
        have hword : Guest.Translatable word := by
          obtain ⟨effect, hstep, -⟩ := hrun (entryState {} memory)
          exact (Guest.translatable_iff hinst _ _).2 ⟨effect, hstep⟩
        dsimp only
        rw [hgoes]
        cases hends : inst.op.endsLine with
        | true =>
          refine ⟨?_, P, .last hinst hends happ hfits hrun⟩
          rw [Guest.straightLine, Guest.endsLine_of_decode hinst, hends]
          simpa using hword
        | false =>
          have hnext := ih (pc + BitVec.ofNat 64 Guest.instructionSize) e.code
          simp only [Bool.not_false, if_true]
          cases hline : (compileLine memory rest
              (pc + BitVec.ofNat 64 Guest.instructionSize) e.code).2 with
          | error f =>
            rw [hline] at hnext
            exact .cons hword (by rw [Guest.endsLine_of_decode hinst, hends]) hnext
          | ok line =>
            rw [hline] at hnext
            obtain ⟨hrest, Q, hQ⟩ := hnext
            refine ⟨?_, P ++ Q, .cons hinst hends happ hfits hrun hQ⟩
            rw [Guest.straightLine, Guest.endsLine_of_decode hinst, hends]
            simpa using ⟨hword, hrest⟩

/-! ## Finished code -/

/-- The code of an exit. -/
theorem exists_exit (kind : Exit) (param : Word) (code : Builder) :
    ∃ T, Appended code ((Lower.exit kind param).runOn { code := code }).2.code T ∧ Fits T ∧
      ∀ s, ∃ u, walk 0 T s = .returned u ∧ Left kind param s.guest s u := by
  have hexit := Lower.exit_lowers kind param { code := code } fun _ => False
  rcases hact : (Lower.exit kind param).runOn { code := code } with ⟨f | _, e⟩
  · exact (hexit.of_error hact).elim
  · obtain ⟨T, happ, hfits, -, hrun⟩ := hexit.of_ok hact
    exact ⟨T, happ, hfits, hrun⟩

/-- The code of the exit behind a line. -/
theorem exists_tail (line : Line) : ∃ T, Appended line.code line.withTail T ∧ Fits T ∧
    IsTail line.stopped (walk 0 T) := by
  unfold Line.withTail IsTail
  cases line.stopped with
  | true => exact exists_exit .branch (BitVec.ofNat 64 Guest.instructionSize) line.code
  | false => exact exists_exit .halt 0 line.code

/-- The code of a line does what the line does when it is called in sound memory. -/
def Performs (memory : Memory) (words : List Opcode) (pc : Word) (program : Host.Program) : Prop :=
  ∀ g : Guest.State, memory.Sound → memory.Alike g.memory → ∃ exit param t,
    Guest.lineOutcome words pc g = some (exit, param, t) ∧
      callCode program g.registers g.memory =
        some { exit := exit, param := param, registers := t.registers, memory := t.memory }

/-- Code that leaves the block as a line is left does so when it is called. -/
theorem performs_place {memory : Memory} {words : List Opcode} {pc : Word} {P : List Piece}
    (h : Follows memory words pc (walk 0 P)) : Performs memory words pc (Code.place 0 P) := by
  intro g hmem halike
  obtain ⟨exit, param, t, u, houtcome, hu, hleft⟩ := h (entryState g.registers g.memory)
    ⟨hmem, halike⟩
  refine ⟨exit, param, t, houtcome, ?_⟩
  have hnumber : Exit.ofNumber exit.number = exit := by
    obtain rfl | rfl | rfl := Guest.lineOutcome_exit houtcome <;> rfl
  have hguest : u.cells = t.registers ∧ u.memory = t.memory :=
    ⟨congrArg Guest.State.registers hleft.guest, congrArg Guest.State.memory hleft.guest⟩
  rw [callCode, Code.run_place, hu]
  simp only [Walked.outcome, hleft.kind, hnumber, hleft.param, hguest]

/-- **The code of a line** can be finalized, with any pages in use before, and then does what the
line does.

**Proof sketch.** The tail is pieces as well, so the whole block has grown from nothing by
well-formed pieces and can be assembled. There is at least one of them, since a tail returns and
no pieces fall through; so there are bytes for the pool to take. -/
theorem LineCode.finalize {memory : Memory} {words : List Opcode} {pc : Word} {line : Line}
    {P : List Piece} (h : LineCode memory words pc {} line P) (pool : Code.Pool) :
    ∃ code pool', (line.withTail.finalize pool).2 = .ok (code, pool') ∧
      line.withTail.assemble = .ok code ∧ Performs memory words pc code.program := by
  obtain ⟨T, happ, hfits, htail⟩ := exists_tail line
  have happ' := h.appended.trans happ
  have hfits' := h.fits.append hfits
  obtain ⟨code, hcode, hprogram, hbytes⟩ := happ'.assemble hfits'
  have hrun := h.run (walk 0 T) htail
  have hwalks : Meaning.andThen (walk 0 P) (walk 0 T) = walk 0 (P ++ T) :=
    (funext (Code.walk_append h.fits T)).symm
  rw [hwalks] at hrun
  have hne : P ++ T ≠ [] := by
    intro hnil
    obtain ⟨u, hu, -⟩ := htail (entryState {} memory)
    rw [(List.append_eq_nil_iff.1 hnil).2, Code.walk_nil] at hu
    cases hu
  have hsome : code.bytes.isEmpty = false := by
    simpa using hbytes hne
  have hopen : line.withTail.finalized = false := happ'.finalized
  obtain ⟨pool', hpool⟩ : ∃ pool', pool.allocate code.bytes = .ok pool' := by
    rw [Code.Pool.allocate, hsome]
    exact ⟨_, rfl⟩
  refine ⟨code, pool', ?_, hcode, ?_⟩
  · rw [Builder.finalize, hopen, hcode]
    show (pool.allocate code.bytes >>= fun pool => Except.ok (code, pool)) = _
    rw [hpool]
    rfl
  · rw [hprogram]
    exact performs_place hrun

/-! ## Blocks -/

/-- The words of a stream from an offset on. -/
def wordsAt (text : List Opcode) (entry : Word) : List Opcode :=
  text.drop (entry.toNat / Guest.instructionSize)

/-- The block is what compiling a stream at an entry against some memory gives. -/
structure Made [Guest.Disassembler] (text : List Opcode) (loadBias : Word) (memory : Memory)
    (b : Block) : Prop where
  aligned : b.entry.toNat % Guest.instructionSize = 0
  inside : b.entry < BitVec.ofNat 64 (text.length * Guest.instructionSize)
  line : ∃ line, (compileLine memory (wordsAt text b.entry) (loadBias + b.entry) {}).2 = .ok line ∧
    line.withTail.assemble = .ok b.code
  cellsBase : b.cellsBase = Cell.hostBase
  memoryBase : b.memoryBase = memory.hostAddress

section Blocks

variable {text : List Opcode} {loadBias : Word} {memory : Memory} {b : Block}

/-- The words of a block are translatable. -/
theorem Made.translatable (h : Made text loadBias memory b) :
    ∀ word ∈ Guest.straightLine (wordsAt text b.entry), Guest.Translatable word := by
  obtain ⟨line, hline, -⟩ := h.line
  have hspec := compileLine_spec memory (wordsAt text b.entry) (loadBias + b.entry) {}
  rw [hline] at hspec
  exact hspec.1

/-- **The code of a block** does what the line at its entry does. -/
theorem Made.performs (h : Made text loadBias memory b) :
    Performs memory (wordsAt text b.entry) (loadBias + b.entry) b.code.program := by
  obtain ⟨line, hline, hcode⟩ := h.line
  have hspec := compileLine_spec memory (wordsAt text b.entry) (loadBias + b.entry) {}
  rw [hline] at hspec
  obtain ⟨-, P, hP⟩ := hspec
  obtain ⟨code, pool, -, hassemble, hperforms⟩ := hP.finalize {}
  rw [hassemble] at hcode
  cases hcode
  exact hperforms

end Blocks

/-- The engine with a block more. -/
def addBlock (e : Engine) (pool : Code.Pool) (b : Block) : Engine :=
  { e with cache := e.cache.add b, pool := pool, compilations := e.compilations + 1 }

/-- Compiling at an entry that is not cached, step by step. -/
theorem compile_of_isEntry {e : Engine} {entry : Word} (hnew : e.find? entry = none)
    (hentry : e.isEntry entry = true) : e.compile entry =
      match compileLine e.memory (wordsAt e.text entry) (e.loadBias + entry) {} with
      | (events, .error f) => (e.note events, .error f)
      | (events, .ok line) =>
        match (line.withTail.finalize e.pool).2 with
        | .error f => (e.note events, .error (f.attributeTo (e.loadBias + entry) .encoding))
        | .ok (code, pool) =>
          ((e.addBlock pool (e.blockOf entry line code)).note
              (events ++ [Event.compiled (e.loadBias + entry) line.count code]),
            .ok (e.blockOf entry line code)) := by
  rw [compile, hnew, hentry]
  simp only [Bool.not_true, Bool.false_eq_true, if_false, wordsAt]
  rcases compileLine e.memory (e.text.drop (entry.toNat / Guest.instructionSize))
    (e.loadBias + entry) {} with ⟨events, f | line⟩
  · rfl
  · dsimp only [note]
    rcases (line.withTail.finalize e.pool).2 with f | ⟨code, pool⟩
    · rfl
    · simp [addBlock, blockOf]

/-- **What compiling does** at an entry that is not cached: it refuses an entry that is none, fails
at the first word that is not translatable, or adds a block.

**Proof sketch.** An offset that is no entry is refused at once. Otherwise compiling the line
says what happens (`compileLine_spec`): its error is that of the first word that is not
translatable, and if there is none its code can be finalized with the pages in use
(`LineCode.finalize`). -/
theorem compile_cases [Guest.Disassembler] {e : Engine} {entry : Word}
    (hnew : e.find? entry = none) :
    (e.isEntry entry = false ∧ e.compile entry =
        (e, .error (.ofAt .fault (e.loadBias + entry) (.entry entry e.text.length)))) ∨
    (e.isEntry entry = true ∧ ∃ events f,
        FailsAt (wordsAt e.text entry) (e.loadBias + entry) f ∧
          e.compile entry = (e.note events, .error f)) ∨
    (e.isEntry entry = true ∧ ∃ events pool b, b.entry = entry ∧
        Made e.text e.loadBias e.memory b ∧
          e.compile entry = ((e.addBlock pool b).note events, .ok b)) := by
  cases hentry : e.isEntry entry with
  | false =>
    refine .inl ⟨rfl, ?_⟩
    rw [compile, hnew, hentry]
    rfl
  | true =>
    refine .inr ?_
    have hspec := compileLine_spec e.memory (wordsAt e.text entry) (e.loadBias + entry) {}
    obtain ⟨haligned, hinside⟩ : entry.toNat % Guest.instructionSize = 0 ∧
        entry < e.streamSize := by simpa [isEntry] using hentry
    rw [compile_of_isEntry hnew hentry]
    rcases hline : compileLine e.memory (wordsAt e.text entry) (e.loadBias + entry) {} with
      ⟨events, f | line⟩
    · rw [hline] at hspec
      exact .inl ⟨rfl, events, f, hspec, rfl⟩
    · rw [hline] at hspec
      obtain ⟨-, P, hP⟩ := hspec
      obtain ⟨code, pool, hfinal, hassemble, -⟩ := hP.finalize e.pool
      refine .inr ⟨rfl, events ++ [.compiled (e.loadBias + entry) line.count code], pool,
        e.blockOf entry line code, rfl, ?_, ?_⟩
      · exact ⟨haligned, hinside, ⟨line, by rw [blockOf, hline], hassemble⟩, rfl, rfl⟩
      · simp only [hfinal]

/-! ## Which lines compile -/

/-- A line that fails has a word that is not translatable. -/
theorem FailsAt.exists_mem {words : List Opcode} {pc : Word} {f : Failure}
    (h : FailsAt words pc f) : ∃ word ∈ Guest.straightLine words, ¬ Guest.Translatable word := by
  obtain ⟨front, word, back, hline, -, hword⟩ := h
  refine ⟨word, ?_, hword.not_translatable⟩
  rw [hline]
  exact List.mem_append_right _ (List.mem_cons_self ..)

/-- **Compiling at an entry that is not cached.** An offset where no instruction stands is refused.
At any other, compiling succeeds exactly when every word of the straight line is translatable;
otherwise its error is that of the first word that is not, at that word's address. A failure leaves
everything as it was but the journal.

**Proof sketch.** The three cases of `compile_cases`. A line that fails has a word that is
not translatable (`FailsAt.exists_mem`), and all words of a line that compiled are translatable
(`Made.translatable`), so the two cases exclude each other as the statement says. -/
theorem compile_ok_iff (e : Engine) (entry : Word) (hnew : e.find? entry = none) :
    (¬ (entry.toNat % Guest.instructionSize = 0 ∧ entry < e.streamSize) →
      e.compile entry =
        (e, .error (.ofAt .fault (e.loadBias + entry) (.entry entry e.text.length)))) ∧
    (entry.toNat % Guest.instructionSize = 0 ∧ entry < e.streamSize →
      ((∃ b, (e.compile entry).2 = .ok b) ↔
        ∀ word ∈ Guest.straightLine (wordsAt e.text entry), Guest.Translatable word) ∧
      ∀ f, (e.compile entry).2 = .error f →
        FailsAt (wordsAt e.text entry) (e.loadBias + entry) f ∧
          ∃ events, (e.compile entry).1 = e.note events) := by
  have hentry : e.isEntry entry = true ↔
      entry.toNat % Guest.instructionSize = 0 ∧ entry < e.streamSize := by simp [isEntry]
  rw [← hentry]
  obtain ⟨hout, hcompile⟩ | ⟨hin, events, f, hfails, hcompile⟩ |
    ⟨hin, events, pool, b, rfl, hmade, hcompile⟩ := compile_cases hnew
  · refine ⟨fun _ => hcompile, fun hin => ?_⟩
    rw [hout] at hin
    cases hin
  · refine ⟨fun hout => absurd hin hout, fun _ => ?_⟩
    rw [hcompile]
    refine ⟨⟨?_, fun hall => ?_⟩, fun f' hf => ?_⟩
    · rintro ⟨b, hb⟩
      cases hb
    · obtain ⟨word, hword, hnot⟩ := hfails.exists_mem
      exact absurd (hall word hword) hnot
    · cases hf
      exact ⟨hfails, events, rfl⟩
  · refine ⟨fun hout => absurd hin hout, fun _ => ?_⟩
    rw [hcompile]
    refine ⟨⟨fun _ => hmade.translatable, fun _ => ⟨b, rfl⟩⟩, fun f hf => ?_⟩
    cases hf

/-- A word that is no instruction keeps the line that runs up to it from compiling. -/
theorem compile_line_to_zero :
    let _ : Guest.Disassembler := .least
    let e : Engine := { text := [0xd503201f, 0], loadBias := 0x10000, memory := .closed 0 0 }
    e.find? 0 = none ∧ ¬ ∃ b, (e.compile 0).2 = .ok b := by
  refine ⟨rfl, fun hok => ?_⟩
  obtain ⟨inst, hinst, -⟩ := ((compile_ok_iff _ 0 rfl).2 (by decide)).1.1 hok 0 (by decide)
  cases (show Guest.decode 0 = none by decide).symm.trans hinst

end Engine

end Dynarec
