import Dynarec.Proofs.Engine.Blocks
import Dynarec.Proofs.Engine.Execution
import Dynarec.Proofs.Engine.Refinement

/-!
# Faults and the blocks they name

A run that ends with a fault was executing a block when one of its instructions made an access that
memory does not admit, and the error carries the address of that instruction. The block that the
error names is looked up afterwards: of the cached blocks that cover the instruction it is the one
with the greatest entry. It ends where the block that was executed ends, but it is that block only
if none has been cached that is entered between the two.

## Main definitions

* `Dynarec.Guest.State.Calm` — an effect is no fault.
* `Dynarec.Engine.Refuses` — an instruction makes an access that memory does not admit.
* `Dynarec.Engine.Trips` — an instruction of a line does, at the program counter.

## Main results

* `Dynarec.Engine.Made.trips` — code that leaves with a fault, in any memory.
* `Dynarec.Engine.run_fault_block` — what an error of a faulting run says.
-/

set_option autoImplicit false

namespace Dynarec

/-! ## Instructions that cannot fault -/

namespace Guest.State

variable {s : State}

/-- The effect, if there is one, is no fault. -/
structure Calm (r : Option Effect) : Prop where
  ne_fault : ∀ address t, r ≠ some (.fault address t)

/-- A computation that goes on without a fault has none. -/
theorem Calm.bind {α : Type} {f : α → Option Effect} (o : Option α) (h : ∀ a, Calm (f a)) :
    Calm (o.bind f) := by
  cases o with
  | none => exact ⟨by simp⟩
  | some a => exact h a

/-- Going on with the next instruction is no fault. -/
theorem Calm.map_next {α : Type} (o : Option α) (f : α → State) :
    Calm (o.map fun a => .next (f a)) := by
  cases o <;> exact ⟨by simp⟩

/-- Sums do not fault. -/
theorem calm_sum (s : State) (rd rn : Register) (src : Operand) (sub flags : Bool) :
    Calm (s.sum rd rn src sub flags) :=
  .bind _ fun _ => .bind _ fun _ => .bind _ fun _ => ⟨by simp⟩

/-- Logical operations do not fault. -/
theorem calm_logical (s : State) (rd rn : Register) (src : Operand) (op : Bitwise) (flags : Bool) :
    Calm (s.logical rd rn src op flags) :=
  .bind _ fun _ => .bind _ fun _ => .bind _ fun _ => ⟨by simp⟩

/-- Conditional comparisons do not fault. -/
theorem calm_condCompare (s : State) (rn : Register) (src : Operand) (nzcv : Word) (c : Condition)
    (sub : Bool) : Calm (s.condCompare rn src nzcv c sub) :=
  .bind _ fun _ => ⟨by simp⟩

/-- Moves do not fault. -/
theorem calm_move (s : State) (rd : Register) (v : Word) : Calm (s.move rd v) :=
  .map_next _ id

/-- An instruction that accesses no memory does not fault.

**Proof sketch.** One case for each shape of instruction. What is computed from registers
goes on or has no effect at all; a branch or a return leaves; and what is left are the accesses,
which are excluded. -/
theorem calm_step {inst : Instruction} (h : Regular inst) (hacc : inst.access? = none) (pc : Word) :
    Calm (s.step pc inst) := by
  cases h with
  | sum hop => obtain rfl | rfl | rfl | rfl := hop <;> rw [step] <;> exact calm_sum ..
  | logical hop => obtain rfl | rfl | rfl | rfl := hop <;> rw [step] <;> exact calm_logical ..
  | compare hop => obtain rfl | rfl := hop <;> rw [step] <;> exact .map_next ..
  | condCompare hop => obtain rfl | rfl := hop <;> rw [step] <;> exact calm_condCompare ..
  | move =>
    rw [step]
    exact .bind _ fun _ => calm_move ..
  | moveWide hop =>
    obtain rfl | rfl | rfl := hop <;> rw [step]
    · exact calm_move ..
    · exact calm_move ..
    · exact .bind _ fun _ => calm_move ..
  | address =>
    rw [step]
    exact calm_move ..
  | branch | ret | nop => exact ⟨by simp [step]⟩
  | branchCond =>
    refine ⟨fun address t => ?_⟩
    simp only [step, jumpIf]
    split <;> simp
  | word hop | pair hop => obtain rfl | rfl := hop <;> cases hacc
  | narrow hop => obtain rfl | rfl | rfl | rfl := hop <;> cases hacc

end Guest.State

namespace Engine

open Lower (Lowers Meaning Left)
open Code (Appended Fits walk Piece Builder)

/-! ## Accesses that are refused -/

/-- The instruction accesses an address, taken from the registers as they are, where memory does not
admit the access. -/
def Refuses (memory : Memory) (inst : Guest.Instruction) (address : Word) (g : Guest.State) :
    Prop :=
  ∃ write ref n, inst.access? = some (write, ref, n) ∧ g.address ref = some address ∧
    memory.admits write address (BitVec.ofNat 64 n) = false

/-- The program counter stands at a word of the line from `pc` on whose instruction makes an access
that memory does not admit. -/
def Trips (memory : Memory) (words : List Opcode) (pc address : Word) (g : Guest.State) : Prop :=
  ∃ k word inst, (Guest.straightLine words)[k]? = some word ∧ Guest.decode word = some inst ∧
    g.registers.pc = pc + BitVec.ofNat 64 (k * Guest.instructionSize) ∧
      Refuses memory inst address g

section Trips

variable {memory : Memory} {word : Opcode} {rest : List Opcode} {pc address : Word}
variable {inst : Guest.Instruction} {g : Guest.State}

/-- A line trips at its first word if the program counter stands there and the access of that
word is refused. -/
theorem Trips.head (hinst : Guest.decode word = some inst) (hpc : g.registers.pc = pc)
    (h : Refuses memory inst address g) : Trips memory (word :: rest) pc address g := by
  refine ⟨0, word, inst, ?_, hinst, by simpa using hpc, h⟩
  rw [Guest.straightLine_cons, List.getElem?_cons_zero]

/-- A line trips behind its first word, which does not end it, where the rest trips: the program
counters are the same, counted from one word further back. -/
theorem Trips.cons (hends : Guest.endsLine word = false)
    (h : Trips memory rest (pc + BitVec.ofNat 64 Guest.instructionSize) address g) :
    Trips memory (word :: rest) pc address g := by
  obtain ⟨k, word', inst, hword, hinst, hpc, hrefuses⟩ := h
  refine ⟨k + 1, word', inst, ?_, hinst, ?_, hrefuses⟩
  · rw [Guest.straightLine_cons, hends, List.getElem?_cons_succ]
    exact hword
  · rw [hpc, Nat.succ_mul, Nat.add_comm, BitVec.ofNat_add, BitVec.add_assoc]

end Trips

/-! ## Code that leaves with a fault -/

/-- The code leaves with a fault only where an instruction of the line makes an access that memory
does not admit. -/
def FaultsOnly (memory : Memory) (words : List Opcode) (pc : Word) (w : Meaning) : Prop :=
  ∀ s u, w s = .returned u → u.reg .rax = Exit.fault.number →
    Trips memory words pc (u.reg .rdx) u.guest

/-- Code in sequence leaves with a fault only where one of its parts does. -/
theorem FaultsOnly.andThen {memory : Memory} {words : List Opcode} {pc : Word} {w v : Meaning}
    (hw : FaultsOnly memory words pc w) (hv : FaultsOnly memory words pc v) :
    FaultsOnly memory words pc (w.andThen v) := by
  intro s u hu hfault
  cases hws : w s with
  | fell t =>
    rw [Meaning.andThen_of_fell hws] at hu
    exact hv t u hu hfault
  | returned t =>
    rw [Meaning.andThen_of_returned hws] at hu
    exact hw s u (hws.trans hu) hfault
  | trapped =>
    rw [Meaning.andThen, hws] at hu
    cases hu

/-- The code of an instruction leaves with a fault only for its own access, in any memory.

**Proof sketch.** An access returns only where it is not admitted, and then with the address
(`Lower.instruction_performs`). Any other instruction returns as its effect says, which is no
fault (`Guest.State.calm_step`). -/
theorem instruction_faults {inst : Guest.Instruction} (h : Guest.Regular inst) (memory : Memory)
    (pc : Word) (e : Lower.Emission) :
    Lowers (Lower.instruction pc (some memory) inst) e
      (fun _ _ w => ∀ s u, w s = .returned u → u.reg .rax = Exit.fault.number →
        u.guest = s.guest ∧ Refuses memory inst (u.reg .rdx) s.guest)
      (Lower.Refused inst.named 7 e.scratch) := by
  cases hacc : inst.access? with
  | some access =>
    obtain ⟨write, ref, n⟩ := access
    obtain ⟨after, -, hlower⟩ := Lower.instruction_performs h hacc pc
    refine (hlower memory e).mono ?_ fun f hf => hf
    rintro _ e' w ⟨-, hperforms⟩ s u hu -
    obtain ⟨address, g, haddress, -, hrun⟩ := hperforms s
    split at hrun
    · exact absurd hu (hrun.1 u)
    · rename_i hadmits
      obtain ⟨u', hu', hleft⟩ := hrun
      obtain rfl : u = u' := by
        rw [hu] at hu'
        cases hu'
        rfl
      rw [hleft.param]
      exact ⟨hleft.guest, write, ref, n, hacc, haddress, by simpa using hadmits⟩
  | none =>
    refine (Lower.instruction_realizes_of_pure h hacc pc (some memory) e).mono ?_ fun f hf => hf
    rintro _ e' w ⟨-, hrun⟩ s u hu hfault
    obtain ⟨effect, hstep, hshows⟩ := hrun s
    have hshows := hshows trivial
    rw [hu] at hshows
    cases hshows with
    | jump hleft | halt hleft =>
      rw [hleft.kind] at hfault
      cases hfault
    | fault hleft => exact absurd hstep ((Guest.State.calm_step h hacc pc).ne_fault _ _)

/-- The code of one instruction of a line leaves with a fault only for its own access, with the
program counter set.

**Proof sketch.** The program counter is stored before the instruction runs, and nothing else
of the guest is changed. -/
theorem compileOne_faults {inst : Guest.Instruction} (h : Guest.Regular inst) (memory : Memory)
    (pc : Word) (code : Builder) :
    Lowers (compileOne memory pc inst) { code := code }
      (fun _ _ w => ∀ s u, w s = .returned u → u.reg .rax = Exit.fault.number →
        u.guest.registers.pc = pc ∧ Refuses memory inst (u.reg .rdx) u.guest)
      fun _ => True := by
  refine .bind ((Lower.storeCellImm_lowers .pc pc { code := code }).mono (fun _ _ _ => id)
    fun _ _ => trivial) ?_
  rintro _ e₁ w₁ ⟨-, hstore⟩
  refine (instruction_faults h memory pc e₁).mono ?_ fun _ _ => trivial
  intro _ e₂ w₂ hfaults s u hu hfault
  obtain ⟨t, ht, -, -, hguest⟩ := hstore s
  rw [Meaning.andThen_of_fell ht] at hu
  obtain ⟨hsame, hrefuses⟩ := hfaults t u hu hfault
  rw [hsame]
  refine ⟨?_, hrefuses⟩
  rw [hguest]
  rfl

/-- **The code of a line** leaves with a fault only where one of its instructions makes an access
that memory does not admit.

**Proof sketch.** By induction on the words. The code returns inside the code of the first word, or
falls through it and returns inside the rest; the program counter is set again before each word. -/
theorem compileLine_faults [Guest.Disassembler] {memory : Memory} {words : List Opcode} {pc : Word}
    {code : Builder} {line : Line} (h : (compileLine memory words pc code).2 = .ok line) :
    ∃ P, Appended code line.code P ∧ Fits P ∧ FaultsOnly memory words pc (walk 0 P) := by
  induction words generalizing pc code line with
  | nil =>
    cases h
    refine ⟨[], .refl code, trivial, ?_⟩
    intro s u hu
    cases hu
  | cons word rest ih =>
    cases hinst : Guest.decode word with
    | none =>
      rw [compileLine, Guest.decodeAccepted_eq, hinst] at h
      cases h
    | some inst =>
      rw [compileLine_cons hinst] at h
      have hregular := Guest.regular_of_decode hinst
      rcases hact : (compileOne memory pc inst).runOn { code := code } with ⟨f | _, e⟩
      · rw [hact] at h
        cases h
      · rw [hact] at h
        obtain ⟨P, happ, hfits, hfaults⟩ := (compileOne_faults hregular memory pc code).of_ok hact
        obtain ⟨-, -, -, hgoes, -⟩ := (compileOne_lowers hregular memory pc code).of_ok hact
        have hfirst : FaultsOnly memory (word :: rest) pc (walk 0 P) := by
          intro s u hu hfault
          obtain ⟨hpc, hrefuses⟩ := hfaults s u hu hfault
          exact .head hinst hpc hrefuses
        cases hends : inst.op.endsLine with
        | true =>
          simp only [hgoes, hends, Bool.not_true, Bool.false_eq_true, if_false] at h
          cases h
          exact ⟨P, happ, hfits, hfirst⟩
        | false =>
          simp only [hgoes, hends, Bool.not_false, if_true] at h
          cases hline : (compileLine memory rest
              (pc + BitVec.ofNat 64 Guest.instructionSize) e.code).2 with
          | error f =>
            rw [hline] at h
            cases h
          | ok line' =>
            rw [hline] at h
            cases h
            obtain ⟨Q, happ', hfits', hrest⟩ := ih hline
            refine ⟨P ++ Q, happ.trans happ', hfits.append hfits', ?_⟩
            rw [Lower.walk_zero_append hfits]
            refine hfirst.andThen fun s u hu hfault => ?_
            exact .cons (by rw [Guest.endsLine_of_decode hinst, hends]) (hrest s u hu hfault)

/-- The numbers of the exits are told apart, so an exit read from a number gives the number back. -/
theorem number_of_ofNumber {n : Word} {exit : Exit} (h : Exit.ofNumber n = exit) :
    n = exit.number := by
  subst h
  unfold Exit.ofNumber
  split
  · assumption
  · split
    · assumption
    · split
      · assumption
      · rfl

/-- **The code of a block** leaves with a fault only where one of its instructions makes an access
that memory, as the block was compiled against it, does not admit.

**Proof sketch.** The code is that of the line and of the exit behind it, and the exit leaves
by a branch or a halt. So what leaves with a fault is the code of the line
(`compileLine_faults`). -/
theorem Made.trips [Guest.Disassembler] {text : List Opcode} {loadBias : Word} {m memory : Memory}
    {b : Block} {registers : Registers} {r : Returned} (h : Made text loadBias m b)
    (hcall : callCode b.code.program registers memory = some r) (hfault : r.exit = .fault) :
    Trips m (wordsAt text b.entry) (loadBias + b.entry) r.param ⟨r.registers, r.memory⟩ := by
  obtain ⟨line, hline, hcode⟩ := h.line
  obtain ⟨P, happ, hfits, hfaults⟩ := compileLine_faults hline
  obtain ⟨T, happ', hfits', htail⟩ := exists_tail line
  obtain ⟨code, hassemble, hprogram, -⟩ := (happ.trans happ').assemble (hfits.append hfits')
  obtain rfl : code = b.code := by
    rw [hassemble] at hcode
    exact Except.ok.inj hcode
  have hall : FaultsOnly m (wordsAt text b.entry) (loadBias + b.entry) (walk 0 (P ++ T)) := by
    rw [Lower.walk_zero_append hfits]
    refine hfaults.andThen fun s u hu hnumber => ?_
    -- the exit behind the line is no fault
    obtain ⟨u', hu', hleft⟩ := htail s
    rw [hu] at hu'
    cases hu'
    rw [hleft.kind] at hnumber
    split at hnumber <;> cases hnumber
  rw [callCode, hprogram, Code.run_place] at hcall
  cases hwalk : walk 0 (P ++ T) (entryState registers memory) with
  | returned u =>
    rw [hwalk] at hcall
    cases hcall
    exact hall _ u hwalk (number_of_ofNumber hfault)
  | fell u | trapped =>
    rw [hwalk] at hcall
    cases hcall

/-! ## Engines -/

variable {dis : Guest.Disassembler} {e e' : Engine} {entry address : Word}

/-- The instruction at an offset of the stream accesses an address, taken from the registers as they
are, where memory does not admit the access under some limit. -/
def RefusedAt (e : Engine) (offset address : Word) : Prop :=
  ∃ word inst w, Guest.wordAt? e.text offset = some word ∧ Guest.decode word = some inst ∧
    Refuses (e.memory.limited w) inst address e.guest

/-- The block whose code left with a fault, and what it was compiled against. -/
theorem exists_trips (h : e.Stocked) (hexecute : e.execute entry = (e', .ok (.fault, address))) :
    ∃ b m w, e'.find? entry = some b ∧ m.Alike (e'.memory.limited w) ∧
      Trips m (wordsAt e'.text entry) (e'.loadBias + entry) address e'.guest := by
  have hev := execute_evolves e entry
  have hcases := execution e entry
  rw [hexecute] at hev hcases
  rw [hev.text, hev.loadBias]
  generalize hexit : Exit.fault = exit at hcases
  cases hcases with
  | @leaves e₁ b r hfetched hcall =>
    obtain ⟨hits, hfind⟩ := hfetched.find?
    obtain ⟨m, w, hm, hmade, rfl⟩ := hfetched.made h
    have hlimited := hm.trans ((callCode_alike hcall).limited w)
    exact ⟨_, m, w, hfind, hlimited, hmade.trips hcall hexit.symm⟩

/-- Executing fails with other errors than an access. -/
theorem execute_ne_access {f : Failure} (h : e.execute entry = (e', .error f)) (pc : Word)
    (range : Option (Word × Word)) : f ≠ .ofAt .fault pc (.access address range) := by
  have hcases := execution e entry
  rw [h] at hcases
  rintro rfl
  cases hcases with
  | fails hnew hfails =>
    obtain ⟨front, word, back, -, -, hrejects⟩ := hfails
    obtain ⟨-, hf⟩ | ⟨inst, r, -, -, -, hf⟩ := hrejects <;> cases hf

/-- How a run comes to the error of a fault.

**Proof sketch.** The error of an access comes from a block that left with a fault: the
errors of executing itself are of other kinds (`execute_ne_access`), and all other ways on give
no such error. The range is looked up by the program counter afterwards. -/
theorem advance_access {cancellation : Cancellation} {executed : Nat} {offset pc : Word}
    {range : Option (Word × Word)} (h : e.advance cancellation executed offset =
      (e', .finished (.error (.ofAt .fault pc (.access address range))))) :
    e.execute offset = (e', .ok (.fault, address)) ∧ pc = e'.registers.pc ∧
      range = (e'.blockContaining? (pc - e'.loadBias)).map fun b =>
        (e'.loadBias + b.entry, e'.loadBias + b.stop) := by
  unfold advance at h
  split at h
  · cases h
  · split at h
    · cases h
    · split at h
      · cases h
      · rcases hexecute : e.execute offset with ⟨e₁, f | ⟨exit, param⟩⟩
        · rw [hexecute] at h
          cases h
          exact absurd rfl (execute_ne_access hexecute pc range)
        · rw [hexecute] at h
          cases exit with
          | halt | branch | other n => cases h
          | fault =>
            cases h
            exact ⟨rfl, rfl, rfl⟩

/-- A word of the line at the entry of a block, by its offset.

**Proof sketch.** The line lies inside the stream and does not wrap around, so the offset of
its word is the entry plus four bytes for each word before it. -/
theorem Spans.wordAt? {text : List Opcode} {b : Block} (h : Spans text b) {k : Nat} {word : Opcode}
    (hword : (Guest.straightLine (wordsAt text b.entry))[k]? = some word) :
    ∃ offset, offset = b.entry + BitVec.ofNat 64 (k * Guest.instructionSize) ∧
      b.covers offset = true ∧ Guest.wordAt? text offset = some word := by
  have hk : k < b.count := by
    rw [h.count]
    exact (List.getElem?_eq_some_iff.1 hword).1
  have hstop := h.stop
  have hbound := b.stop.isLt
  have haligned := h.aligned
  unfold Guest.instructionSize at *
  have hoffset : (b.entry + BitVec.ofNat 64 (k * 4)).toNat = b.entry.toNat + k * 4 := by
    rw [BitVec.toNat_add, BitVec.toNat_ofNat]
    omega
  refine ⟨_, rfl, ?_, ?_⟩
  · simp only [Block.covers, Bool.and_eq_true, decide_eq_true_eq, BitVec.le_def, BitVec.lt_def,
      hoffset]
    omega
  · rw [Guest.wordAt?, hoffset, if_pos (by unfold Guest.instructionSize; omega)]
    have hindex : (b.entry.toNat + k * 4) / Guest.instructionSize = b.entry.toNat / 4 + k := by
      unfold Guest.instructionSize
      omega
    rw [← Guest.take_straightLine, List.getElem?_take] at hword
    split at hword
    · rw [wordsAt, List.getElem?_drop] at hword
      rw [hindex]
      exact hword
    · cases hword

/-- The instruction that made the access lies in the block, at the program counter. -/
theorem Trips.refusedAt {m : Memory} {b : Block} {w : Word} (hm : m.Alike (e.memory.limited w))
    (hb : Spans e.text b)
    (h : Trips m (wordsAt e.text b.entry) (e.loadBias + b.entry) address e.guest) :
    ∃ offset, e.registers.pc = e.loadBias + offset ∧ b.covers offset = true ∧
      e.RefusedAt offset address := by
  obtain ⟨k, word, inst, hword, hinst, hpc, write, ref, n, haccess, haddress, hadmits⟩ := h
  obtain ⟨offset, hoffset, hcovers, hat⟩ := hb.wordAt? hword
  refine ⟨offset, ?_, hcovers, word, inst, w, hat, hinst, write, ref, n, haccess, haddress, ?_⟩
  · rw [hoffset, ← BitVec.add_assoc]
    exact hpc
  · rw [hm.admits]
    exact hadmits

/-- **The block that is looked up** for an offset that some block covers ends with that block, and
is that block exactly if no other is entered between its entry and the offset.

**Proof sketch.** A block that is entered between the entry and the offset ends where the
given block ends (`Spans.stop_eq`), hence covers the offset as well. The one that is looked up is
the last of those that cover it, so it is the given block exactly if there is none in between. -/
theorem blockContaining?_of_covers {text : List Opcode} (h : Tidy text e) {b : Block}
    (hb : b ∈ e.blocks) {offset : Word} (hcovers : b.covers offset = true) :
    ∃ named, e.blockContaining? offset = some named ∧ named ∈ e.blocks ∧
      named.covers offset = true ∧
      (∀ c ∈ e.blocks, c.covers offset = true → c.entry ≤ named.entry) ∧ named.stop = b.stop ∧
      (named.entry = b.entry ↔ ∀ c ∈ e.blocks, c.entry ≤ b.entry ∨ offset < c.entry) := by
  have hends : ∀ c ∈ e.blocks, b.entry ≤ c.entry → c.entry ≤ offset → b.stop = c.stop := by
    intro c hc hle hbelow
    have hlt : offset < b.stop := by simpa using (Bool.and_eq_true_iff.1 hcovers).2
    refine (h.spans b hb).stop_eq (h.spans c hc) hle ?_
    rw [BitVec.lt_def] at hlt ⊢
    rw [BitVec.le_def] at hbelow
    omega
  cases hnamed : e.blockContaining? offset with
  | none =>
    have hnone := Cache.containing?_eq_none_iff.1 hnamed b hb
    rw [hcovers] at hnone
    cases hnone
  | some named =>
    obtain ⟨hmem, hnamedCovers, hgreatest⟩ := h.agrees.containing?_eq_some_iff.1 hnamed
    have hle : b.entry ≤ named.entry := hgreatest b hb hcovers
    have hbelow : named.entry ≤ offset := by simpa using (Bool.and_eq_true_iff.1 hnamedCovers).1
    refine ⟨named, rfl, hmem, hnamedCovers, hgreatest, (hends named hmem hle hbelow).symm, ?_, ?_⟩
    · intro hentry c hc
      by_contra hbetween
      obtain ⟨hafter, hbefore⟩ : b.entry < c.entry ∧ c.entry ≤ offset := by
        simpa using hbetween
      -- a block that is entered there covers the offset, since it ends where `b` ends
      have hstop := hends c hc (BitVec.le_of_lt hafter) hbefore
      have hcCovers : c.covers offset = true := by
        rw [Block.covers, ← hstop, Bool.and_eq_true_iff, decide_eq_true_iff]
        exact ⟨hbefore, (Bool.and_eq_true_iff.1 hcovers).2⟩
      have hcle := hgreatest c hc hcCovers
      rw [hentry] at hcle
      exact absurd hafter (BitVec.not_lt.2 hcle)
    · intro hall
      obtain hbefore | hafter := hall named hmem
      · exact BitVec.le_antisymm hbefore hle
      · exact absurd hafter (BitVec.not_lt.2 hbelow)

/-- **The error of a faulting run.** Let an engine be created and called in any way, and let a run
end with the error of an access. Then the last block of the run left with a fault at the address the
error gives. The error carries the address of an instruction of that block that makes this access,
and memory does not admit it. The range that the error names is that of the cached block with the
greatest entry that covers this instruction. It ends where the block that was executed ends, and it
is the range of the block that was executed exactly if no cached block is entered behind the entry
of that block and not behind the instruction.

**Proof sketch.** The run has a last stage, at which a block was executed and left with a
fault (`exists_last_stage`, `advance_access`). That block was made against memory at this place
under some limit, so one of its instructions made the access and was refused (`exists_trips`,
`Trips.refusedAt`). Which block is looked up for that instruction is
`blockContaining?_of_covers`. -/
theorem run_fault_block [Guest.Disassembler] {text : List Opcode} {memory : Option Memory}
    {loadBias : Option Word} {maxBlocks : Int} {start : Engine}
    (hstart : create text memory loadBias maxBlocks = .ok start)
    (hsize : text.length * Guest.instructionSize < 0x10000000000000000) (cs : List Call)
    (fuel : Nat) (cancellation : Cancellation) (entry : Word) {e : Engine} {pc address : Word}
    {range : Option (Word × Word)} (hrun : (start.calls cs).run fuel cancellation entry =
      (e, some (.error (.ofAt .fault pc (.access address range))))) :
    ∃ (last : Stage) (b named : Block) (offset : Word),
      Relation.ReflTransGen (Stage.Leads cancellation) ⟨start.calls cs, 0, entry⟩ last ∧
      last.engine.execute last.offset = (e, .ok (.fault, address)) ∧
      e.find? last.offset = some b ∧
      pc = e.loadBias + offset ∧ b.covers offset = true ∧ e.RefusedAt offset address ∧
      named ∈ e.blocks ∧ named.covers offset = true ∧
      (∀ c ∈ e.blocks, c.covers offset = true → c.entry ≤ named.entry) ∧
      range = some (e.loadBias + named.entry, e.loadBias + named.stop) ∧ named.stop = b.stop ∧
      (range = some (e.loadBias + b.entry, e.loadBias + b.stop) ↔
        ∀ c ∈ e.blocks, c.entry ≤ b.entry ∨ offset < c.entry) := by
  have htidy : Tidy text e := by
    have h := ((create_tidy hstart hsize).calls cs).runFrom cancellation fuel 0 entry
    rwa [show runFrom cancellation fuel (start.calls cs) 0 entry = _ from hrun] at h
  obtain ⟨last, hleads, hadvance⟩ := exists_last_stage (p := ⟨start.calls cs, 0, entry⟩) hrun
  obtain ⟨hexecute, hpc, hrange⟩ := advance_access hadvance
  have hstocked := ((create_stocked hstart).calls cs).evolves (evolves_of_leads hleads)
  obtain ⟨b, m, w, hfind, hm, htrips⟩ := exists_trips hstocked hexecute
  have hb := (htidy.find?_eq_some_iff.1 hfind).1
  rw [← entry_of_find? hfind] at htrips
  obtain ⟨offset, hoffset, hcovers, hrefused⟩ :=
    htrips.refusedAt hm (htidy.stream ▸ htidy.spans b hb)
  obtain ⟨named, hnamed, hmem, hnamedCovers, hgreatest, hstop, hiff⟩ :=
    blockContaining?_of_covers htidy hb hcovers
  have hlooked : range = some (e.loadBias + named.entry, e.loadBias + named.stop) := by
    rw [hrange, hpc, hoffset, BitVec.add_comm, BitVec.add_sub_cancel, hnamed, Option.map_some]
  refine ⟨last, b, named, offset, hleads, hexecute, hfind, hpc.trans hoffset, hcovers, hrefused,
    hmem, hnamedCovers, hgreatest, hlooked, hstop, ?_⟩
  rw [hlooked, hstop, ← hiff, Option.some.injEq, Prod.mk.injEq]
  simp

/-- A line is compiled from its second instruction on and then executed from the first on. The fault
of the second instruction is said to be one of the block that was only compiled. -/
theorem run_fault_other_block :
    let _ : Guest.Disassembler := .least
    let text : List Opcode := [0xd503201f, 0xf9400020, 0xd65f03c0]
    let start : Engine := { text := text, loadBias := 0x10000, memory := .page 0x40000 }
    create text (some (.page 0x40000)) (some 0x10000) 0 = .ok start ∧
      ∃ (e : Engine) (b : Block),
        (start.calls [.compile 4]).run 1 .never 0 =
          (e, some (.error (.ofAt .fault 0x10004 (.access 0 (some (0x10004, 0x1000c)))))) ∧
        (start.calls [.compile 4]).execute 0 = (e, .ok (.fault, 0)) ∧ e.find? 0 = some b ∧
        e.loadBias + b.entry = 0x10000 ∧ ∃ c ∈ e.blocks, b.entry < c.entry ∧ c.entry ≤ 4 := by
  intro _ text start
  have hstart : create text (some (.page 0x40000)) (some 0x10000) 0 = .ok start := rfl
  have hresult : ((start.calls [.compile 4]).run 1 .never 0).2 =
      some (.error (.ofAt .fault 0x10004 (.access 0 (some (0x10004, 0x1000c))))) := by
    decide +kernel
  generalize hrun : (start.calls [.compile 4]).run 1 .never 0 = ran at hresult
  obtain ⟨e, result⟩ := ran
  obtain rfl : result = _ := hresult
  have hbias : e.loadBias = 0x10000 := by
    have hcalls : start.Evolves (start.calls [.compile 4]) := calls_evolves start (by simp)
    have hev := hcalls.trans (runFrom_evolves .never 1 (start.calls [.compile 4]) 0 0)
    rw [show runFrom .never 1 (start.calls [.compile 4]) 0 0 = _ from hrun] at hev
    exact hev.loadBias
  obtain ⟨last, b, named, offset, hleads, hexecute, hfind, hpc, -, -, -, -, -, -, -, hiff⟩ :=
    run_fault_block hstart (by decide) [.compile 4] 1 .never 0 hrun
  -- the run had one block, so its first stage is its last
  obtain rfl | ⟨q, hfirst, -⟩ := hleads.cases_head
  · dsimp only at hexecute hfind
    have hb : b.entry = 0 := entry_of_find? hfind
    have hoffset : offset = 4 := by
      rw [hbias] at hpc
      exact ((BitVec.add_right_inj 0x10000).1 hpc).symm
    rw [hb, hbias, hoffset] at hiff
    have hother := (not_congr hiff).1 (by simp)
    simp only [not_forall, not_or, BitVec.not_le, BitVec.not_lt] at hother
    obtain ⟨c, hc, hafter, hbefore⟩ := hother
    refine ⟨hstart, e, b, rfl, hexecute, hfind, ?_, c, hc, ?_, hbefore⟩
    · rw [hb, hbias]
      rfl
    · rw [hb]
      exact hafter
  · have hnone := hfirst.runFrom_one
    dsimp only at hnone
    rw [show runFrom .never 1 (start.calls [.compile 4]) 0 0 = _ from hrun] at hnone
    cases hnone

end Engine

end Dynarec
