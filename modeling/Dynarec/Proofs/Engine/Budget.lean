import Dynarec.Proofs.Engine.Execution

/-!
# Runs under a budget

A run executes blocks one after another, each where the last one branched to, until it is cancelled,
comes to the end of the stream, or a block ends it. A budget cuts this sequence off and changes
nothing else about it: a run that ends in time does not notice the budget, and any other stops
behind the last block allowed.

## Main definitions

* `Dynarec.Engine.withBudget` — the engine with another budget.
* `Dynarec.Engine.Chain` — some executions in a row, each left by a branch to the next.
* `Dynarec.Engine.verdict` — the result of a run whose last execution came to an outcome.
* `Dynarec.Engine.Ends` — a run ends after some executions.
* `Dynarec.Engine.Spent` — a run has executed all the blocks it may.

## Main results

* `Dynarec.Engine.execute_withBudget` — executing does not look at the budget.
* `Dynarec.Engine.Ends.runFrom`, `Dynarec.Engine.exists_ends` — running, by executions.
* `Dynarec.Engine.chain_or_ends` — a run has made its first executions, or has ended before.
* `Dynarec.Engine.run_withBudget` — a budget only cuts runs off.
-/

set_option autoImplicit false

namespace Dynarec.Engine

variable {dis : Guest.Disassembler} {c : Cancellation} {e e' : Engine} {entry offset : Word}
variable {k fuel : Nat} {result : Except Failure Unit}

/-! ## The budget of an engine -/

/-- The engine with another budget for its runs, or with none if it is not positive. -/
def withBudget (e : Engine) (budget : Int) : Engine :=
  { e with maxBlocks := budget }

/-- Compiling does not look at the budget.

**Proof sketch.** Every choice that compiling makes is the same for the other budget: whether
something is cached, whether the offset is an entry, whether the line compiles, and whether its
code can be placed. -/
theorem compile_withBudget (e : Engine) (budget : Int) (entry : Word) :
    (e.withBudget budget).compile entry =
      ((e.compile entry).1.withBudget budget, (e.compile entry).2) := by
  have hfind : (e.withBudget budget).find? entry = e.find? entry := rfl
  have hisEntry : (e.withBudget budget).isEntry entry = e.isEntry entry := rfl
  cases hcached : e.find? entry with
  | some b => rw [compile, compile, hfind, hcached]
  | none =>
    rw [hcached] at hfind
    cases hentry : e.isEntry entry with
    | false =>
      rw [compile, compile, hfind, hcached, hisEntry, hentry]
      rfl
    | true =>
      rw [hentry] at hisEntry
      rw [compile_of_isEntry hcached hentry, compile_of_isEntry hfind hisEntry]
      dsimp only [withBudget]
      rcases compileLine e.memory (wordsAt e.text entry) (e.loadBias + entry) {} with
        ⟨events, f | line⟩
      · rfl
      · dsimp only
        rcases (line.withTail.finalize e.pool).2 with f | ⟨code, pool⟩ <;> rfl

/-- Invoking a block does not look at the budget.

**Proof sketch.** Whether a block is pinned and what its code does are the same for the other
budget. -/
theorem invoke_withBudget (e : Engine) (budget : Int) (b : Block) :
    (e.withBudget budget).invoke b = ((e.invoke b).1.withBudget budget, (e.invoke b).2) := by
  by_cases hpinned : e.Pinned b
  · have hpinned' : (e.withBudget budget).Pinned b := hpinned
    cases hcall : callCode b.code.program e.registers e.memory with
    | none =>
      rw [invoke_of_trapped hpinned hcall, invoke_of_trapped hpinned' hcall]
      rfl
    | some r =>
      rw [invoke_of_callCode hpinned hcall, invoke_of_callCode hpinned' hcall]
      rfl
  · have hother : ¬ (e.withBudget budget).Pinned b := hpinned
    rw [invoke_of_not_pinned hpinned, invoke_of_not_pinned hother]
    rfl

/-- **Executing does not look at the budget.** -/
theorem execute_withBudget (e : Engine) (budget : Int) (entry : Word) :
    (e.withBudget budget).execute entry =
      ((e.execute entry).1.withBudget budget, (e.execute entry).2) := by
  have hfind : (e.withBudget budget).find? entry = e.find? entry := rfl
  unfold execute
  rw [hfind]
  cases e.find? entry with
  | some b => exact invoke_withBudget (e.countHit entry) budget b
  | none =>
    dsimp only
    rw [compile_withBudget]
    rcases e.compile entry with ⟨e₁, f | b⟩
    · rfl
    · exact invoke_withBudget e₁ budget b

/-- Executing counts one execution at most. -/
theorem executions_execute_le [Guest.Disassembler] (e : Engine) (entry : Word) :
    (e.execute entry).1.executions ≤ e.executions + 1 := by
  have hcases := execution e entry
  generalize e.execute entry = outcome at hcases
  have hfetched : ∀ {e₁ b}, Fetched e entry e₁ b → e₁.executions = e.executions := by
    intro e₁ b h
    cases h <;> rfl
  cases hcases with
  | outside | fails | refused => exact Nat.le_succ _
  | trapped h | leaves h => exact Nat.le_of_eq (congrArg (· + 1) (hfetched h))

/-! ## Executions in a row -/

/-- Executing `k` blocks in a row leads from the entry to an offset, and the engine from one state
to another: each is left by a branch to the next, none is at the end of the stream, and the run is
not cancelled before any of them. -/
inductive Chain [Guest.Disassembler] (c : Cancellation) (e : Engine) (entry : Word) :
    Nat → Engine → Word → Prop where
  | start : Chain c e entry 0 e entry
  | branch {k : Nat} {e₁ e₂ : Engine} {offset param : Word} (h : Chain c e entry k e₁ offset)
      (hgoes : c.done k = false) (hinside : offset ≠ e₁.streamSize)
      (hexecute : e₁.execute offset = (e₂, .ok (.branch, param))) :
      Chain c e entry (k + 1) e₂ (e₂.registers.pc - e₂.loadBias + param)

/-- The result of a run whose last execution came to an outcome; none if that was a branch. -/
def verdict (e : Engine) : Except Failure (Exit × Word) → Option (Except Failure Unit)
  | .error f => some (.error f)
  | .ok (.halt, _) => some (.ok ())
  | .ok (.branch, _) => none
  | .ok (.fault, param) => some (.error (e.faultAt param))
  | .ok (.other n, _) =>
    some (.error (.ofAt .fault e.registers.pc (.exitKind (Exit.other n).name)))

/-- A run that no budget stops ends after `k` executions: because it is cancelled then, at the end
of the stream, or with what the last execution comes to. -/
inductive Ends [Guest.Disassembler] (c : Cancellation) (e : Engine) (entry : Word) :
    Nat → Engine → Except Failure Unit → Prop where
  | cancelled {k : Nat} {e' : Engine} {offset : Word} (h : Chain c e entry k e' offset)
      (hdone : c.done k = true) : Ends c e entry k e' (.error (.plain .cancelled))
  | stream {k : Nat} {e' : Engine} (h : Chain c e entry k e' e'.streamSize)
      (hgoes : c.done k = false) : Ends c e entry k e' (.ok ())
  | block {k : Nat} {e₁ e' : Engine} {offset : Word} {outcome : Except Failure (Exit × Word)}
      {result : Except Failure Unit} (h : Chain c e entry k e₁ offset) (hgoes : c.done k = false)
      (hinside : offset ≠ e₁.streamSize) (hexecute : e₁.execute offset = (e', outcome))
      (hverdict : e'.verdict outcome = some result) : Ends c e entry (k + 1) e' result

/-- A run goes on only behind a block that leaves by a branch. -/
theorem verdict_eq_none {outcome : Except Failure (Exit × Word)}
    (h : e.verdict outcome = none) : ∃ param, outcome = .ok (.branch, param) := by
  rcases outcome with f | ⟨exit, param⟩
  · cases h
  · cases exit with
    | branch => exact ⟨param, rfl⟩
    | halt | fault | other => cases h

/-- The same executions follow under another budget. -/
theorem Chain.withBudget (h : Chain c e entry k e' offset) (budget : Int) :
    Chain c (e.withBudget budget) entry k (e'.withBudget budget) offset := by
  induction h with
  | start => exact .start
  | branch _ hgoes hinside hexecute ih =>
    refine .branch ih hgoes hinside ?_
    rw [execute_withBudget, hexecute]

/-- The same executions end a run under another budget. -/
theorem Ends.withBudget (h : Ends c e entry k e' result) (budget : Int) :
    Ends c (e.withBudget budget) entry k (e'.withBudget budget) result := by
  cases h with
  | cancelled h hdone => exact .cancelled (h.withBudget budget) hdone
  | stream h hgoes => exact .stream (h.withBudget budget) hgoes
  | @block _ e₁ _ offset outcome _ h hgoes hinside hexecute hverdict =>
    have hsame : (e₁.withBudget budget).execute offset = (e'.withBudget budget, outcome) := by
      rw [execute_withBudget, hexecute]
    refine .block (h.withBudget budget) hgoes hinside hsame ?_
    rw [← hverdict]
    rcases outcome with f | ⟨exit, param⟩
    · rfl
    · cases exit <;> rfl

/-- Executions in a row keep the stream, the place of memory and what was cached. -/
theorem Chain.evolves (h : Chain c e entry k e' offset) : e.Evolves e' := by
  induction h with
  | start => exact .refl e
  | @branch _ e₁ _ offset _ _ _ _ hexecute ih =>
    have hstep := execute_evolves e₁ offset
    rw [hexecute] at hstep
    exact ih.trans hstep

/-- As many executions are counted as are made, or fewer. -/
theorem Chain.executions_le (h : Chain c e entry k e' offset) :
    e'.executions ≤ e.executions + k := by
  induction h with
  | start => exact Nat.le_refl _
  | @branch _ e₁ _ offset _ _ _ _ hexecute ih =>
    have hstep := executions_execute_le e₁ offset
    rw [hexecute] at hstep
    dsimp only at hstep
    omega

/-- As many executions are counted as a run makes, or fewer. -/
theorem Ends.executions_le (h : Ends c e entry k e' result) :
    e'.executions ≤ e.executions + k := by
  cases h with
  | cancelled h | stream h => exact h.executions_le
  | @block _ e₁ _ offset _ _ h _ _ hexecute =>
    have hbefore := h.executions_le
    have hstep := executions_execute_le e₁ offset
    rw [hexecute] at hstep
    dsimp only at hstep
    omega

/-- **A run has made its first executions, or has ended before.**

**Proof sketch.** Induction on the number of executions. A run that has made `k` of them is
cancelled, is at the end of the stream, or makes one more, which is left by a branch or ends the
run. -/
theorem chain_or_ends [Guest.Disassembler] (c : Cancellation) (e : Engine) (entry : Word)
    (k : Nat) : (∃ e' offset, Chain c e entry k e' offset) ∨
      ∃ j ≤ k, ∃ e' result, Ends c e entry j e' result := by
  induction k with
  | zero => exact .inl ⟨e, entry, .start⟩
  | succ k ih =>
    rcases ih with ⟨e₁, offset, h⟩ | ⟨j, hj, e', result, h⟩
    · cases hgoes : c.done k with
      | true => exact .inr ⟨k, by omega, e₁, _, .cancelled h hgoes⟩
      | false =>
        by_cases hstream : offset = e₁.streamSize
        · subst hstream
          exact .inr ⟨k, by omega, e₁, .ok (), .stream h hgoes⟩
        · rcases hexecute : e₁.execute offset with ⟨e₂, outcome⟩
          cases hverdict : e₂.verdict outcome with
          | none =>
            rcases verdict_eq_none hverdict with ⟨param, rfl⟩
            exact .inl ⟨e₂, _, .branch h hgoes hstream hexecute⟩
          | some result =>
            exact .inr ⟨k + 1, le_rfl, e₂, result, .block h hgoes hstream hexecute hverdict⟩
    · exact .inr ⟨j, by omega, e', result, h⟩

/-! ## Running -/

/-- A run of the engine that has executed so many blocks may execute no more. -/
def Spent (e : Engine) (executed : Nat) : Prop :=
  0 < e.maxBlocks ∧ e.maxBlocks ≤ executed

/-- One more block of a run that is not cancelled, not at the end of the stream and has executions
left does what executing does: it ends the run with its verdict, or goes on where it branches to. -/
theorem advance_of_execute {e₁ : Engine} {executed : Nat} {outcome : Except Failure (Exit × Word)}
    (hgoes : c.done executed = false) (hinside : offset ≠ e.streamSize)
    (hleft : ¬ e.Spent executed) (hexecute : e.execute offset = (e₁, outcome)) :
    (∀ result, e₁.verdict outcome = some result →
      e.advance c executed offset = (e₁, .finished result)) ∧
    ∀ param, outcome = .ok (.branch, param) →
      e.advance c executed offset = (e₁, .next (e₁.registers.pc - e₁.loadBias + param)) := by
  have hbudget : ¬ (0 < e.maxBlocks ∧ e.maxBlocks ≤ executed) := hleft
  rw [advance, hgoes, if_neg Bool.false_ne_true, if_neg hinside, if_neg hbudget, hexecute]
  refine ⟨fun result hverdict => ?_, fun param hbranch => ?_⟩
  · rcases outcome with f | ⟨exit, param⟩
    · cases hverdict
      rfl
    · cases exit <;> cases hverdict <;> rfl
  · subst hbranch
    rfl

/-- Executions do not change how many a run may make. -/
theorem Chain.not_spent (h : Chain c e entry k e' offset) {executed : Nat}
    (hleft : ¬ e.Spent executed) : ¬ e'.Spent executed := by
  unfold Spent at hleft ⊢
  rwa [h.evolves.maxBlocks]

/-- A run makes the executions that follow each other, as long as its budget lasts. -/
theorem Chain.runFrom (h : Chain c e entry k e' offset) (hbudget : ∀ j < k, ¬ e.Spent j)
    (fuel : Nat) :
    runFrom c (k + fuel) e 0 entry = runFrom c fuel e' k offset := by
  induction h generalizing fuel with
  | start => rw [Nat.zero_add]
  | @branch k e₁ e₂ offset param h hgoes hinside hexecute ih =>
    have hleft : ¬ e₁.Spent k := h.not_spent (hbudget k (by omega))
    have hnext := (advance_of_execute hgoes hinside hleft hexecute).2 param rfl
    rw [show k + 1 + fuel = k + (fuel + 1) by omega,
      ih (fun j hj => hbudget j (by omega)) (fuel + 1), Engine.runFrom, hnext]

/-- **A run ends** as its executions do, as long as its budget lasts.

**Proof sketch.** In each case the run makes the executions of the chain first, for which its
budget lasts, and has at least one more round. In that round it is cancelled, finds itself at the
end of the stream, or executes the block that ends it. -/
theorem Ends.runFrom (h : Ends c e entry k e' result) (hbudget : ∀ j < k, ¬ e.Spent j)
    (hfuel : k < fuel) : Engine.runFrom c fuel e 0 entry = (e', some result) := by
  cases h with
  | cancelled h hdone =>
    obtain ⟨rest, rfl⟩ : ∃ rest, fuel = k + (rest + 1) := ⟨fuel - k - 1, by omega⟩
    rw [h.runFrom hbudget, Engine.runFrom, advance, if_pos hdone]
  | stream h hgoes =>
    obtain ⟨rest, rfl⟩ : ∃ rest, fuel = k + (rest + 1) := ⟨fuel - k - 1, by omega⟩
    rw [h.runFrom hbudget, Engine.runFrom, advance, hgoes, if_neg Bool.false_ne_true, if_pos rfl]
  | @block k e₁ _ offset outcome _ h hgoes hinside hexecute hverdict =>
    obtain ⟨rest, rfl⟩ : ∃ rest, fuel = k + (rest + 1) := ⟨fuel - k - 1, by omega⟩
    have hleft : ¬ e₁.Spent k := h.not_spent (hbudget k (by omega))
    have hdone := (advance_of_execute hgoes hinside hleft hexecute).1 _ hverdict
    rw [h.runFrom (fun j hj => hbudget j (by omega)), Engine.runFrom, hdone]

/-- A run without a budget that ends does so after some executions.

**Proof sketch.** Induction on the rounds that are left, with the executions made so far. -/
theorem exists_ends (hbudget : e.maxBlocks ≤ 0) {e₁ : Engine} (h : Chain c e entry k e₁ offset)
    (hrun : Engine.runFrom c fuel e₁ k offset = (e', some result)) :
    ∃ n, Ends c e entry n e' result := by
  induction fuel generalizing k e₁ offset with
  | zero => cases hrun
  | succ fuel ih =>
    cases hgoes : c.done k with
    | true =>
      rw [Engine.runFrom, advance, if_pos hgoes] at hrun
      cases hrun
      exact ⟨k, .cancelled h hgoes⟩
    | false =>
      by_cases hstream : offset = e₁.streamSize
      · rw [Engine.runFrom, advance, hgoes, if_neg Bool.false_ne_true, if_pos hstream] at hrun
        cases hrun
        subst hstream
        exact ⟨k, .stream h hgoes⟩
      · have hleft : ¬ e₁.Spent k := by
          have hsame := h.evolves.maxBlocks
          unfold Spent
          omega
        rcases hexecute : e₁.execute offset with ⟨e₂, outcome⟩
        have hadvance := advance_of_execute hgoes hstream hleft hexecute
        cases hverdict : e₂.verdict outcome with
        | none =>
          rcases verdict_eq_none hverdict with ⟨param, rfl⟩
          rw [Engine.runFrom, hadvance.2 param rfl] at hrun
          exact ih (.branch h hgoes hstream hexecute) hrun
        | some result' =>
          rw [Engine.runFrom, hadvance.1 result' hverdict] at hrun
          cases hrun
          exact ⟨k + 1, .block h hgoes hstream hexecute hverdict⟩

/-- Without a budget, a run ends exactly if its executions do. -/
theorem exists_run_iff (hbudget : e.maxBlocks ≤ 0) :
    (∃ fuel, e.run fuel c entry = (e', some result)) ↔ ∃ n, Ends c e entry n e' result := by
  constructor
  · rintro ⟨fuel, hrun⟩
    exact exists_ends hbudget .start hrun
  · rintro ⟨n, h⟩
    refine ⟨n + 1, h.runFrom (fun j _ => ?_) (by omega)⟩
    unfold Spent
    omega

/-- A run that has made all its executions, is not cancelled and is not at the end of the stream
stops there. -/
theorem Chain.runFrom_spent (h : Chain c e entry k e' offset) (hgoes : c.done k = false)
    (hinside : offset ≠ e'.streamSize) (hbudget : e.maxBlocks = k) (hpos : 0 < k)
    (hfuel : k < fuel) : Engine.runFrom c fuel e 0 entry =
      (e', some (.error (.ofAt .budget (e.loadBias + offset) (.budget k)))) := by
  obtain ⟨rest, rfl⟩ : ∃ rest, fuel = k + (rest + 1) := ⟨fuel - k - 1, by omega⟩
  have hlasts : ∀ j < k, ¬ e.Spent j := by
    intro j hj
    unfold Spent
    omega
  have hsame : e'.maxBlocks = k := h.evolves.maxBlocks.trans hbudget
  rw [h.runFrom hlasts, Engine.runFrom, advance, hgoes, if_neg Bool.false_ne_true,
    if_neg hinside, if_pos (by omega), hsame, h.evolves.loadBias]

/-- **A budget only cuts runs off.** Compare, in any state, from any entry and cancelled at any
time, the run without a limit and the run that may execute `n` blocks, `n` positive; the latter
needs no more than `n + 1` rounds. The run without a limit ends exactly if its executions do, after
some number of them. If that number is at most `n`, the limited run gives the same result and leaves
the engine in the same state, but for its budget. Otherwise its budget runs out: the failure names
the address of the block that would have been executed next, and the state is that after exactly the
first `n` executions. So the limited run counts at most `n` executions, and it ends well if its last
execution leads to the end of the stream and it is not cancelled.

**Proof sketch.** Executing does not look at the budget, so the same executions follow each other
in both runs (`Chain.withBudget`, `Ends.withBudget`), and the limited one makes the first `n`
(`Chain.runFrom`). Either one of these ends the run or all of them have been made
(`chain_or_ends`), and then the budget is spent, unless the run is cancelled or the end of the
stream is found first. -/
theorem run_withBudget [Guest.Disassembler] (e : Engine) (entry : Word) (c : Cancellation)
    (n fuel : Nat) (hn : 0 < n) (hfuel : n < fuel) :
    let free := e.withBudget 0
    let limited := e.withBudget n
    (∀ e' result, (∃ fuel, free.run fuel c entry = (e', some result)) ↔
      ∃ k, Ends c free entry k e' result) ∧
    (∀ k e' result, Ends c free entry k e' result → k ≤ n →
      limited.run fuel c entry = (e'.withBudget n, some result)) ∧
    ((∀ k e' result, Ends c free entry k e' result → n < k) →
      ∃ e' offset, Chain c free entry n e' offset ∧
        limited.run fuel c entry = (e'.withBudget n,
          some (.error (.ofAt .budget (e.loadBias + offset) (.budget n))))) ∧
    (limited.run fuel c entry).1.stats.executions ≤ e.stats.executions + n ∧
    (c.done n = false → ∀ e', Chain c free entry n e' e'.streamSize →
      limited.run fuel c entry = (e'.withBudget n, some (.ok ()))) := by
  intro free limited
  have hends : ∀ k e' result, Ends c free entry k e' result → k ≤ n →
      limited.run fuel c entry = (e'.withBudget n, some result) := by
    intro k e' result h hk
    refine (h.withBudget n).runFrom (fun j hj => ?_) (by omega)
    show ¬ (0 < (n : Int) ∧ (n : Int) ≤ j)
    omega
  have hspent : (∀ k e' result, Ends c free entry k e' result → n < k) →
      ∃ e' offset, Chain c free entry n e' offset ∧
        limited.run fuel c entry = (e'.withBudget n,
          some (.error (.ofAt .budget (e.loadBias + offset) (.budget n)))) := by
    intro hlate
    rcases chain_or_ends c free entry n with ⟨e', offset, h⟩ | ⟨j, hj, e', result, h⟩
    · -- cancelled or at the end of the stream, the run would have ended after `n` executions
      have hgoes : c.done n = false := by
        rw [← Bool.not_eq_true]
        exact fun hdone => Nat.lt_irrefl n (hlate n _ _ (.cancelled h hdone))
      have hinside : offset ≠ e'.streamSize := by
        rintro rfl
        exact Nat.lt_irrefl n (hlate n _ _ (.stream h hgoes))
      exact ⟨e', offset, h, (h.withBudget n).runFrom_spent hgoes hinside rfl hn hfuel⟩
    · exact absurd hj (Nat.not_le_of_lt (hlate j e' result h))
  refine ⟨fun e' result => exists_run_iff (Int.le_refl 0), hends, hspent, ?_, ?_⟩
  · show (limited.run fuel c entry).1.executions ≤ free.executions + n
    by_cases hlate : ∀ k e' result, Ends c free entry k e' result → n < k
    · rcases hspent hlate with ⟨e', offset, h, hrun⟩
      rw [hrun]
      exact h.executions_le
    · simp only [not_forall, not_lt] at hlate
      rcases hlate with ⟨k, e', result, h, hk⟩
      rw [hends k e' result h hk]
      exact h.executions_le.trans (by omega)
  · intro hgoes e' h
    exact hends n e' _ (.stream h hgoes) le_rfl

/-- Two branches, each to the next instruction: a budget of one stops the run before the second, and
a budget of two lets it come to the end of the stream. -/
theorem run_withBudget_two_branches :
    let _ : Guest.Disassembler := .least
    let e : Engine :=
      { text := [0x14000001, 0x14000001], loadBias := 0x10000, memory := .page 0x40000 }
    (∃ e' offset, Chain .never (e.withBudget 0) 0 1 e' offset ∧ (e.withBudget 1).run 2 .never 0 =
      (e'.withBudget 1, some (.error (.ofAt .budget (0x10000 + offset) (.budget 1))))) ∧
    ∃ e', Chain .never (e.withBudget 0) 0 2 e' e'.streamSize ∧
      (e.withBudget 2).run 3 .never 0 = (e'.withBudget 2, some (.ok ())) := by
  intro _ e
  constructor
  · rcases run_withBudget e 0 .never 1 2 (by decide) (by decide) with ⟨-, -, hspent, -⟩
    refine hspent fun k e' result h => ?_
    by_contra hk
    -- a run without a limit that ends after one execution is over in two rounds; this one is not
    have hrun : runFrom .never 2 (e.withBudget 0) 0 0 = (e', some result) :=
      h.runFrom (fun j _ hj => absurd hj.1 (by decide)) (by omega)
    have hnone : (runFrom .never 2 (e.withBudget 0) 0 0).2 = none := by decide +kernel
    rw [hrun] at hnone
    cases hnone
  · rcases run_withBudget e 0 .never 2 3 (by decide) (by decide) with ⟨-, -, -, -, hstream⟩
    let e₁ := ((e.withBudget 0).execute 0).1
    let e₂ := (e₁.execute (e₁.registers.pc - e₁.loadBias + 4)).1
    have hfirst : (e.withBudget 0).execute 0 = (e₁, .ok (.branch, 4)) :=
      Prod.ext rfl (by decide +kernel)
    have hsecond : e₁.execute (e₁.registers.pc - e₁.loadBias + 4) = (e₂, .ok (.branch, 4)) :=
      Prod.ext rfl (by decide +kernel)
    have hchain : Chain .never (e.withBudget 0) 0 2 e₂ _ :=
      .branch (.branch .start rfl (by decide) hfirst) rfl (by decide +kernel) hsecond
    have hlast : e₂.registers.pc - e₂.loadBias + 4 = e₂.streamSize := by decide +kernel
    rw [hlast] at hchain
    exact ⟨e₂, hchain, hstream rfl e₂ hchain⟩

end Dynarec.Engine
