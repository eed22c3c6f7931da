import Dynarec.Proofs.Code.Pieces
import Dynarec.Proofs.Host.Trace

/-!
# What walking through pieces runs

The instructions that a walk through pieces runs, each with the state it runs in. They are put
together as walks are: those of appended pieces are those of the first list and, where the first
walk falls out of its end, those of the second.

## Main definitions

* `Dynarec.Code.trace` — the instructions that a walk runs.
* `Dynarec.Code.Lands` — every jump lands inside.

## Main results

* `Dynarec.Code.mem_trace_append` — what a walk through appended pieces runs.
* `Dynarec.Code.trace_place` — running placed pieces runs what walking through them runs.
-/

set_option autoImplicit false

namespace Dynarec.Code

open Host (Inst State)

/-! ## Walks -/

/-- The instructions that walking through pieces runs after passing over the first `skip` of them,
each with the state it runs in. -/
def trace : Nat → List Piece → State → List (Inst × State)
  | _, [], _ => []
  | skip + 1, _ :: rest, s => trace skip rest s
  | 0, .inst i :: rest, s =>
    (i, s) ::
      match i.step s with
      | none => []
      | some t => if i = .ret then [] else trace 0 rest t
  | 0, .hop cond n :: rest, s => if cond.holds s.flags then trace n rest s else trace 0 rest s

/-- No pieces run nothing. -/
@[simp] theorem trace_nil (skip : Nat) (s : State) : trace skip [] s = [] := by
  cases skip <;> rfl

/-- Passing over as many pieces as there are in front of a list runs what that list runs. -/
theorem trace_skip (front rest : List Piece) (s : State) :
    trace front.length (front ++ rest) s = trace 0 rest s := by
  induction front with
  | nil => rfl
  | cons p front ih => simpa [trace] using ih

/-- What a walk runs that starts with an instruction. -/
theorem mem_trace_inst {i : Inst} {rest : List Piece} {s : State} {x : Inst × State}
    (hx : x ∈ trace 0 (.inst i :: rest) s) :
    x = (i, s) ∨ ∃ t, i.step s = some t ∧ x ∈ trace 0 rest t := by
  rw [trace, List.mem_cons] at hx
  obtain rfl | hx := hx
  · exact .inl rfl
  cases hstep : i.step s with
  | none => simp [hstep] at hx
  | some t =>
    simp only [hstep] at hx
    split at hx
    · simp at hx
    · exact .inr ⟨t, rfl, hx⟩

/-- Every jump lands inside or at the end. -/
def Lands : List Piece → Prop
  | [] => True
  | .inst _ :: rest => Lands rest
  | .hop _ n :: rest => n ≤ rest.length ∧ Lands rest

/-- Pieces that land inside do so without the first of them: what it jumps over is no concern of
the others. -/
theorem Lands.tail {p : Piece} {P : List Piece} (h : Lands (p :: P)) : Lands P := by
  cases p with
  | inst i => exact h
  | hop cond n => exact h.2

/-- Pieces that land inside do so when others follow. -/
theorem Lands.append {P Q : List Piece} (hP : Lands P) (hQ : Lands Q) : Lands (P ++ Q) := by
  induction P with
  | nil => exact hQ
  | cons p P ih =>
    cases p with
    | inst i => exact ih hP
    | hop cond n =>
      have hn : n ≤ (P ++ Q).length := by
        rw [List.length_append]
        exact Nat.le_trans hP.1 (Nat.le_add_right _ _)
      exact ⟨hn, ih hP.2⟩

/-- What a walk through appended pieces runs is run by a walk through the first list or, from where
that falls out of its end, by a walk through the second.

**Proof sketch.** Induction on the first list for every number of pieces passed over, along the
instruction or the jump in front. -/
theorem mem_trace_append_skip {P : List Piece} (hP : Lands P) {Q : List Piece} {skip : Nat}
    (hskip : skip ≤ P.length) {s : State} {x : Inst × State} (hx : x ∈ trace skip (P ++ Q) s) :
    x ∈ trace skip P s ∨ ∃ t, walk skip P s = .fell t ∧ x ∈ trace 0 Q t := by
  induction P generalizing skip s with
  | nil =>
    obtain rfl : skip = 0 := by simpa using hskip
    exact .inr ⟨s, rfl, hx⟩
  | cons p P ih =>
    cases skip with
    | succ skip => exact ih hP.tail (by simpa using hskip) hx
    | zero =>
      cases p with
      | inst i =>
        simp only [List.cons_append, trace, walk, List.mem_cons] at hx ⊢
        obtain rfl | hx := hx
        · exact .inl (.inl rfl)
        cases hstep : i.step s with
        | none => simp [hstep] at hx
        | some t =>
          simp only [hstep] at hx
          by_cases hi : i = .ret
          · simp [hi] at hx
          · simp only [hi, if_false] at hx ⊢
            obtain hx | hx := ih hP.tail (Nat.zero_le _) hx
            · exact .inl (.inr hx)
            · exact .inr hx
      | hop cond n =>
        simp only [List.cons_append, trace, walk] at hx ⊢
        by_cases hholds : cond.holds s.flags
        · rw [if_pos hholds] at hx ⊢
          rw [if_pos hholds]
          exact ih hP.tail hP.1 hx
        · rw [if_neg hholds] at hx ⊢
          rw [if_neg hholds]
          exact ih hP.tail (Nat.zero_le _) hx

/-- **What appended pieces run** is run by the first of them or, from where they fall through, by
the second. -/
theorem mem_trace_append {P : List Piece} (hP : Lands P) {Q : List Piece} {s : State}
    {x : Inst × State} (hx : x ∈ trace 0 (P ++ Q) s) :
    x ∈ trace 0 P s ∨ ∃ t, walk 0 P s = .fell t ∧ x ∈ trace 0 Q t :=
  mem_trace_append_skip hP (Nat.zero_le _) hx

/-! ## Programs -/

/-- Executing the rest of a placed program runs what walking through the rest of the pieces runs.

**Proof sketch.** Induction on the rest for every number of pieces passed over, as for the
walk itself. The fuel suffices because the position only moves forward, so every step leaves a
shorter rest. -/
theorem trace_place_skip (P front rest : List Piece) (hP : P = front ++ rest) (skip fuel : Nat)
    (hfuel : rest.length < fuel) (s : State) :
    Host.trace (place 0 P) fuel (place (front.length + skip) (rest.drop skip)) s =
      trace skip rest s := by
  induction rest generalizing front skip fuel s with
  | nil =>
    obtain ⟨fuel, rfl⟩ : ∃ k, fuel = k + 1 := ⟨fuel - 1, by omega⟩
    simp [place, Host.trace]
  | cons p rest ih =>
    have hP' : P = (front ++ [p]) ++ rest := by simp [hP]
    rw [List.length_cons] at hfuel
    cases skip with
    | succ skip =>
      have h := ih (front ++ [p]) hP' skip fuel (by omega) s
      rw [List.length_append, List.length_singleton,
        show front.length + 1 + skip = front.length + (skip + 1) by omega] at h
      exact h
    | zero =>
      obtain ⟨fuel, rfl⟩ : ∃ k, fuel = k + 1 := ⟨fuel - 1, by omega⟩
      have next : ∀ n t, Host.trace (place 0 P) fuel
          (place (front.length + 1 + n) (rest.drop n)) t = trace n rest t := by
        intro n t
        simpa using ih (front ++ [p]) hP' n fuel (by omega) t
      cases p with
      | inst i =>
        simp only [List.drop_zero, Nat.add_zero, place, Host.trace, trace]
        cases i.step s with
        | none => rfl
        | some t =>
          by_cases hi : i = .ret
          · simp [hi]
          · simpa [hi] using next 0 t
      | hop cond n =>
        simp only [List.drop_zero, Nat.add_zero, place, Host.trace, trace]
        split
        · rw [hP, drop_place_append, ← hP]
          exact next n s
        · simpa using next 0 s

/-- **Running a placed program** runs what walking through its pieces runs. -/
theorem trace_place (P : List Piece) (s : State) :
    (place 0 P).trace s = trace 0 P s := by
  have h := trace_place_skip P [] P rfl 0 (P.length + 1) (Nat.lt_succ_self _) s
  simpa [Host.Program.trace] using h

end Dynarec.Code
