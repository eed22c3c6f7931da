import Dynarec.Code.Builder
import Dynarec.Host.Machine

/-!
# Code as pieces with relative jumps

The code of one guest instruction only ever jumps forward, and never out of itself. Written as
pieces whose jumps say how many pieces they pass over, such code can be put together by appending,
and walked through by recursion on the list. This module relates that view to programs, whose jumps
name the position of their target.

## Main definitions

* `Dynarec.Code.Piece` — an instruction, or a jump over the pieces that follow it.
* `Dynarec.Code.walk` — what walking through pieces does to the host.
* `Dynarec.Code.Fits` — every instruction has an encoding, every jump lands inside and nearby.
* `Dynarec.Code.place` — pieces as the steps of a program.

## Main results

* `Dynarec.Code.walk_append` — walking through appended pieces is walking through one list and then
  through the other.
* `Dynarec.Code.run_place` — running placed pieces is walking through them: the fuel of a run is
  enough because jumps only go forward.
-/

set_option autoImplicit false

namespace Dynarec.Code

open Host (Inst State Outcome)

/-! ## Pieces -/

/-- An instruction, or a jump over the next `n` pieces. -/
inductive Piece where
  | inst (i : Inst)
  | hop (cond : Host.Cond) (n : Nat)

/-- How walking through pieces ended. -/
inductive Walked where
  /-- Behind the last piece. -/
  | fell (s : State)
  /-- By a return. -/
  | returned (s : State)
  /-- At an instruction that is trapped. -/
  | trapped

/-- Goes on with the state behind the last piece. -/
def Walked.andThen (w : Walked) (next : State → Walked) : Walked :=
  match w with
  | .fell s => next s
  | w => w

/-- What falls through goes on with what is next. -/
@[simp] theorem Walked.fell_andThen (s : State) (next : State → Walked) :
    (Walked.fell s).andThen next = next s := rfl

/-- What returns does not go on. -/
@[simp] theorem Walked.returned_andThen (s : State) (next : State → Walked) :
    (Walked.returned s).andThen next = .returned s := rfl

/-- What traps does not go on. -/
@[simp] theorem Walked.trapped_andThen (next : State → Walked) :
    Walked.trapped.andThen next = .trapped := rfl

/-- Walks through pieces after passing over the first `skip` of them. -/
def walk : Nat → List Piece → State → Walked
  | _, [], s => .fell s
  | skip + 1, _ :: rest, s => walk skip rest s
  | 0, .inst i :: rest, s =>
    match i.step s with
    | none => .trapped
    | some t => if i = .ret then .returned t else walk 0 rest t
  | 0, .hop cond n :: rest, s => if cond.holds s.flags then walk n rest s else walk 0 rest s

/-- No pieces fall through, however many were to be passed over. -/
@[simp] theorem walk_nil (skip : Nat) (s : State) : walk skip [] s = .fell s := by
  cases skip <;> rfl

/-- Passing over as many pieces as there are in front of a list reaches that list. -/
theorem walk_skip (front rest : List Piece) (s : State) :
    walk front.length (front ++ rest) s = walk 0 rest s := by
  induction front with
  | nil => rfl
  | cons p front ih => simpa [walk] using ih

/-! ## Well-formed pieces -/

/-- The number of pieces a jump may pass over at most. It keeps every displacement small. -/
def reach : Nat := 64

/-- Every instruction has an encoding, and every jump has a condition that exists and passes over
at most `reach` pieces, none of them past the end. -/
def Fits : List Piece → Prop
  | [] => True
  | .inst i :: rest => (∃ bytes, i.encode = .ok bytes) ∧ Fits rest
  | .hop cond n :: rest =>
    cond.code ≤ Host.Cond.always.code ∧ n ≤ rest.length ∧ n ≤ reach ∧ Fits rest

/-- Pieces that stay inside themselves do so when others follow, and when they follow others. -/
theorem Fits.append {P Q : List Piece} (hP : Fits P) (hQ : Fits Q) : Fits (P ++ Q) := by
  induction P with
  | nil => exact hQ
  | cons p P ih =>
    cases p with
    | inst i => exact ⟨hP.1, ih hP.2⟩
    | hop cond n =>
      obtain ⟨hc, hn, hr, hP⟩ := hP
      have hlen : n ≤ (P ++ Q).length := by
        rw [List.length_append]
        omega
      exact ⟨hc, hlen, hr, ih hP⟩

/-- Walking through appended pieces is walking through the first list and, if that falls out of its
end, through the second.

**Proof sketch.** Induction on the first list for every number of pieces passed over. A jump lands
inside the first list or at its end, so the pieces it passes over are never those of the second. -/
theorem walk_append_skip {P : List Piece} (hP : Fits P) (Q : List Piece) (skip : Nat)
    (hskip : skip ≤ P.length) (s : State) :
    walk skip (P ++ Q) s = (walk skip P s).andThen (walk 0 Q) := by
  induction P generalizing skip s with
  | nil =>
    obtain rfl : skip = 0 := by simpa using hskip
    simp
  | cons p P ih =>
    cases skip with
    | succ skip =>
      have htail : Fits P := by
        cases p with
        | inst i => exact hP.2
        | hop cond n => exact hP.2.2.2
      simpa [walk] using ih htail skip (by simpa using hskip) s
    | zero =>
      cases p with
      | inst i =>
        simp only [List.cons_append, walk]
        cases i.step s with
        | none => rfl
        | some t =>
          by_cases hi : i = .ret
          · simp [hi]
          · simpa [hi] using ih hP.2 0 (Nat.zero_le _) t
      | hop cond n =>
        obtain ⟨-, hn, -, hP⟩ := hP
        simp only [List.cons_append, walk]
        split
        · exact ih hP n hn s
        · exact ih hP 0 (Nat.zero_le _) s

/-- **Pieces in sequence**: the second are run from where the first fall through.

**Proof sketch.** Jumps of the first pieces go to their end at most, so a walk through all pieces
comes to the start of the second with nothing left to be passed over. -/
theorem walk_append {P : List Piece} (hP : Fits P) (Q : List Piece) (s : State) :
    walk 0 (P ++ Q) s = (walk 0 P s).andThen (walk 0 Q) :=
  walk_append_skip hP Q 0 (Nat.zero_le _) s

/-! ## Pieces in a program -/

/-- The steps of pieces that stand from position `i` on. -/
def place : Nat → List Piece → Host.Program
  | _, [] => []
  | i, .inst x :: rest => .inst x :: place (i + 1) rest
  | i, .hop cond n :: rest => .jump cond (i + 1 + n) :: place (i + 1) rest

/-- Every piece becomes one step. -/
@[simp] theorem length_place (i : Nat) (P : List Piece) : (place i P).length = P.length := by
  induction P generalizing i with
  | nil => rfl
  | cons p P ih => cases p <;> simp [place, ih]

/-- Leaving out the first pieces is leaving out the first steps; the others stay where they were. -/
theorem drop_place (i n : Nat) (P : List Piece) :
    (place i P).drop n = place (i + n) (P.drop n) := by
  induction n generalizing i P with
  | zero => rfl
  | succ n ih =>
    cases P with
    | nil => rfl
    | cons p P =>
      have h := ih (i + 1) P
      rw [show i + 1 + n = i + (n + 1) by omega] at h
      cases p <;> simpa [place] using h

/-- The steps from the position `n` behind a piece on are those of the pieces after it, less `n`. -/
theorem drop_place_append (front : List Piece) (p : Piece) (rest : List Piece) (n : Nat) :
    (place 0 (front ++ p :: rest)).drop (front.length + 1 + n) =
      place (front.length + 1 + n) (rest.drop n) := by
  have h : (front ++ [p] ++ rest).drop ((front ++ [p]).length + n) = rest.drop n :=
    List.drop_length_add_append n
  rw [List.length_append, List.length_singleton, List.append_assoc] at h
  rw [drop_place, Nat.zero_add]
  exact congrArg (place _) h

/-- How a run of a program ends that walks through pieces to its end. -/
def Walked.outcome : Walked → Outcome
  | .fell s => .ended s
  | .returned s => .returned s
  | .trapped => .trapped

/-- Executing the rest of a placed program is walking through the rest of the pieces.

**Proof sketch.** Induction on the pieces that remain. A jump over `n` of them goes to the position
`n` behind the next one, which is where the remaining pieces start once `n` are dropped. Each step
leaves fewer pieces, so one more fuel than there are pieces is enough. -/
theorem exec_place (P front rest : List Piece) (hP : P = front ++ rest) (skip fuel : Nat)
    (hfuel : rest.length < fuel) (s : State) :
    Host.exec (place 0 P) fuel (place (front.length + skip) (rest.drop skip)) s =
      (walk skip rest s).outcome := by
  induction rest generalizing front skip fuel s with
  | nil =>
    obtain ⟨fuel, rfl⟩ : ∃ k, fuel = k + 1 := ⟨fuel - 1, by omega⟩
    simp [place, Host.exec, Walked.outcome]
  | cons p rest ih =>
    have hP' : P = (front ++ [p]) ++ rest := by simp [hP]
    rw [List.length_cons] at hfuel
    cases skip with
    | succ skip =>
      have h := ih (front ++ [p]) hP' skip fuel (by omega) s
      rw [List.length_append, List.length_singleton,
        show front.length + 1 + skip = front.length + (skip + 1) by omega] at h
      exact h
    | zero =>
      obtain ⟨fuel, rfl⟩ : ∃ k, fuel = k + 1 := ⟨fuel - 1, by omega⟩
      have next : ∀ n t, Host.exec (place 0 P) fuel (place (front.length + 1 + n) (rest.drop n)) t =
          (walk n rest t).outcome := by
        intro n t
        simpa using ih (front ++ [p]) hP' n fuel (by omega) t
      cases p with
      | inst i =>
        simp only [List.drop_zero, Nat.add_zero, place, Host.exec, walk]
        cases i.step s with
        | none => rfl
        | some t =>
          by_cases hi : i = .ret
          · simp [hi, Walked.outcome]
          · simpa [hi] using next 0 t
      | hop cond n =>
        simp only [List.drop_zero, Nat.add_zero, place, Host.exec, walk]
        split
        · rw [hP, drop_place_append, ← hP]
          exact next n s
        · simpa using next 0 s

/-- Running a placed program is walking through its pieces. -/
theorem run_place (P : List Piece) (s : State) :
    (place 0 P).run s = (walk 0 P s).outcome := by
  have h := exec_place P [] P rfl 0 (P.length + 1) (Nat.lt_succ_self _) s
  simpa [Host.Program.run] using h

end Dynarec.Code
