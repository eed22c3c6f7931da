import Dynarec.Proofs.Code.Layout
import Mathlib.Logic.Function.Iterate

/-!
# Where widening stops

Widening a branch moves code apart and brings nothing together, so a branch that fails to reach its
target in one round fails to reach it in every later one. Where widening stops, the branches in long
form are therefore exactly those whose displacement does not fit the short form.

## Main definitions

* `Dynarec.Code.sizeAt` — the length of the chunk at a position.
* `Dynarec.Code.Needed` — every long branch is too far from its target for the short form.

## Main results

* `Dynarec.Code.fitsInt8_displacement_mono` — longer chunks bring no target into reach.
* `Dynarec.Code.Needed.relax` — widening makes no branch long that need not be.
* `Dynarec.Code.exists_iterate_relax` — widening is repeated, at most once for each round allowed.
-/

set_option autoImplicit false

namespace Dynarec.Code

/-! ## Longer chunks -/

/-- The length of the chunk at a position, zero past the last one. -/
def sizeAt (chunks : List Chunk) (k : Nat) : Nat :=
  (chunks[k]?).elim 0 Chunk.size

/-- A chunk starts where the one before it ends. -/
theorem start_succ (chunks : List Chunk) (k : Nat) :
    start chunks (k + 1) = start chunks k + sizeAt chunks k := by
  unfold start sizeAt
  rw [List.take_add_one, foldr_size_append]
  cases chunks[k]? <;> simp

/-- Chunks start in order. -/
theorem start_mono (chunks : List Chunk) {j k : Nat} (h : j ≤ k) :
    start chunks j ≤ start chunks k := by
  induction h with
  | refl => exact Nat.le_refl _
  | step _ ih =>
    rw [start_succ]
    omega

/-- Where chunks are as long as others or longer, their starts lie as far apart or farther. -/
theorem start_add_start_le {chunks longer : List Chunk}
    (h : ∀ k, sizeAt chunks k ≤ sizeAt longer k) {j k : Nat} (hjk : j ≤ k) :
    start chunks k + start longer j ≤ start longer k + start chunks j := by
  induction hjk with
  | refl => omega
  | @step k _ ih =>
    have hk := h k
    rw [start_succ, start_succ]
    omega

/-- **Longer chunks bring no target into reach.** -/
theorem fitsInt8_displacement_mono {chunks longer : List Chunk}
    (h : ∀ k, sizeAt chunks k ≤ sizeAt longer k) {i target : Nat}
    (hfar : fitsInt8 (displacement chunks i target) = false) :
    fitsInt8 (displacement longer i target) = false := by
  rw [← Bool.not_eq_true] at hfar ⊢
  simp only [fitsInt8, decide_eq_true_eq] at hfar ⊢
  unfold displacement at hfar ⊢
  -- targets behind the branch move away forwards, targets before it backwards
  obtain hle | hle := Nat.le_total (i + 1) target
  · have hstart := start_mono chunks hle
    have hgap := start_add_start_le h hle
    omega
  · have hstart := start_mono chunks hle
    have hgap := start_add_start_le h hle
    omega

/-- A chunk is no shorter after a round of widening. -/
theorem size_le_widenAt (chunks : List Chunk) (i : Nat) (c : Chunk) :
    c.size ≤ (widenAt chunks i c).size := by
  unfold widenAt
  split
  · simp only [Chunk.size, Host.Jump.size]
    split_ifs <;> simp_all
  · exact Nat.le_refl _

/-- Widening makes no chunk shorter, wherever it stands. -/
theorem sizeAt_le_widen (chunks : List Chunk) (k : Nat) :
    sizeAt chunks k ≤ sizeAt (widen chunks) k := by
  unfold sizeAt widen
  rw [List.getElem?_mapIdx]
  cases chunks[k]? with
  | none => simp
  | some c => exact size_le_widenAt chunks k c

/-! ## Long branches -/

/-- Every long branch is too far from its target for the short form. -/
def Needed (chunks : List Chunk) : Prop :=
  ∀ i cond target, chunks[i]? = some (.branch cond target true) →
    fitsInt8 (displacement chunks i target) = false

/-- One round of widening makes only those branches long that have to be, and they stay so. -/
theorem Needed.widen {chunks : List Chunk} (h : Needed chunks) : Needed (widen chunks) := by
  intro i cond target hi
  refine fitsInt8_displacement_mono (sizeAt_le_widen chunks) ?_
  rw [Code.widen, List.getElem?_mapIdx, Option.map_eq_some_iff] at hi
  obtain ⟨c, hc, hwide⟩ := hi
  unfold widenAt at hwide
  split at hwide
  · simp only [Chunk.branch.injEq, Bool.not_eq_true'] at hwide
    obtain ⟨-, rfl, hfar⟩ := hwide
    exact hfar
  · subst hwide
    exact h i cond target hc

/-- **Widening makes no branch long that need not be**, in any number of rounds. -/
theorem Needed.relax {chunks : List Chunk} (h : Needed chunks) (rounds : Nat) :
    Needed (relax rounds chunks) := by
  induction rounds generalizing chunks with
  | zero => exact h
  | succ rounds ih =>
    rw [Code.relax]
    split
    · exact h
    · exact ih h.widen

/-- Where widening stops, a branch is long exactly if its displacement does not fit the short
form. -/
theorem Needed.wide_eq {chunks : List Chunk} (h : Needed chunks)
    (hfixed : Code.widen chunks = chunks) {i target : Nat} {cond : Host.Cond} {wide : Bool}
    (hi : chunks[i]? = some (.branch cond target wide)) :
    wide = !fitsInt8 (displacement chunks i target) := by
  cases wide with
  | false => rw [fitsInt8_of_widen_eq hfixed hi, Bool.not_true]
  | true => rw [h i cond target hi, Bool.not_false]

/-- Whatever widening keeps of a chunk is kept in any number of rounds. -/
theorem getElem?_relax {p : Chunk → Prop} (hp : ∀ chunks i c, p c → p (widenAt chunks i c))
    {chunks : List Chunk} {i : Nat} {c : Chunk} (hi : chunks[i]? = some c) (hc : p c)
    (rounds : Nat) : ∃ d, (relax rounds chunks)[i]? = some d ∧ p d := by
  induction rounds generalizing chunks c with
  | zero => exact ⟨c, hi, hc⟩
  | succ rounds ih =>
    rw [relax]
    split
    · exact ⟨c, hi, hc⟩
    · refine ih (c := widenAt chunks i c) ?_ (hp chunks i c hc)
      rw [widen, List.getElem?_mapIdx, hi, Option.map_some]

/-- Widening neither adds nor removes chunks. -/
theorem length_relax (rounds : Nat) (chunks : List Chunk) :
    (relax rounds chunks).length = chunks.length := by
  have hmap := congrArg List.length (map_step_relax rounds chunks)
  simpa using hmap

/-- Widening until nothing changes is widening some number of times. -/
theorem exists_iterate_relax (rounds : Nat) (chunks : List Chunk) :
    ∃ k ≤ rounds, relax rounds chunks = Nat.iterate widen k chunks := by
  induction rounds generalizing chunks with
  | zero => exact ⟨0, Nat.le_refl _, rfl⟩
  | succ rounds ih =>
    rw [relax]
    split
    · exact ⟨0, Nat.zero_le _, rfl⟩
    · obtain ⟨k, hk, heq⟩ := ih (widen chunks)
      exact ⟨k + 1, Nat.succ_le_succ hk, heq⟩

end Dynarec.Code
