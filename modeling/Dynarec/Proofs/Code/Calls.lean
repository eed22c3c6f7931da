import Dynarec.Proofs.Code.Appended
import Mathlib.Data.List.Induction
import Mathlib.Data.List.TakeWhile

/-!
# Calls on a builder

What a builder holds after any calls is told from the calls alone: the items they add, the labels
they create and bind, and how many items stood before a label when it was bound. A misuse of a label
or of a condition is remembered whatever is called after it.

## Main definitions

* `Dynarec.Code.Builder.Call`, `Dynarec.Code.Builder.calls` — calls, and the builder after them.
* `Dynarec.Code.Builder.added`, `Dynarec.Code.Builder.bound`, `Dynarec.Code.Builder.landing` — what
  calls add and bind, and where a branch to a label lands.
* `Dynarec.Code.Builder.Call.Allowed` — a call is no misuse behind those before it.
* `Dynarec.Code.Builder.Tracks` — a builder holds what calls have put into it.

## Main results

* `Dynarec.Code.Builder.calls_tracks` — calls that are no misuse leave a builder that holds what
  they put into it.
* `Dynarec.Code.Builder.failure_calls_eq_none_iff` — a failure is remembered exactly after a misuse.
-/

set_option autoImplicit false

namespace Dynarec.Code.Builder

/-! ## Calls -/

/-- A call on a builder. -/
inductive Call where
  | createLabel
  | bind (label : Nat)
  | add (i : Host.Inst)
  | addLabelled (i : Host.Inst) (label : Nat)
  | branch (cond : Host.Cond) (label : Nat)

/-- The builder after a call. -/
def call (b : Builder) : Call → Builder
  | .createLabel => b.createLabel.1
  | .bind label => b.bind label
  | .add i => b.add i
  | .addLabelled i label => b.addLabelled i label
  | .branch cond label => b.branch cond label

/-- The builder after some calls. -/
def calls (b : Builder) (cs : List Call) : Builder :=
  cs.foldl call b

namespace Call

/-- Whether a call creates a label. -/
def creates : Call → Bool
  | createLabel => true
  | bind _ | add _ | addLabelled _ _ | branch _ _ => false

/-- The label that a call binds. -/
def binds? : Call → Option Nat
  | bind label => some label
  | addLabelled _ label => some label
  | createLabel | add _ | branch _ _ => none

/-- The item that a call adds. -/
def item? : Call → Option Item
  | add i => some (.inst i)
  | addLabelled i _ => some (.inst i)
  | branch cond label => some (.branch cond label)
  | createLabel | bind _ => none

end Call

variable {cs more : List Call} {c : Call} {b : Builder} {l : Nat}

/-- The number of labels that calls create. -/
def created (cs : List Call) : Nat :=
  cs.countP Call.creates

/-- The labels that calls bind. -/
def bound (cs : List Call) : List Nat :=
  cs.filterMap Call.binds?

/-- The items that calls add. -/
def added (cs : List Call) : List Item :=
  cs.filterMap Call.item?

/-- The position of the first item added after a label was bound: the number of items added before
it was. -/
def landing (cs : List Call) (label : Nat) : Nat :=
  (added (cs.takeWhile fun c => c.binds? ≠ some label)).length

/-- A call is no misuse behind those before it: it binds a label that was created and not yet bound,
and it branches on a condition that exists. -/
def Call.Allowed (before : List Call) (c : Call) : Prop :=
  (∀ l, c.binds? = some l → l < created before ∧ l ∉ bound before) ∧
    ∀ cond l, c = .branch cond l → cond.code ≤ Host.Cond.always.code

/-- No call is a misuse behind those before it. -/
def AllAllowed (cs : List Call) : Prop :=
  ∀ before c after, cs = before ++ c :: after → c.Allowed before

/-- Calls and one more are allowed if the calls are and the last one is behind them.

**Proof sketch.** A call of the longer list is one of the shorter list or the last; either way
the calls before it are the same. -/
theorem allAllowed_concat_iff : AllAllowed (cs ++ [c]) ↔ AllAllowed cs ∧ c.Allowed cs := by
  constructor
  · intro h
    refine ⟨fun before d after heq => h before d (after ++ [c]) ?_, h cs c [] rfl⟩
    rw [heq, List.append_assoc, List.cons_append]
  · rintro ⟨h, hc⟩ before d after heq
    obtain rfl | ⟨after, e, rfl⟩ := List.eq_nil_or_concat after
    · obtain ⟨rfl, hd⟩ := List.append_inj' heq rfl
      cases hd
      exact hc
    · rw [List.concat_eq_append, ← List.cons_append, ← List.append_assoc] at heq
      exact h before d after (List.append_inj_left' heq rfl)

/-! ## Where branches land -/

/-- A label is bound if some call binds it. -/
theorem mem_bound : l ∈ bound cs ↔ ∃ c ∈ cs, c.binds? = some l :=
  List.mem_filterMap

/-- A label that is bound keeps its place. -/
theorem landing_append_of_mem (h : l ∈ bound cs) : landing (cs ++ more) l = landing cs l := by
  obtain ⟨c, hc, hl⟩ := mem_bound.1 h
  have hshort : (cs.takeWhile fun c => c.binds? ≠ some l).length ≠ cs.length := by
    intro hlength
    have hall := List.takeWhile_eq_self_iff.1
      ((List.takeWhile_prefix _).eq_of_length hlength) c hc
    simp [hl] at hall
  unfold landing
  rw [List.takeWhile_append, if_neg hshort]

/-- A label that is bound now stands for the next item. -/
theorem landing_append_of_not_mem (h : l ∉ bound cs) (hc : c.binds? = some l) :
    landing (cs ++ c :: more) l = (added cs).length := by
  have hall : ∀ d ∈ cs, decide (d.binds? ≠ some l) = true := fun d hd =>
    decide_eq_true fun hl => h (mem_bound.2 ⟨d, hd, hl⟩)
  unfold landing
  rw [List.takeWhile_append_of_pos hall, List.takeWhile_cons_of_neg (by simp [hc]), List.append_nil]

/-! ## What calls leave behind -/

/-- A builder holds what calls have put into it, and remembers no failure. -/
structure Tracks (cs : List Call) (b : Builder) : Prop where
  items : b.items.toList = added cs
  labels : b.labels.size = created cs
  position : ∀ l, b.position? l = if l ∈ bound cs then some (landing cs l) else none
  failure : b.failure = none

/-- What a call does if it binds only a label that was created and is unbound, and branches only on
a condition that exists.

**Proof sketch.** One case for each call. Adding an instruction with a label is binding the
label and adding the instruction, so its case puts those two together. -/
theorem call_spec (hbind : ∀ l, c.binds? = some l → l < b.labels.size ∧ b.position? l = none)
    (hcond : ∀ cond l, c = .branch cond l → cond.code ≤ Host.Cond.always.code) :
    (b.call c).items.toList = b.items.toList ++ c.item?.toList ∧
      (b.call c).labels.size = b.labels.size + c.creates.toNat ∧
      (∀ k, (b.call c).position? k =
        if c.binds? = some k then some b.length else b.position? k) ∧
      (b.call c).failure = b.failure := by
  cases c with
  | createLabel =>
    refine ⟨by simp [call, createLabel, Call.item?], size_labels_createLabel b, fun k => ?_, rfl⟩
    rw [if_neg (by simp [Call.binds?]), call, position?_createLabel]
  | bind l =>
    obtain ⟨hl, hopen⟩ := hbind l rfl
    refine ⟨?_, size_labels_bind b l, fun k => ?_, ?_⟩
    · simp [call, bind_of_unbound hl hopen, Call.item?]
    · rw [call, position?_bind hl hopen]
      simp [Call.binds?, eq_comm]
    · rw [call, bind_of_unbound hl hopen]
  | add i => exact ⟨by simp [call, add, Call.item?], rfl, fun _ => rfl, rfl⟩
  | addLabelled i l =>
    obtain ⟨hl, hopen⟩ := hbind l rfl
    refine ⟨?_, size_labels_bind b l, fun k => ?_, ?_⟩
    · simp [call, addLabelled, add, bind_of_unbound hl hopen, Call.item?]
    · rw [call, addLabelled, show ((b.bind l).add i).position? k = (b.bind l).position? k from rfl,
        position?_bind hl hopen]
      simp [Call.binds?, eq_comm]
    · rw [call, addLabelled, add, bind_of_unbound hl hopen]
  | branch cond l =>
    rw [call, branch_of_le (hcond cond l rfl)]
    exact ⟨by simp [Call.item?], rfl, fun _ => rfl, rfl⟩

/-- A call that is no misuse puts into a builder what it is meant to.

**Proof sketch.** The call binds only a label that was created and is unbound, so `call_spec`
says what it does to the builder. What it does to the list of calls is the same: an item more at
the end, a label more, or a label bound to the end of the items so far. -/
theorem Tracks.call (h : Tracks cs b) (hc : c.Allowed cs) : Tracks (cs ++ [c]) (b.call c) := by
  have hbind : ∀ l, c.binds? = some l → l < b.labels.size ∧ b.position? l = none := by
    intro l hl
    obtain ⟨hcreated, hopen⟩ := hc.1 l hl
    rw [h.labels, h.position, if_neg hopen]
    exact ⟨hcreated, rfl⟩
  obtain ⟨hitems, hlabels, hposition, hfailure⟩ := call_spec hbind hc.2
  have hbound : bound (cs ++ [c]) = bound cs ++ c.binds?.toList := by
    unfold bound
    rw [List.filterMap_append]
    cases hl : c.binds? <;> simp [hl]
  refine ⟨?_, ?_, fun l => ?_, hfailure.trans h.failure⟩
  · rw [hitems, h.items, added, added, List.filterMap_append]
    cases hi : c.item? <;> simp [hi]
  · rw [hlabels, h.labels, created, created, List.countP_append]
    cases hcreates : c.creates <;> simp [hcreates]
  · rw [hposition, hbound]
    by_cases hl : c.binds? = some l
    · rw [if_pos hl, if_pos (by simp [hl]), landing_append_of_not_mem (hc.1 l hl).2 hl, length_eq,
        h.items]
    · have hmem : l ∈ bound cs ++ c.binds?.toList ↔ l ∈ bound cs := by simp [hl]
      rw [if_neg hl, h.position]
      by_cases hold : l ∈ bound cs
      · rw [if_pos hold, if_pos (hmem.2 hold), landing_append_of_mem hold]
      · rw [if_neg hold, if_neg fun hnew => hold (hmem.1 hnew)]

/-! ## Misuse -/

/-- Binding a label a second time, or before it was created, is remembered as a misuse. -/
theorem failure_bind (h : (b.position? l).isSome = true ∨ b.labels.size ≤ l) :
    (b.bind l).failure ≠ none := by
  unfold bind
  split_ifs with hbound hunknown
  · simp [fail]
  · simp [fail]
  · exact absurd h (by simp [hbound, hunknown])

/-- A misuse is remembered.

**Proof sketch.** A misuse binds a label that is bound or was never created, which the
builder sees in its labels, or branches on a condition that does not exist, which it sees in the
condition. -/
theorem Tracks.failure_call (h : Tracks cs b) (hc : ¬ c.Allowed cs) :
    (b.call c).failure ≠ none := by
  have hmisuse : ∀ l, ¬ (l < created cs ∧ l ∉ bound cs) → (b.bind l).failure ≠ none := by
    intro l hl
    refine failure_bind ?_
    rw [h.position, h.labels]
    by_cases hmem : l ∈ bound cs
    · exact .inl (by simp [hmem])
    · exact .inr (Nat.not_lt.1 fun hlt => hl ⟨hlt, hmem⟩)
  cases c with
  | createLabel | add i => exact absurd ⟨by simp [Call.binds?], by simp⟩ hc
  | bind l => exact hmisuse l fun hl => hc ⟨by simpa [Call.binds?] using hl, by simp⟩
  | addLabelled i l => exact hmisuse l fun hl => hc ⟨by simpa [Call.binds?] using hl, by simp⟩
  | branch cond l =>
    have hcond : ¬ cond.code ≤ Host.Cond.always.code := fun hle =>
      hc ⟨by simp [Call.binds?], by rintro _ _ ⟨⟩; exact hle⟩
    rw [Builder.call, branch, if_pos (BitVec.not_le.1 hcond)]
    simp [fail]

/-- What a call does to the failure that is remembered: nothing, or it is a misuse of its own.

**Proof sketch.** Binding a label and branching are the only calls that can fail. Each of
them remembers a failure only if there is none yet. -/
theorem failure_call_cases (b : Builder) (c : Call) : (b.call c).failure = b.failure ∨
    ∃ reason, (b.call c).failure = some (b.failure.getD (.of .encoding reason)) := by
  have hbind : ∀ l, (b.bind l).failure = b.failure ∨
      ∃ reason, (b.bind l).failure = some (b.failure.getD (.of .encoding reason)) := by
    intro l
    unfold bind
    split_ifs
    · exact .inr ⟨_, rfl⟩
    · exact .inr ⟨_, rfl⟩
    · exact .inl rfl
  cases c with
  | createLabel | add i => exact .inl rfl
  | bind l => exact hbind l
  | addLabelled i l => exact hbind l
  | branch cond l =>
    rw [call, branch]
    split
    · exact .inr ⟨_, rfl⟩
    · exact .inl rfl

/-! ## Any calls -/

/-- The builder after one more call. -/
theorem calls_concat (b : Builder) (cs : List Call) (c : Call) :
    b.calls (cs ++ [c]) = (b.calls cs).call c := by
  simp [calls]

/-- **Calls that are no misuse** leave a builder that holds what they put into it. -/
theorem calls_tracks (h : AllAllowed cs) : Tracks cs (({} : Builder).calls cs) := by
  induction cs using List.reverseRecOn with
  | nil => exact ⟨rfl, rfl, fun l => by simp [position?, calls, bound], rfl⟩
  | append_singleton cs c ih =>
    obtain ⟨hcs, hc⟩ := allAllowed_concat_iff.1 h
    rw [calls_concat]
    exact (ih hcs).call hc

/-- **A failure is remembered exactly after a misuse.**

**Proof sketch.** By induction on the calls from the end. If nothing is remembered after the
last call, nothing was before it, so the calls before are all allowed and the builder holds what
they put into it. Then a last call that is a misuse would have been remembered
(`Tracks.failure_call`). -/
theorem failure_calls_eq_none_iff (cs : List Call) :
    (({} : Builder).calls cs).failure = none ↔ AllAllowed cs := by
  refine ⟨fun h => ?_, fun h => (calls_tracks h).failure⟩
  induction cs using List.reverseRecOn with
  | nil => simp [AllAllowed]
  | append_singleton cs c ih =>
    rw [calls_concat] at h
    have hbefore : (({} : Builder).calls cs).failure = none := by
      obtain heq | ⟨reason, heq⟩ := failure_call_cases (({} : Builder).calls cs) c
      · exact heq.symm.trans h
      · rw [h] at heq
        cases heq
    have hcs := ih hbefore
    refine allAllowed_concat_iff.2 ⟨hcs, ?_⟩
    by_contra hc
    exact (calls_tracks hcs).failure_call hc h

/-- Whatever misuse is remembered is of one link.

**Proof sketch.** By induction on the calls from the end: a call remembers a reason of its
own, or what is remembered already. -/
theorem failure_calls_of {f : Failure} (h : (({} : Builder).calls cs).failure = some f) :
    ∃ reason, f = .of .encoding reason := by
  induction cs using List.reverseRecOn generalizing f with
  | nil => cases h
  | append_singleton cs c ih =>
    rw [calls_concat] at h
    obtain heq | ⟨reason, heq⟩ := failure_call_cases (({} : Builder).calls cs) c
    · exact ih (heq.symm.trans h)
    · rw [h, Option.some.injEq] at heq
      cases hold : (({} : Builder).calls cs).failure with
      | none => exact ⟨reason, by rw [heq, hold]; rfl⟩
      | some g =>
        rw [hold, Option.getD_some] at heq
        exact heq ▸ ih hold

end Dynarec.Code.Builder
