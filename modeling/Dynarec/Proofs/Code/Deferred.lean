import Dynarec.Proofs.Code.Calls

/-!
# Assembling in the middle of building

A builder can also put off binding a label: the label waits until the next item is added or the code
is assembled, and is bound to the position that the next item has or would have. Assembling then
changes the builder. That makes no difference to what is answered: once the waiting labels are
settled it is the builder that binds at once, which assembling does not change at all.

## Main definitions

* `Dynarec.Code.Builder.Request` — what is asked of a builder.
* `Dynarec.Code.Builder.reply`, `Dynarec.Code.Builder.serve` — what it answers, and the builder
  after that.
* `Dynarec.Code.Deferred` — a builder with labels that wait to be bound.
* `Dynarec.Code.Deferred.settled` — the builder that has bound them.
* `Dynarec.Code.Spares` — requests without some of those to assemble.

## Main results

* `Dynarec.Code.Deferred.reply_settled`, `Dynarec.Code.Deferred.settled_serve` — one request, before
  and after settling.
* `Dynarec.Code.Deferred.settled_after` — any requests.
* `Dynarec.Code.replies_without_assembling` — leaving out requests to assemble changes no answer.
-/

set_option autoImplicit false

namespace Dynarec.Code

/-! ## Requests -/

namespace Builder

/-- What is asked of a builder. -/
inductive Request where
  | call (c : Call)
  | length
  | assemble
  | finalize (p : Pool)

/-- What a builder answers. -/
inductive Reply where
  | done
  | label (l : Nat)
  | length (n : Nat)
  | code (r : Except Failure Assembled)
  | placed (r : Except Failure (Assembled × Pool))

/-- The answer to a request. -/
def reply (b : Builder) : Request → Reply
  | .call .createLabel => .label b.createLabel.2
  | .call _ => .done
  | .length => .length b.length
  | .assemble => .code b.assemble
  | .finalize p => .placed (b.finalize p).2

/-- The builder after a request. -/
def serve (b : Builder) : Request → Builder
  | .call c => b.call c
  | .length | .assemble => b
  | .finalize p => (b.finalize p).1

/-- The builder after some requests. -/
def after (b : Builder) (rs : List Request) : Builder :=
  rs.foldl serve b

/-- Assembling asks a builder for its items, its failure and where its labels are bound. -/
theorem resolveFrom_congr {b b' : Builder} (h : b'.position? = b.position?) (i : Nat)
    (its : List Item) : b'.resolveFrom i its = b.resolveFrom i its := by
  have hresolve : ∀ i item, b'.resolve i item = b.resolve i item := by
    intro i item
    cases item with
    | inst x => rfl
    | branch cond l => rw [resolve, resolve, h]
  induction its generalizing i with
  | nil => rfl
  | cons item its ih => rw [resolveFrom, resolveFrom, hresolve, ih]

/-- A builder that has been closed assembles to the same code. -/
theorem assemble_finalized (b : Builder) :
    ({ b with finalized := true } : Builder).assemble = b.assemble := by
  have hresolve : ∀ i its, ({ b with finalized := true } : Builder).resolveFrom i its =
      b.resolveFrom i its := resolveFrom_congr rfl
  rw [assemble, assemble, hresolve]

end Builder

open Builder (Call Request Reply)

/-! ## Labels that wait -/

/-- Labels with some of them bound to one position. -/
def bindAll (position : Nat) (labels : Array (Option Nat)) (ls : List Nat) : Array (Option Nat) :=
  ls.foldl (fun labels l => labels.setIfInBounds l (some position)) labels

/-- A builder that binds a label when the next item is added or the code is assembled. -/
structure Deferred extends Builder where
  /-- The labels to be bound to the next item, or to the end of the code. -/
  waiting : List Nat
  waiting_lt : ∀ l ∈ waiting, l < labels.size

namespace Deferred

/-- A builder with no label waiting. -/
def ofBuilder (b : Builder) : Deferred where
  toBuilder := b
  waiting := []
  waiting_lt := List.forall_mem_nil _

/-- The builder that has bound the waiting labels. -/
def settled (d : Deferred) : Builder :=
  { d.toBuilder with labels := bindAll d.length d.labels d.waiting }

/-- Binds the waiting labels to the next item, or to the end of the code. -/
def flush (d : Deferred) : Deferred :=
  ofBuilder d.settled

/-- Remembers a misuse unless there already was one. -/
def fail (d : Deferred) (reason : Reason) : Deferred :=
  { d with toBuilder := d.toBuilder.fail reason, waiting_lt := d.waiting_lt }

/-- A fresh label. -/
def createLabel (d : Deferred) : Deferred × Nat :=
  ({ toBuilder := d.toBuilder.createLabel.1
     waiting := d.waiting
     waiting_lt := fun l hl => by
      rw [Builder.size_labels_createLabel]
      exact Nat.lt_succ_of_lt (d.waiting_lt l hl) }, d.toBuilder.createLabel.2)

/-- Lets a label wait for the next item, or for the end of the code. -/
def bind (d : Deferred) (label : Nat) : Deferred :=
  if (d.position? label).isSome ∨ label ∈ d.waiting then d.fail (.labelBoundTwice label)
  else if h : d.labels.size ≤ label then d.fail (.labelUnknown label)
  else
    { d with
      waiting := d.waiting ++ [label]
      waiting_lt := List.forall_mem_append.2
        ⟨d.waiting_lt, List.forall_mem_singleton.2 (Nat.lt_of_not_le h)⟩ }

/-- Adds an item, which the waiting labels are bound to. -/
def push (d : Deferred) (item : Item) : Deferred :=
  ofBuilder { d.flush.toBuilder with items := d.items.push item }

/-- The builder after a call. -/
def call (d : Deferred) : Call → Deferred
  | .createLabel => d.createLabel.1
  | .bind label => d.bind label
  | .add i => d.push (.inst i)
  | .addLabelled i label => (d.bind label).push (.inst i)
  | .branch cond label =>
    if Host.Cond.always.code < cond.code then d.fail (.branchCondition cond)
    else d.push (.branch cond label)

/-- Binds the waiting labels and lays the code out. After a misuse nothing is bound. -/
def assemble (d : Deferred) : Deferred × Except Failure Assembled :=
  match d.failure with
  | some f => (d, .error f)
  | none => (d.flush, d.flush.toBuilder.assemble)

/-- Marks a builder as finalized. -/
def close (d : Deferred) : Deferred :=
  { d with finalized := true, waiting_lt := d.waiting_lt }

/-- Assembles the code and places it in pages, once. -/
def finalize (d : Deferred) (p : Pool) : Deferred × Except Failure (Assembled × Pool) :=
  if d.finalized then (d, .error (.of .encoding .alreadyFinalized))
  else
    (d.close.assemble.1, do
      let code ← d.close.assemble.2
      let pool ← p.allocate code.bytes
      .ok (code, pool))

/-- The answer to a request. -/
def reply (d : Deferred) : Request → Reply
  | .call .createLabel => .label d.createLabel.2
  | .call _ => .done
  | .length => .length d.length
  | .assemble => .code d.assemble.2
  | .finalize p => .placed (d.finalize p).2

/-- The builder after a request. -/
def serve (d : Deferred) : Request → Deferred
  | .call c => d.call c
  | .length => d
  | .assemble => d.assemble.1
  | .finalize p => (d.finalize p).1

/-- The builder after some requests. -/
def after (d : Deferred) (rs : List Request) : Deferred :=
  rs.foldl serve d

/-! ## Settling -/

variable {labels : Array (Option Nat)} {ls : List Nat}

/-- Creating a label and binding others can be done in either order. -/
theorem bindAll_push (position : Nat) (h : ∀ l ∈ ls, l < labels.size) :
    bindAll position (labels.push none) ls = (bindAll position labels ls).push none := by
  induction ls generalizing labels with
  | nil => rfl
  | cons l ls ih =>
    obtain ⟨hl, hls⟩ := List.forall_mem_cons.1 h
    -- the fresh label stands behind all that wait, so binding one of them does not touch it
    have hpush : (labels.push none).setIfInBounds l (some position) =
        (labels.setIfInBounds l (some position)).push none := by
      apply Array.toList_inj.1
      rw [Array.toList_setIfInBounds, Array.toList_push, Array.toList_push,
        Array.toList_setIfInBounds, List.set_append_left _ _ (by simpa using hl)]
    rw [bindAll, List.foldl_cons, hpush]
    exact ih (by simpa using hls)

/-- Binding labels creates none. -/
theorem size_bindAll (position : Nat) (labels : Array (Option Nat)) (ls : List Nat) :
    (bindAll position labels ls).size = labels.size := by
  induction ls generalizing labels with
  | nil => rfl
  | cons l ls ih => exact (ih _).trans Array.size_setIfInBounds

/-- Of labels some of which are bound to a position, those stand for it and the others for what they
stood for.

**Proof sketch.** By induction on the labels to be bound. One that occurs twice is bound to the
same position twice. -/
theorem getElem?_bindAll (position : Nat) (h : ∀ l ∈ ls, l < labels.size) (k : Nat) :
    (bindAll position labels ls)[k]? = if k ∈ ls then some (some position) else labels[k]? := by
  induction ls generalizing labels with
  | nil => rfl
  | cons l ls ih =>
    obtain ⟨hl, hls⟩ := List.forall_mem_cons.1 h
    rw [bindAll, List.foldl_cons]
    refine (ih (by simpa using hls)).trans ?_
    by_cases hk : k ∈ ls
    · simp [hk]
    · by_cases hkl : l = k
      · subst hkl
        simp [hk, hl]
      · simp [hk, hkl, Ne.symm hkl]

/-- A waiting label stands for the next item, and the others for what they are bound to. -/
theorem position?_settled (d : Deferred) (l : Nat) :
    d.settled.position? l = if l ∈ d.waiting then some d.length else d.position? l := by
  rw [Builder.position?, settled, getElem?_bindAll _ d.waiting_lt]
  split <;> rfl

/-- Settling creates no label. -/
theorem size_labels_settled (d : Deferred) : d.settled.labels.size = d.labels.size :=
  size_bindAll ..

/-- A misuse is remembered alike before and after settling. -/
theorem settled_fail (d : Deferred) (reason : Reason) :
    (d.fail reason).settled = d.settled.fail reason := rfl

/-- A label can be created before or after settling, since the one created is not among those
that wait. -/
theorem settled_createLabel (d : Deferred) :
    d.createLabel.1.settled = d.settled.createLabel.1 := by
  have hlabels : bindAll d.length (d.labels.push none) d.waiting =
      (bindAll d.length d.labels d.waiting).push none := bindAll_push _ d.waiting_lt
  exact congrArg (fun labels => ({ d.toBuilder with labels := labels } : Builder)) hlabels

/-- A label is bound after settling if it is bound or waits before. -/
theorem isSome_position?_settled (d : Deferred) (l : Nat) :
    (d.settled.position? l).isSome = true ↔ (d.position? l).isSome = true ∨ l ∈ d.waiting := by
  rw [position?_settled]
  by_cases hl : l ∈ d.waiting
  · simp [hl]
  · simp [hl]

/-- **Binding a label** before settling is binding it after.

**Proof sketch.** A label is bound twice if it is bound or waits, which is to say that it is
bound after settling (`isSome_position?_settled`). Otherwise it joins those that wait, and is
settled to the position that binding it at once would give. -/
theorem settled_bind (d : Deferred) (l : Nat) : (d.bind l).settled = d.settled.bind l := by
  -- a label that is bound twice is looked for in two places before settling, and in one after it
  have hbound := d.isSome_position?_settled l
  unfold bind Builder.bind
  rw [d.size_labels_settled]
  by_cases htwice : (d.position? l).isSome = true ∨ l ∈ d.waiting
  · rw [if_pos htwice, if_pos (hbound.2 htwice), settled_fail]
  · rw [if_neg htwice, if_neg (mt hbound.1 htwice)]
    by_cases hunknown : d.labels.size ≤ l
    · rw [dif_pos hunknown, if_pos hunknown, settled_fail]
    · rw [dif_neg hunknown, if_neg hunknown]
      simp [settled, bindAll, Builder.length]

/-- Adding an item settles the labels that wait, to the position of that item. -/
theorem settled_push (d : Deferred) (item : Item) :
    (d.push item).settled = { d.settled with items := d.items.push item } := rfl

/-- A call before settling is the same call after it. -/
theorem settled_call (d : Deferred) (c : Call) : (d.call c).settled = d.settled.call c := by
  cases c with
  | createLabel => exact d.settled_createLabel
  | bind l => exact d.settled_bind l
  | add i => rfl
  | addLabelled i l =>
    rw [call, settled_push, Builder.call, Builder.addLabelled, ← settled_bind]
    rfl
  | branch cond l =>
    rw [call, Builder.call, Builder.branch]
    split <;> rfl

/-- Assembling settles at most, and lays out the settled code. -/
theorem assemble_eq (d : Deferred) :
    d.assemble.1.settled = d.settled ∧ d.assemble.2 = d.settled.assemble := by
  have hsettled : d.settled.failure = d.failure := rfl
  cases hfailure : d.failure with
  | none =>
    rw [assemble, hfailure]
    exact ⟨rfl, rfl⟩
  | some f =>
    rw [Builder.assemble, assemble, hsettled, hfailure]
    exact ⟨rfl, rfl⟩

/-- Closing a builder and placing its code gives the same before and after settling, and leaves
the same builder once it is settled. -/
theorem finalize_eq (d : Deferred) (p : Pool) :
    (d.finalize p).1.settled = (d.settled.finalize p).1 ∧
      (d.finalize p).2 = (d.settled.finalize p).2 := by
  have hfinalized : d.settled.finalized = d.finalized := rfl
  have hcode : d.close.assemble.2 = d.settled.assemble :=
    d.close.assemble_eq.2.trans d.settled.assemble_finalized
  rw [finalize, Builder.finalize, hfinalized, hcode]
  split
  · exact ⟨rfl, rfl⟩
  · exact ⟨d.close.assemble_eq.1, rfl⟩

/-! ## One request, any requests -/

/-- What is answered before settling is what is answered after it. -/
theorem reply_settled (d : Deferred) (r : Request) : d.reply r = d.settled.reply r := by
  cases r with
  | call c =>
    cases c with
    | createLabel =>
      rw [reply, Builder.reply, createLabel, Builder.snd_createLabel, Builder.snd_createLabel,
        size_labels_settled]
    | bind _ | add _ | addLabelled _ _ | branch _ _ => rfl
  | length => rfl
  | assemble => rw [reply, Builder.reply, d.assemble_eq.2]
  | finalize p => rw [reply, Builder.reply, (d.finalize_eq p).2]

/-- A request before settling is the same request after it. -/
theorem settled_serve (d : Deferred) (r : Request) : (d.serve r).settled = d.settled.serve r := by
  cases r with
  | call c => exact d.settled_call c
  | length => rfl
  | assemble => exact d.assemble_eq.1
  | finalize p => exact (d.finalize_eq p).1

/-- Any requests before settling are the same requests after it. -/
theorem settled_after (d : Deferred) (rs : List Request) :
    (d.after rs).settled = d.settled.after rs := by
  induction rs generalizing d with
  | nil => rfl
  | cons r rs ih => exact (ih (d.serve r)).trans (congrArg (Builder.after · rs) (d.settled_serve r))

end Deferred

/-! ## Leaving out requests to assemble -/

/-- The second requests are the first without some of those to assemble. -/
inductive Spares : List Request → List Request → Prop where
  | nil : Spares [] []
  | keep {more fewer : List Request} (r : Request) (h : Spares more fewer) :
      Spares (r :: more) (r :: fewer)
  | drop {more fewer : List Request} (h : Spares more fewer) : Spares (.assemble :: more) fewer

/-- A builder that binds at once is the same whether or not it was assembled. -/
theorem Spares.after_eq {more fewer : List Request} (h : Spares more fewer) (b : Builder) :
    b.after more = b.after fewer := by
  induction h generalizing b with
  | nil => rfl
  | keep r h ih => exact ih (b.serve r)
  | drop h ih => exact ih b

/-- A label that is bound stands for the next item that is added, however often the code is
assembled in between.

**Proof sketch.** Requests to assemble change nothing once labels are settled
(`Spares.after_eq`), so the builder is the settled one that has bound the label. Adding the
instruction settles the label to the position of the instruction. -/
theorem Deferred.bind_assemble_add {d : Deferred} {l : Nat} (hl : l < d.labels.size)
    (hopen : d.settled.position? l = none) (n : Nat) (i : Host.Inst) :
    let e := d.after (.call (.bind l) :: (List.replicate n .assemble ++ [.call (.add i)]))
    e.position? l = some d.length ∧ e.items[d.length]? = some (.inst i) := by
  have hl' : l < d.settled.labels.size := by rwa [size_labels_settled]
  have hspares : Spares (.call (.bind l) :: List.replicate n .assemble) [.call (.bind l)] := by
    refine .keep _ ?_
    induction n with
    | zero => exact .nil
    | succ n ih => exact .drop ih
  have hbound : (d.after (.call (.bind l) :: List.replicate n .assemble)).settled =
      d.settled.bind l := by
    rw [settled_after, hspares.after_eq]
    rfl
  intro e
  have he : e.toBuilder = (d.settled.bind l).add i := by
    have hsplit : e = (d.after (.call (.bind l) :: List.replicate n .assemble)).push (.inst i) :=
      List.foldl_append ..
    rw [hsplit, ← hbound]
    rfl
  rw [he]
  refine ⟨(Builder.position?_bind hl' hopen l).trans (if_pos rfl), ?_⟩
  rw [Builder.bind_of_unbound hl' hopen]
  exact Array.getElem?_push_size

/-- **Assembling does not disturb a builder.** After any requests, whatever is asked next is
answered as if some of the requests to assemble had not been made: label numbers, the length, and
the code or the error of assembling and finalizing. That holds of a builder that lets labels wait,
which assembling changes, and of one that binds them at once, and the two give the same answers. A
label that is bound just before the code is assembled still stands for the next instruction added.

**Proof sketch.** Settling the waiting labels turns the first builder into the second, and keeps
doing so whatever is asked (`Deferred.settled_after`). The second is not changed by assembling. -/
theorem replies_without_assembling {more fewer : List Request} (h : Spares more fewer) :
    let d := (Deferred.ofBuilder {}).after more
    let b := ({} : Builder).after more
    (∀ r, d.reply r = ((Deferred.ofBuilder {}).after fewer).reply r) ∧
    (∀ r, b.reply r = (({} : Builder).after fewer).reply r) ∧
    (∀ r, d.reply r = b.reply r) ∧
    ∀ (l : Nat) (i : Host.Inst) (n : Nat), l < d.labels.size → d.position? l = none →
      l ∉ d.waiting →
      let e := d.after (.call (.bind l) :: (List.replicate n .assemble ++ [.call (.add i)]))
      e.position? l = some d.length ∧ e.items[d.length]? = some (.inst i) := by
  intro d b
  have hsettled : ∀ rs, ((Deferred.ofBuilder {}).after rs).settled = ({} : Builder).after rs :=
    Deferred.settled_after (.ofBuilder {})
  have hboth : ∀ r, d.reply r = b.reply r := fun r => by rw [d.reply_settled, hsettled more]
  have hfewer : b = ({} : Builder).after fewer := h.after_eq {}
  refine ⟨fun r => ?_, fun r => by rw [hfewer], hboth, fun l i n hl hopen hwaits => ?_⟩
  · rw [hboth, Deferred.reply_settled, hsettled fewer, hfewer]
  · refine Deferred.bind_assemble_add hl ?_ n i
    rw [d.position?_settled, if_neg hwaits, hopen]

/-- A jump over nothing: assembling before its label is bound fails, assembling after that binds the
label to the end of the code, and the return that is added then is still its target. -/
theorem replies_without_assembling_twice :
    let more : List Request := [.call .createLabel, .call (.branch .always 0), .assemble,
      .call (.bind 0), .assemble, .call (.add .ret)]
    let fewer : List Request := [.call .createLabel, .call (.branch .always 0), .call (.bind 0),
      .call (.add .ret)]
    let d := (Deferred.ofBuilder {}).after more
    let d' := (Deferred.ofBuilder {}).after fewer
    Spares more fewer ∧ d.reply .assemble = d'.reply .assemble ∧
      d'.reply .assemble =
        .code (.ok ⟨[.branch .always 1 false, .inst .ret [0xC3]], [0xEB, 0x00, 0xC3]⟩) := by
  intro more fewer d d'
  have hspares : Spares more fewer :=
    .keep _ (.keep _ (.drop (.keep _ (.drop (.keep _ .nil)))))
  exact ⟨hspares, (replies_without_assembling hspares).1 .assemble, rfl⟩

end Dynarec.Code
