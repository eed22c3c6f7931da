import Dynarec.Proofs.Code.Layout

/-!
# Builders that grow by pieces

Emitting code only ever adds items to a builder, and only binds labels that it creates itself. Such
growth is described by the pieces added: a branch to a label becomes a jump over the items up to
the place where the label is bound. A builder that has grown from nothing by well-formed pieces
assembles to code that does what the pieces do.

## Main definitions

* `Dynarec.Code.Spells` — items that stand for pieces under a binding of labels.
* `Dynarec.Code.Grown` — a builder with items added, some of whose labels may still be open.
* `Dynarec.Code.Appended` — a builder that has grown by pieces.

## Main results

* `Dynarec.Code.Appended.trans` — growth adds up.
* `Dynarec.Code.Appended.jumpOver`, `Dynarec.Code.Appended.choose` — the two shapes of code with
  labels: code that can be jumped over, and two pieces of code of which one is run.
* `Dynarec.Code.Appended.assemble` — what has grown from nothing can be assembled.
-/

set_option autoImplicit false

namespace Dynarec.Code

/-! ## Items and pieces -/

/-- The items from position `i` on stand for pieces when labels are bound as given. -/
inductive Spells (bound : Nat → Option Nat) : Nat → List Item → List Piece → Prop where
  | nil (i : Nat) : Spells bound i [] []
  | inst {i : Nat} {x : Host.Inst} {its : List Item} {P : List Piece}
      (h : Spells bound (i + 1) its P) : Spells bound i (.inst x :: its) (.inst x :: P)
  | hop {i n label : Nat} {cond : Host.Cond} {its : List Item} {P : List Piece}
      (hl : bound label = some (i + 1 + n)) (h : Spells bound (i + 1) its P) :
      Spells bound i (.branch cond label :: its) (.hop cond n :: P)

namespace Spells

variable {bound bound' : Nat → Option Nat} {i : Nat} {its its' : List Item} {P Q : List Piece}

/-- There are as many items as pieces. -/
theorem length (h : Spells bound i its P) : its.length = P.length := by
  induction h with
  | nil => rfl
  | inst _ ih => simp [ih]
  | hop _ _ ih => simp [ih]

/-- Binding more labels changes nothing. -/
theorem mono (h : Spells bound i its P) (hb : ∀ l p, bound l = some p → bound' l = some p) :
    Spells bound' i its P := by
  induction h with
  | nil => exact .nil _
  | inst _ ih => exact .inst ih
  | hop hl _ ih => exact .hop (hb _ _ hl) ih

/-- Items stand for one list of pieces only.

**Proof sketch.** By induction on one reading of the items. A branch stands for a jump over a
number of pieces, and that number is fixed by where its label is bound. -/
theorem unique (h : Spells bound i its P) (h' : Spells bound i its Q) : P = Q := by
  induction h generalizing Q with
  | nil =>
    cases h'
    rfl
  | inst _ ih =>
    cases h' with
    | inst h' => rw [ih h']
  | hop hl _ ih =>
    cases h' with
    | hop hl' h' =>
      rw [hl, Option.some.injEq, Nat.add_left_cancel_iff] at hl'
      rw [hl', ih h']

/-- Items one behind the other stand for pieces one behind the other.

**Proof sketch.** By induction on the first items. A branch goes to a position that is counted
from the start, so nothing that follows changes what it stands for. -/
theorem append (h : Spells bound i its P) (h' : Spells bound (i + P.length) its' Q) :
    Spells bound i (its ++ its') (P ++ Q) := by
  induction h with
  | nil => exact h'
  | inst _ ih =>
    refine .inst (ih ?_)
    simpa [Nat.add_assoc, Nat.add_comm 1] using h'
  | hop hl _ ih =>
    refine .hop hl (ih ?_)
    simpa [Nat.add_assoc, Nat.add_comm 1] using h'

end Spells

/-! ## Labels -/

namespace Builder

/-- The position of a label, read from the list of labels. -/
theorem position?_eq (b : Builder) (l : Nat) : b.position? l = (b.labels.toList[l]?).join := by
  simp [position?]

/-- The length of a builder is the number of its items. -/
theorem length_eq (b : Builder) : b.length = b.items.toList.length := rfl

/-- A label that is bound was created. -/
theorem lt_of_position? {b : Builder} {l p : Nat} (h : b.position? l = some p) :
    l < b.labels.size := by
  by_contra hge
  simp [position?, Nat.not_lt.1 hge] at h

/-- Binding a label that was created and is unbound. -/
theorem bind_of_unbound {b : Builder} {l : Nat} (hl : l < b.labels.size)
    (hb : b.position? l = none) :
    b.bind l = { b with labels := b.labels.setIfInBounds l (some b.length) } := by
  simp [bind, hb, Nat.not_le.2 hl]

/-- Binding an unbound label puts it at the end of what there is and leaves the other labels
alone. -/
theorem position?_bind {b : Builder} {l : Nat} (hl : l < b.labels.size)
    (hb : b.position? l = none) (k : Nat) :
    (b.bind l).position? k = if k = l then some b.length else b.position? k := by
  rw [bind_of_unbound hl hb]
  simp only [position?, Array.getElem?_setIfInBounds]
  by_cases hk : k = l
  · subst hk
    simp [hl]
  · simp [hk, Ne.symm hk]

/-- Binding an unbound label keeps what the other labels are bound to. -/
theorem position?_bind_of_some {b : Builder} {l k p : Nat} (hl : l < b.labels.size)
    (hb : b.position? l = none) (hk : b.position? k = some p) :
    (b.bind l).position? k = some p := by
  have hne : k ≠ l := by
    rintro rfl
    rw [hb] at hk
    cases hk
  rw [position?_bind hl hb, if_neg hne, hk]

/-- A branch whose condition exists is added. -/
theorem branch_of_le {b : Builder} {cond : Host.Cond} (hc : cond.code ≤ Host.Cond.always.code)
    (l : Nat) : b.branch cond l = { b with items := b.items.push (.branch cond l) } := by
  unfold branch
  rw [if_neg (BitVec.not_lt.2 hc)]

/-- Branches to one label are the same if they make the same code. -/
theorem branch_inj {b b' : Builder} {cond cond' : Host.Cond} {l : Nat}
    (hc : cond.code ≤ Host.Cond.always.code) (hc' : cond'.code ≤ Host.Cond.always.code)
    (h : b.branch cond l = b'.branch cond' l) : b = b' ∧ cond = cond' := by
  rw [branch_of_le hc, branch_of_le hc', Builder.mk.injEq] at h
  obtain ⟨hitems, hlabels, hfailure, hfinalized⟩ := h
  obtain ⟨hitem, hitems⟩ := Array.push_eq_push.1 hitems
  cases b
  cases b'
  simp_all

/-- Creating a label adds one to the labels. -/
@[simp] theorem size_labels_createLabel (b : Builder) :
    b.createLabel.1.labels.size = b.labels.size + 1 := by
  simp [createLabel]

/-- The label created is the number of those there were. -/
@[simp] theorem snd_createLabel (b : Builder) : b.createLabel.2 = b.labels.size := rfl

/-- A fresh label is unbound, and the others are as before. -/
@[simp] theorem position?_createLabel (b : Builder) : b.createLabel.1.position? = b.position? := by
  funext l
  simp only [position?, createLabel, Array.getElem?_push]
  split
  · rename_i hl
    simp [hl]
  · rfl

/-- The label that comes next is unbound. -/
theorem position?_size (b : Builder) : b.position? b.labels.size = none := by
  simp [position?]

/-- Binding a label creates none. -/
@[simp] theorem size_labels_bind (b : Builder) (l : Nat) :
    (b.bind l).labels.size = b.labels.size := by
  unfold bind
  split_ifs <;> simp [fail]

/-- Binding a label adds no item. -/
@[simp] theorem length_bind (b : Builder) (l : Nat) : (b.bind l).length = b.length := by
  unfold bind
  split_ifs <;> rfl

/-- Adding an instruction adds one item. -/
@[simp] theorem length_add (b : Builder) (i : Host.Inst) : (b.add i).length = b.length + 1 := by
  simp [length, add]

/-- A branch whose condition exists adds one item. -/
theorem length_branch {b : Builder} {cond : Host.Cond} (hc : cond.code ≤ Host.Cond.always.code)
    (l : Nat) : (b.branch cond l).length = b.length + 1 := by
  simp [branch_of_le hc, length]

/-- A branch leaves the labels alone. -/
@[simp] theorem labels_branch (b : Builder) (cond : Host.Cond) (l : Nat) :
    (b.branch cond l).labels = b.labels := by
  unfold branch
  split <;> rfl

/-- A branch binds no label. -/
@[simp] theorem position?_branch (b : Builder) (cond : Host.Cond) (l : Nat) :
    (b.branch cond l).position? = b.position? := by
  funext k
  simp [position?]

/-- Binding a label of its own leaves the labels that a builder had before. -/
theorem labels_bind {b b' : Builder} (h : b.labels.toList <+: b'.labels.toList) {l : Nat}
    (hl : b.labels.size ≤ l) : b.labels.toList <+: (b'.bind l).labels.toList := by
  obtain ⟨more, hmore⟩ := h
  unfold bind
  split_ifs
  · exact ⟨more, hmore⟩
  · exact ⟨more, hmore⟩
  · rw [Array.toList_setIfInBounds, ← hmore, List.set_append_right _ _ (by simpa using hl)]
    exact List.prefix_append _ _

end Builder

/-! ## Growth -/

/-- The builder `b'` is `b` with items added that stand for `P` once labels are bound as given. -/
structure Grown (bound : Nat → Option Nat) (b b' : Builder) (P : List Piece) : Prop where
  failure : b'.failure = b.failure
  finalized : b'.finalized = b.finalized
  items : ∃ its, b'.items.toList = b.items.toList ++ its ∧ Spells bound b.length its P

namespace Grown

variable {bound bound' : Nat → Option Nat} {b b₁ b₂ : Builder} {P Q : List Piece}

/-- Growth by pieces adds as many items as there are pieces. -/
theorem length (h : Grown bound b b₁ P) : b₁.length = b.length + P.length := by
  obtain ⟨its, hits, hs⟩ := h.items
  rw [Builder.length_eq, hits, List.length_append, hs.length, Builder.length_eq]

/-- Growth under a binding is growth under every binding that says more. -/
theorem mono (h : Grown bound b b₁ P) (hb : ∀ l p, bound l = some p → bound' l = some p) :
    Grown bound' b b₁ P := by
  obtain ⟨its, hits, hs⟩ := h.items
  exact ⟨h.failure, h.finalized, its, hits, hs.mono hb⟩

/-- Growth adds up.

**Proof sketch.** The items of the second step stand for pieces from where the first step has
ended, so they can be appended (`Spells.append`). -/
theorem trans (h₁ : Grown bound b b₁ P) (h₂ : Grown bound b₁ b₂ Q) :
    Grown bound b b₂ (P ++ Q) := by
  obtain ⟨its, hits, hs⟩ := h₁.items
  obtain ⟨its', hits', hs'⟩ := h₂.items
  refine ⟨h₂.failure.trans h₁.failure, h₂.finalized.trans h₁.finalized, its ++ its', ?_, ?_⟩
  · rw [hits', hits, List.append_assoc]
  · rw [h₁.length] at hs'
    exact hs.append hs'

/-- A branch to a label is a jump over the pieces that lie before the place where the label is
bound. -/
theorem branch {cond : Host.Cond} (hc : cond.code ≤ Host.Cond.always.code) {l n : Nat}
    (hl : bound l = some (b.length + 1 + n)) : Grown bound b (b.branch cond l) [.hop cond n] := by
  rw [Builder.branch_of_le hc]
  exact ⟨rfl, rfl, [.branch cond l], by simp, .hop hl (.nil _)⟩

/-- Binding a label adds no piece. -/
theorem bind {l : Nat} (hl : l < b.labels.size) (hb : b.position? l = none) :
    Grown bound b (b.bind l) [] := by
  rw [Builder.bind_of_unbound hl hb]
  exact ⟨rfl, rfl, [], by simp, .nil _⟩

/-- Creating a label adds no piece. -/
theorem createLabel (b : Builder) : Grown bound b b.createLabel.1 [] :=
  ⟨rfl, rfl, [], by simp [Builder.createLabel], .nil _⟩

end Grown

/-- The builder `b'` is `b` with items added that stand for `P`. Labels of `b` stay as they are, and
the items added only go to labels that are bound. -/
structure Appended (b b' : Builder) (P : List Piece) : Prop extends Grown b'.position? b b' P where
  labels : b.labels.toList <+: b'.labels.toList

namespace Appended

variable {b b₁ b₂ b₃ : Builder} {P Q R : List Piece}

/-- A builder grows into itself by no pieces. -/
theorem refl (b : Builder) : Appended b b [] where
  failure := rfl
  finalized := rfl
  labels := List.prefix_refl _
  items := ⟨[], by simp, .nil _⟩

/-- Adding an instruction is growth by that instruction. -/
theorem add (b : Builder) (i : Host.Inst) : Appended b (b.add i) [.inst i] where
  failure := rfl
  finalized := rfl
  labels := List.prefix_refl _
  items := ⟨[.inst i], by simp [Builder.add], .inst (.nil _)⟩

/-- Growth takes no labels away. -/
theorem size_labels_le (h : Appended b b₁ P) : b.labels.size ≤ b₁.labels.size := by
  simpa using h.labels.length_le

/-- What was known about a label stays known. -/
theorem position? (h : Appended b b₁ P) {l : Nat} (hl : l < b.labels.size) :
    b₁.position? l = b.position? l := by
  obtain ⟨more, hmore⟩ := h.labels
  rw [Builder.position?_eq, Builder.position?_eq, ← hmore, List.getElem?_append_left (by simpa)]

/-- A label that is bound stays bound, at the same place. -/
theorem bound (h : Appended b b₁ P) (l p : Nat) (hl : b.position? l = some p) :
    b₁.position? l = some p := by
  rw [h.position? (Builder.lt_of_position? hl), hl]

/-- A builder grows into another by one list of pieces only. -/
theorem unique (h : Appended b b₁ P) (h' : Appended b b₁ Q) : P = Q := by
  obtain ⟨its, hits, hs⟩ := h.items
  obtain ⟨its', hits', hs'⟩ := h'.items
  rw [hits, List.append_cancel_left_eq] at hits'
  subst hits'
  exact hs.unique hs'

/-- **Growth adds up.**

**Proof sketch.** What the first step binds stays bound in the second (`Appended.bound`), so the
first step is growth under the final binding as well, and there the two steps add up. -/
theorem trans (h₁ : Appended b b₁ P) (h₂ : Appended b₁ b₂ Q) : Appended b b₂ (P ++ Q) where
  toGrown := (h₁.toGrown.mono h₂.bound).trans h₂.toGrown
  labels := h₁.labels.trans h₂.labels

/-- A label that nothing goes to adds nothing.

**Proof sketch.** The label is unbound in `b₁`, for it was created last and growth binds only
labels of its own. Binding it leaves what else is bound alone, so the items stand for the same
pieces as before. -/
theorem unused (h : Appended b.createLabel.1 b₁ P) : Appended b (b₁.bind b.labels.size) P := by
  have hlt : b.labels.size < b₁.labels.size := by
    have := h.size_labels_le
    rw [Builder.size_labels_createLabel] at this
    omega
  have hopen : b₁.position? b.labels.size = none := by
    rw [h.position? (by simp), Builder.position?_createLabel, Builder.position?_size]
  have hkeep : ∀ l p, b₁.position? l = some p → (b₁.bind b.labels.size).position? l = some p :=
    fun l p => Builder.position?_bind_of_some hlt hopen
  have hprefix : b.labels.toList <+: b₁.labels.toList :=
    (List.prefix_append b.labels.toList [none]).trans
      (by simpa [Builder.createLabel] using h.labels)
  refine ⟨?_, Builder.labels_bind hprefix (Nat.le_refl _)⟩
  have hgrown := ((Grown.createLabel b).trans (h.toGrown.mono hkeep)).trans (.bind hlt hopen)
  simpa using hgrown

/-- **Code that can be jumped over**: a fresh label, code, a branch to the label, more code, and the
label.

**Proof sketch.** The label stays open up to the end, since growth leaves labels alone that
exist already. Binding it keeps all other bindings, so under the final binding both parts still
stand for their pieces. The branch then goes to the end of the second part, which is as many
items behind it as the part has pieces. -/
theorem jumpOver {cond : Host.Cond} (hc : cond.code ≤ Host.Cond.always.code)
    (h₁ : Appended b.createLabel.1 b₁ P) (h₂ : Appended (b₁.branch cond b.labels.size) b₂ Q) :
    Appended b (b₂.bind b.labels.size) (P ++ .hop cond Q.length :: Q) := by
  have hlt₁ : b.labels.size < b₁.labels.size := by
    have := h₁.size_labels_le
    rw [Builder.size_labels_createLabel] at this
    omega
  have hlt₂ : b.labels.size < b₂.labels.size := by
    have := h₂.size_labels_le
    rw [Builder.labels_branch] at this
    omega
  have hopen : b₂.position? b.labels.size = none := by
    rw [h₂.position? (by simpa using hlt₁), Builder.position?_branch, h₁.position? (by simp),
      Builder.position?_createLabel, Builder.position?_size]
  have hpos := Builder.position?_bind hlt₂ hopen
  have hkeep₂ : ∀ l p, b₂.position? l = some p → (b₂.bind b.labels.size).position? l = some p :=
    fun l p => Builder.position?_bind_of_some hlt₂ hopen
  have hkeep₁ : ∀ l p, b₁.position? l = some p → (b₂.bind b.labels.size).position? l = some p :=
    fun l p hl => hkeep₂ l p (h₂.bound l p (by simpa using hl))
  have hlen : b₂.length = b₁.length + 1 + Q.length := by
    rw [h₂.length, Builder.length_branch hc]
  have hprefix : b.labels.toList <+: b₂.labels.toList := by
    have h := (List.prefix_append b.labels.toList [none]).trans
      (by simpa [Builder.createLabel] using h₁.labels)
    exact h.trans (by simpa using h₂.labels)
  refine ⟨?_, Builder.labels_bind hprefix (Nat.le_refl _)⟩
  have hbranch : Grown (b₂.bind b.labels.size).position? b₁ (b₁.branch cond b.labels.size)
      [.hop cond Q.length] := .branch hc (by rw [hpos, if_pos rfl, hlen])
  have hgrown := (Grown.createLabel b).trans (((h₁.toGrown.mono hkeep₁).trans hbranch).trans
    ((h₂.toGrown.mono hkeep₂).trans (.bind hlt₂ hopen)))
  simpa using hgrown

/-- **Code of which one part is run**: two fresh labels, code, a branch to the first label, more
code with a jump to the second label behind it, the first label, other code, and the second label.

**Proof sketch.** Both labels stay open until they are bound, since growth leaves labels alone that
exist already. Binding a label keeps all other bindings, so under the final bindings every part
still stands for its pieces, and the two branches pass over what lies between them and their
labels. -/
theorem choose {cond : Host.Cond} (hc : cond.code ≤ Host.Cond.always.code)
    (h₁ : Appended b.createLabel.1.createLabel.1 b₁ P)
    (h₂ : Appended (b₁.branch cond b.labels.size) b₂ Q)
    (h₃ : Appended ((b₂.branch .always (b.labels.size + 1)).bind b.labels.size) b₃ R) :
    Appended b (b₃.bind (b.labels.size + 1))
      (P ++ .hop cond (Q.length + 1) :: (Q ++ .hop .always R.length :: R)) := by
  have hlt₁ : b.labels.size + 1 < b₁.labels.size := by
    have := h₁.size_labels_le
    simp only [Builder.size_labels_createLabel] at this
    omega
  have hlt₂ : b.labels.size + 1 < b₂.labels.size := by
    have := h₂.size_labels_le
    rw [Builder.labels_branch] at this
    omega
  have hlt₃ : b.labels.size + 1 < b₃.labels.size := by
    have := h₃.size_labels_le
    rw [Builder.size_labels_bind, Builder.labels_branch] at this
    omega
  have hopen : ∀ l, b.labels.size ≤ l → l < b₁.labels.size → l ≤ b.labels.size + 1 →
      b₂.position? l = none := by
    intro l hle hl hl'
    rw [h₂.position? (by simpa using hl), Builder.position?_branch,
      h₁.position? (by simp; omega), Builder.position?_createLabel, Builder.position?_createLabel]
    simp [Builder.position?, hle]
  have hopenA : (b₂.branch .always (b.labels.size + 1)).position? b.labels.size = none := by
    rw [Builder.position?_branch]
    exact hopen _ (by omega) (by omega) (by omega)
  have hltA : b.labels.size < (b₂.branch .always (b.labels.size + 1)).labels.size := by
    rw [Builder.labels_branch]
    omega
  have hposA := Builder.position?_bind hltA hopenA
  have hopenB : b₃.position? (b.labels.size + 1) = none := by
    rw [h₃.position? (by simpa using hlt₂), hposA, if_neg (by omega), Builder.position?_branch]
    exact hopen _ (by omega) (by omega) (by omega)
  have hposB := Builder.position?_bind hlt₃ hopenB
  have hkeep₃ : ∀ l p, b₃.position? l = some p →
      (b₃.bind (b.labels.size + 1)).position? l = some p :=
    fun l p => Builder.position?_bind_of_some hlt₃ hopenB
  have hkeep₂ : ∀ l p, b₂.position? l = some p →
      (b₃.bind (b.labels.size + 1)).position? l = some p := by
    intro l p hl
    refine hkeep₃ l p (h₃.bound l p (Builder.position?_bind_of_some hltA hopenA ?_))
    rw [Builder.position?_branch, hl]
  have hkeep₁ : ∀ l p, b₁.position? l = some p →
      (b₃.bind (b.labels.size + 1)).position? l = some p :=
    fun l p hl => hkeep₂ l p (h₂.bound l p (by simpa using hl))
  have hlen₂ : b₂.length = b₁.length + 1 + Q.length := by
    rw [h₂.length, Builder.length_branch hc]
  have hlenA : (b₂.branch .always (b.labels.size + 1)).length = b₂.length + 1 :=
    Builder.length_branch (by decide) _
  have hlen₃ : b₃.length = b₂.length + 1 + R.length := by
    rw [h₃.length, Builder.length_bind, hlenA]
  have hprefix : b.labels.toList <+: b₃.labels.toList := by
    have hb₁ : b.labels.toList <+: b₁.labels.toList := by
      refine List.IsPrefix.trans ?_ h₁.labels
      simp [Builder.createLabel]
    have hb₂ : b.labels.toList <+: b₂.labels.toList := hb₁.trans (by simpa using h₂.labels)
    exact (Builder.labels_bind (by simpa using hb₂) (Nat.le_refl _)).trans h₃.labels
  refine ⟨?_, Builder.labels_bind hprefix (by omega)⟩
  have hA : Grown (b₃.bind (b.labels.size + 1)).position? b₁ (b₁.branch cond b.labels.size)
      [.hop cond (Q.length + 1)] := by
    refine .branch hc (hkeep₃ _ _ (h₃.bound _ _ ?_))
    rw [hposA, if_pos rfl, hlenA, hlen₂]
    rfl
  have hB : Grown (b₃.bind (b.labels.size + 1)).position? b₂
      (b₂.branch .always (b.labels.size + 1)) [.hop .always R.length] :=
    .branch (by decide) (by rw [hposB, if_pos rfl, hlen₃])
  have hgrown := ((Grown.createLabel b).trans (.createLabel _)).trans
    (((h₁.toGrown.mono hkeep₁).trans hA).trans ((((h₂.toGrown.mono hkeep₂).trans hB).trans
      (.bind hltA hopenA)).trans
        ((h₃.toGrown.mono hkeep₃).trans (.bind hlt₃ hopenB))))
  simpa using hgrown

end Appended

/-! ## Assembling what has grown -/

/-- Items that stand for well-formed pieces resolve to chunks of those pieces.

**Proof sketch.** By induction on the items. Well-formed pieces have instructions with an
encoding, and jumps come from branches whose labels are bound; these are the two things that
resolving an item asks for. -/
theorem Spells.resolveFrom {b : Builder} {i : Nat} {its : List Item} {P : List Piece}
    (h : Spells b.position? i its P) (hP : Fits P) :
    ∃ cs, b.resolveFrom i its = .ok cs ∧ Laid i cs P := by
  induction h with
  | nil => exact ⟨[], rfl, .nil _⟩
  | inst _ ih =>
    obtain ⟨⟨bytes, hbytes⟩, hP⟩ := hP
    obtain ⟨cs, hcs, hlaid⟩ := ih hP
    refine ⟨_ :: cs, ?_, .inst hbytes hlaid⟩
    simp only [Builder.resolveFrom, Builder.resolve, hbytes, hcs]
    rfl
  | hop hl _ ih =>
    obtain ⟨cs, hcs, hlaid⟩ := ih hP.2.2.2
    refine ⟨.branch _ _ false :: cs, ?_, .hop hlaid⟩
    simp only [Builder.resolveFrom, Builder.resolve, hl, hcs]
    rfl

/-- **What has grown from nothing can be assembled**, and running its code is walking through its
pieces. -/
theorem Appended.assemble {b : Builder} {P : List Piece} (h : Appended {} b P) (hP : Fits P) :
    ∃ code, b.assemble = .ok code ∧ code.program = place 0 P ∧ (P ≠ [] → code.bytes ≠ []) := by
  obtain ⟨its, hits, hs⟩ := h.items
  obtain ⟨cs, hcs, hlaid⟩ := hs.resolveFrom hP
  obtain ⟨code, hcode, hprogram, hbytes⟩ := assemble_laid hlaid hP
  have hfail : b.failure = none := h.failure
  have hall : b.items.toList = its := by simpa using hits
  refine ⟨code, ?_, hprogram, hbytes⟩
  unfold Builder.assemble
  rw [hfail, hall]
  show (do let chunks ← b.resolveFrom 0 its; Code.assemble chunks) = _
  rw [show b.resolveFrom 0 its = .ok cs from hcs]
  exact hcode

end Dynarec.Code
