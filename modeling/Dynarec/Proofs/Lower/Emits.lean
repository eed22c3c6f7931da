import Dynarec.Lower.Emit
import Dynarec.Proofs.Code.Appended

/-!
# The code that actions add

An emitting action that succeeds has added pieces to the code. This module says how the pieces of an
action are made of those of its parts, whatever is to be said about them: sequencing appends, and
labels put jumps between.

## Main definitions

* `Dynarec.Lower.Emits` — an action succeeds with pieces of a certain kind, or fails in a certain
  way.
* `Dynarec.Lower.Forks` — the same for an action whose code ends with a branch to an open label.

## Main results

* `Dynarec.Lower.Emits.bind` — sequencing actions appends their pieces.
* `Dynarec.Lower.Emits.and` — two descriptions of an action are about the same pieces.
* `Dynarec.Lower.Emits.jumpOver`, `Dynarec.Lower.Emits.choose` — code with labels.
-/

set_option autoImplicit false

namespace Dynarec.Lower

open Host (Reg Inst State)
open Code (Piece Appended)

/-! ## Running actions -/

/-- The emission with one more instruction. -/
def Emission.add (e : Emission) (i : Inst) : Emission :=
  { e with code := e.code.add i }

/-- The code with one more instruction. -/
@[simp] theorem Emission.code_add (e : Emission) (i : Inst) :
    (e.add i).code = e.code.add i := rfl

/-- One more instruction leaves the registers in use as they are. -/
@[simp] theorem Emission.scratch_add (e : Emission) (i : Inst) :
    (e.add i).scratch = e.scratch := rfl

/-- One more instruction says nothing about whether the line goes on. -/
@[simp] theorem Emission.goesOn_add (e : Emission) (i : Inst) :
    (e.add i).goesOn = e.goesOn := rfl

/-- Running two actions in a row: the second is run on what the first has left, unless the first
has failed. What a failed action has changed stays changed. -/
theorem Emit.runOn_bind {α β : Type} (act : Emit α) (k : α → Emit β) (e : Emission) :
    (act >>= k).runOn e =
      match act.runOn e with
      | (.ok a, e') => (k a).runOn e'
      | (.error f, e') => (.error f, e') := by
  unfold runOn
  simp only [ExceptT.run_bind, StateT.run_bind]
  rcases act.run.run e with ⟨_ | a, e'⟩ <;> rfl

/-! ## Actions and their pieces -/

/-- The action succeeds with a value, an emission and pieces added to the code that are related by
`Q`, or it fails with a failure in `X`. -/
def Emits {α : Type} (act : Emit α) (e : Emission) (Q : α → Emission → List Piece → Prop)
    (X : Failure → Prop) : Prop :=
  match act.runOn e with
  | (.ok a, e') => ∃ P, Appended e.code e'.code P ∧ Q a e' P
  | (.error f, _) => X f

/-- The action succeeds with pieces added to the code and, behind them, a branch to a label that it
leaves open; or it fails with a failure in `X`. -/
def Forks (act : Emit Unit) (label : Nat) (e : Emission)
    (Q : Emission → List Piece → Host.Cond → Prop) (X : Failure → Prop) : Prop :=
  match act.runOn e with
  | (.ok (), e') =>
    ∃ P b cond, Appended e.code b P ∧ cond.code ≤ Host.Cond.always.code ∧
      e'.code = b.branch cond label ∧ Q e' P cond
  | (.error f, _) => X f

namespace Emits

variable {α β : Type} {e : Emission} {act : Emit α} {k : α → Emit β}
variable {Q Q' : α → Emission → List Piece → Prop} {S : β → Emission → List Piece → Prop}
variable {X X' : Failure → Prop}

/-- What an action that succeeded has done. -/
theorem of_ok (h : Emits act e Q X) {a : α} {e' : Emission} (hrun : act.runOn e = (.ok a, e')) :
    ∃ P, Appended e.code e'.code P ∧ Q a e' P := by
  unfold Emits at h
  rwa [hrun] at h

/-- Why an action failed. -/
theorem of_error (h : Emits act e Q X) {f : Failure} {e' : Emission}
    (hrun : act.runOn e = (.error f, e')) : X f := by
  unfold Emits at h
  rwa [hrun] at h

/-- Two descriptions of an action are about the same pieces. -/
theorem and (h : Emits act e Q X) (h' : Emits act e Q' X') :
    Emits act e (fun a e' P => Q a e' P ∧ Q' a e' P) X := by
  rcases hrun : act.runOn e with ⟨f | a, e'⟩
  · have hX := h.of_error hrun
    unfold Emits
    rwa [hrun]
  · obtain ⟨P, happ, hQ⟩ := h.of_ok hrun
    obtain ⟨P', happ', hQ'⟩ := h'.of_ok hrun
    obtain rfl := happ.unique happ'
    unfold Emits
    rw [hrun]
    exact ⟨P, happ, hQ, hQ'⟩

/-- The pieces of an action stand between the code before it and the code after it. -/
theorem appended (h : Emits act e Q X) :
    Emits act e (fun a e' P => Appended e.code e'.code P ∧ Q a e' P) X := by
  unfold Emits at h ⊢
  split <;> rename_i hrun <;> simp only [hrun] at h
  · obtain ⟨P, happ, hQ⟩ := h
    exact ⟨P, happ, happ, hQ⟩
  · exact h

/-- A description of an action implies any weaker one. -/
theorem mono (h : Emits act e Q X) (hQ : ∀ a e' P, Q a e' P → Q' a e' P)
    (hX : ∀ f, X f → X' f) : Emits act e Q' X' := by
  unfold Emits at h ⊢
  split <;> rename_i hrun <;> simp only [hrun] at h
  · obtain ⟨P, happ, hq⟩ := h
    exact ⟨P, happ, hQ _ _ _ hq⟩
  · exact hX _ h

/-- Giving a value adds no pieces. -/
theorem pure {a : α} (h : Q a e []) : Emits (Pure.pure a) e Q X :=
  ⟨[], .refl _, h⟩

/-- An action that fails is described by its failure. -/
theorem fail {kind : Kind} {reason : Reason} (h : X (.of kind reason)) :
    Emits (Emit.fail kind reason) e Q X := h

/-- **Sequencing appends pieces.**

**Proof sketch.** The run of the sequence is the run of the first part and, from where it
ends, that of the second; the pieces that were appended are those of both. -/
theorem bind (h : Emits act e Q X)
    (hk : ∀ a e' P, Q a e' P → Emits (k a) e' (fun b e'' P' => S b e'' (P ++ P')) X) :
    Emits (act >>= k) e S X := by
  unfold Emits at h ⊢
  rw [Emit.runOn_bind]
  rcases hact : act.runOn e with ⟨f | a, e₁⟩
  · simpa [hact] using h
  · simp only [hact] at h ⊢
    obtain ⟨P, happ, hq⟩ := h
    have hrest := hk a e₁ P hq
    unfold Emits at hrest
    split <;> rename_i hrun <;> simp only [hrun] at hrest
    · obtain ⟨P', happ', hs⟩ := hrest
      exact ⟨P ++ P', happ.trans happ', hs⟩
    · exact hrest

/-- An action that only changes the emission around the code. -/
theorem update {f : Emission → Emission} {Q : Unit → Emission → List Piece → Prop}
    (hf : (f e).code = e.code) (h : Q () (f e) []) : Emits (Emit.update f) e Q X := by
  refine ⟨[], ?_, h⟩
  rw [hf]
  exact .refl _

/-- Emitting an instruction adds it as one piece. -/
theorem emit {i : Inst} {Q : Unit → Emission → List Piece → Prop} (h : Q () (e.add i) [.inst i]) :
    Emits (Lower.emit i) e Q X :=
  ⟨[.inst i], .add _ _, h⟩

/-- Emitting an instruction, and going on: it stands before the other pieces. -/
theorem emit_bind {i : Inst} {k : Unit → Emit β}
    (h : Emits (k ()) (e.add i) (fun b e' P => S b e' (.inst i :: P)) X) :
    Emits (Lower.emit i >>= k) e S X := by
  refine .bind (Q := fun _ e' P => e' = e.add i ∧ P = [.inst i]) (.emit ⟨rfl, rfl⟩) ?_
  rintro _ _ _ ⟨rfl, rfl⟩
  exact h

/-- Changing the emission around the code after an action, whether the action failed or not. -/
theorem andAlways {f : Emission → Emission} (hf : ∀ e, (f e).code = e.code)
    (h : Emits act e (fun a e' P => Q a (f e') P) X) : Emits (act.andAlways f) e Q X := by
  unfold Emits at h ⊢
  have hrun : (act.andAlways f).runOn e = ((act.runOn e).1, f (act.runOn e).2) := rfl
  rw [hrun]
  rcases hact : act.runOn e with ⟨f' | a, e₁⟩ <;> simp only [hact] at h ⊢
  · exact h
  · obtain ⟨P, happ, hq⟩ := h
    exact ⟨P, hf e₁ ▸ happ, hq⟩

end Emits

namespace Forks

variable {α : Type} {e : Emission} {act : Emit α} {label : Nat}
variable {Q : α → Emission → List Piece → Prop} {S S' : Emission → List Piece → Host.Cond → Prop}
variable {X X' : Failure → Prop}

/-- What an action that succeeded has done. -/
theorem of_ok {act : Emit Unit} (h : Forks act label e S X) {e' : Emission}
    (hrun : act.runOn e = (.ok (), e')) :
    ∃ P b cond, Appended e.code b P ∧ cond.code ≤ Host.Cond.always.code ∧
      e'.code = b.branch cond label ∧ S e' P cond := by
  unfold Forks at h
  rwa [hrun] at h

/-- Why an action failed. -/
theorem of_error {act : Emit Unit} (h : Forks act label e S X) {f : Failure} {e' : Emission}
    (hrun : act.runOn e = (.error f, e')) : X f := by
  unfold Forks at h
  rwa [hrun] at h

/-- Two descriptions of an action are about the same pieces and the same branch. -/
theorem and {act : Emit Unit} (h : Forks act label e S X) (h' : Forks act label e S' X') :
    Forks act label e (fun e' P c => S e' P c ∧ S' e' P c) X := by
  rcases hrun : act.runOn e with ⟨f | _, e'⟩
  · have hX := h.of_error hrun
    unfold Forks
    rwa [hrun]
  · obtain ⟨P, b, c, happ, hc, hcode, hS⟩ := h.of_ok hrun
    obtain ⟨P', b', c', happ', hc', hcode', hS'⟩ := h'.of_ok hrun
    obtain ⟨rfl, rfl⟩ := Code.Builder.branch_inj hc hc' (hcode.symm.trans hcode')
    obtain rfl := happ.unique happ'
    unfold Forks
    rw [hrun]
    exact ⟨P, b, c, happ, hc, hcode, hS, hS'⟩

/-- A description of an action that ends with a branch implies any weaker one. -/
theorem mono {act : Emit Unit} (h : Forks act label e S X)
    (hS : ∀ e' P c, S e' P c → S' e' P c) (hX : ∀ f, X f → X' f) : Forks act label e S' X' := by
  unfold Forks at h ⊢
  split <;> rename_i hrun <;> simp only [hrun] at h
  · obtain ⟨P, b, cond, happ, hcond, hcode, hs⟩ := h
    exact ⟨P, b, cond, happ, hcond, hcode, hS _ _ _ hs⟩
  · exact hX _ h

/-- Sequencing before a branch appends pieces, too.

**Proof sketch.** As for code without a branch (`Emits.bind`); the branch at the end is that
of the second part. -/
theorem bind {k : α → Emit Unit} (h : Emits act e Q X)
    (hk : ∀ a e' P, Q a e' P → Forks (k a) label e' (fun e'' P' c => S e'' (P ++ P') c) X) :
    Forks (act >>= k) label e S X := by
  unfold Emits at h
  unfold Forks
  rw [Emit.runOn_bind]
  rcases hact : act.runOn e with ⟨f | a, e₁⟩
  · simpa [hact] using h
  · simp only [hact] at h ⊢
    obtain ⟨P, happ, hq⟩ := h
    have hrest := hk a e₁ P hq
    unfold Forks at hrest
    split <;> rename_i hrun <;> simp only [hrun] at hrest
    · obtain ⟨P', b, cond, happ', hcond, hcode, hs⟩ := hrest
      exact ⟨P ++ P', b, cond, happ.trans happ', hcond, hcode, hs⟩
    · exact hrest

/-- Emitting an instruction before a branch. -/
theorem emit_bind {i : Inst} {k : Unit → Emit Unit}
    (h : Forks (k ()) label (e.add i) (fun e' P c => S e' (.inst i :: P) c) X) :
    Forks (Lower.emit i >>= k) label e S X := by
  refine .bind (Q := fun _ e' P => e' = e.add i ∧ P = [.inst i]) (.emit ⟨rfl, rfl⟩) ?_
  rintro _ _ _ ⟨rfl, rfl⟩
  exact h

/-- The branch itself, with no pieces before it. The condition has to be one that the host knows. -/
theorem emitBranch {cond : Host.Cond} (hc : cond.code ≤ Host.Cond.always.code)
    (h : S { e with code := e.code.branch cond label } [] cond) :
    Forks (emitBranch cond label) label e S X :=
  ⟨[], e.code, cond, .refl _, hc, rfl, h⟩

/-- Changing the emission around the code after an action that ends with a branch. -/
theorem andAlways {act : Emit Unit} {f : Emission → Emission} (hf : ∀ e, (f e).code = e.code)
    (h : Forks act label e (fun e' P c => S (f e') P c) X) :
    Forks (act.andAlways f) label e S X := by
  unfold Forks at h ⊢
  have hrun : (act.andAlways f).runOn e = ((act.runOn e).1, f (act.runOn e).2) := rfl
  rw [hrun]
  rcases hact : act.runOn e with ⟨f' | _, e₁⟩ <;> simp only [hact] at h ⊢
  · exact h
  · obtain ⟨P, b, cond, happ, hcond, hcode, hs⟩ := h
    exact ⟨P, b, cond, happ, hcond, (hf e₁).trans hcode, hs⟩

end Forks

/-! ## Code with labels -/

namespace Emits

variable {e : Emission} {X : Failure → Prop} {S : Unit → Emission → List Piece → Prop}

/-- **Code that can be jumped over**: a fresh label, code that ends with a branch to it, code to
jump over, and the label.

**Proof sketch.** Creating the label changes no code, and the branch to it is the last of the
code in front. Binding it behind the code to jump over makes the branch a hop over its pieces
(`Appended.jumpOver`). -/
theorem jumpOver {test : Nat → Emit Unit} {body : Emit Unit}
    {R : Emission → List Piece → Host.Cond → Prop}
    (htest : Forks (test e.code.labels.size) e.code.labels.size
      { e with code := e.code.createLabel.1 } R X)
    (hbody : ∀ e' P cond, R e' P cond → Emits body e' (fun _ e'' P' =>
      S () { e'' with code := e''.code.bind e.code.labels.size }
        (P ++ .hop cond P'.length :: P')) X) :
    Emits (do let label ← newLabel; test label; body; bindLabel label) e S X := by
  unfold Forks at htest
  unfold Emits
  have hnew : newLabel.runOn e =
      (.ok e.code.labels.size, { e with code := e.code.createLabel.1 }) := rfl
  rw [Emit.runOn_bind, hnew]
  simp only
  rw [Emit.runOn_bind]
  rcases hrun : (test e.code.labels.size).runOn { e with code := e.code.createLabel.1 } with
    ⟨f | _, e₁⟩
  · simpa [hrun] using htest
  · simp only [hrun] at htest ⊢
    obtain ⟨P, b, cond, happ, hcond, hcode, hr⟩ := htest
    have hb := hbody e₁ P cond hr
    unfold Emits at hb
    rw [Emit.runOn_bind]
    rcases hrun' : body.runOn e₁ with ⟨f | _, e₂⟩ <;> simp only [hrun'] at hb ⊢
    · exact hb
    · obtain ⟨P', happ', hs⟩ := hb
      rw [hcode] at happ'
      exact ⟨_, .jumpOver hcond happ happ', hs⟩

/-- A label that nothing branches to.

**Proof sketch.** Creating and binding a label that nothing branches to adds no pieces
(`Appended.unused`). -/
theorem unusedLabel {body : Emit Unit} (hbody : Emits body
      { e with code := e.code.createLabel.1 } (fun _ e' P =>
        S () { e' with code := e'.code.bind e.code.labels.size } P) X) :
    Emits (do let label ← newLabel; body; bindLabel label) e S X := by
  unfold Emits at hbody ⊢
  have hnew : newLabel.runOn e =
      (.ok e.code.labels.size, { e with code := e.code.createLabel.1 }) := rfl
  rw [Emit.runOn_bind, hnew]
  simp only
  rw [Emit.runOn_bind]
  rcases hrun : body.runOn { e with code := e.code.createLabel.1 } with ⟨f | _, e₁⟩ <;>
    simp only [hrun] at hbody ⊢
  · exact hbody
  · obtain ⟨P, happ, hs⟩ := hbody
    exact ⟨P, .unused happ, hs⟩

/-- **Code of which one part is run**: two fresh labels, code that ends with a branch to the first,
code that jumps on to the second, the first label, other code, and the second label.

**Proof sketch.** As for code that can be jumped over, with a second branch in between and a
label for each of the two (`Appended.choose`). -/
theorem choose {test : Nat → Emit Unit} {body other : Emit Unit}
    {R : Emission → List Piece → Host.Cond → Prop}
    {T : List Piece → Host.Cond → Emission → List Piece → Prop}
    (htest : Forks (test e.code.labels.size) e.code.labels.size
      { e with code := e.code.createLabel.1.createLabel.1 } R X)
    (hbody : ∀ e' P cond, R e' P cond → Emits body e' (fun _ e'' P' => T P cond
      { e'' with
        code := (e''.code.branch .always (e.code.labels.size + 1)).bind e.code.labels.size } P') X)
    (hother : ∀ P cond e' P', T P cond e' P' → Emits other e' (fun _ e'' U =>
      S () { e'' with code := e''.code.bind (e.code.labels.size + 1) }
        (P ++ .hop cond (P'.length + 1) :: (P' ++ .hop .always U.length :: U))) X) :
    Emits (do
      let label ← newLabel
      let done ← newLabel
      test label
      body
      Lower.emitBranch .always done
      bindLabel label
      other
      bindLabel done) e S X := by
  unfold Forks at htest
  unfold Emits
  have hnew : newLabel.runOn e =
      (.ok e.code.labels.size, { e with code := e.code.createLabel.1 }) := rfl
  have hnew' : newLabel.runOn { e with code := e.code.createLabel.1 } =
      (.ok (e.code.labels.size + 1), { e with code := e.code.createLabel.1.createLabel.1 }) := by
    rw [← Code.Builder.size_labels_createLabel]
    rfl
  rw [Emit.runOn_bind, hnew]
  simp only
  rw [Emit.runOn_bind, hnew']
  simp only
  rw [Emit.runOn_bind]
  rcases hrun : (test e.code.labels.size).runOn
      { e with code := e.code.createLabel.1.createLabel.1 } with ⟨f | _, e₁⟩
  · simpa [hrun] using htest
  simp only [hrun] at htest ⊢
  obtain ⟨P, b, cond, happ, hcond, hcode, hr⟩ := htest
  have hb := hbody e₁ P cond hr
  unfold Emits at hb
  rw [Emit.runOn_bind]
  rcases hrun' : body.runOn e₁ with ⟨f | _, e₂⟩ <;> simp only [hrun'] at hb ⊢
  · exact hb
  obtain ⟨P', happ', hr'⟩ := hb
  rw [hcode] at happ'
  have ho := hother _ _ _ _ hr'
  unfold Emits at ho
  have hjump : (Lower.emitBranch .always (e.code.labels.size + 1)).runOn e₂ =
      (.ok (), { e₂ with code := e₂.code.branch .always (e.code.labels.size + 1) }) := rfl
  rw [Emit.runOn_bind, hjump]
  simp only
  have hbind : (bindLabel e.code.labels.size).runOn
      { e₂ with code := e₂.code.branch .always (e.code.labels.size + 1) } =
      (.ok (), { e₂ with
        code := (e₂.code.branch .always (e.code.labels.size + 1)).bind e.code.labels.size }) := rfl
  rw [Emit.runOn_bind, hbind]
  simp only
  rw [Emit.runOn_bind]
  rcases hrun'' : other.runOn { e₂ with
      code := (e₂.code.branch .always (e.code.labels.size + 1)).bind e.code.labels.size } with
    ⟨f | _, e₃⟩ <;> simp only [hrun''] at ho ⊢
  · exact ho
  obtain ⟨U, happ'', hs⟩ := ho
  exact ⟨_, .choose hcond happ happ' happ'', hs⟩

end Emits

end Dynarec.Lower
