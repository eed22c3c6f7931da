import Dynarec.Proofs.Lower.Emits

/-!
# What emitted code does

An emitting action is described by the code it adds: the state in which it leaves the emission, and
the meaning of the new code as a function on host states. Meanings compose when actions are
sequenced, so an action is specified once and its callers never look at its code again.

## Main definitions

* `Dynarec.Lower.Meaning` — what running a stretch of code does to the host.
* `Dynarec.Lower.Lowers` — an action succeeds with code of a certain meaning, or fails in a certain
  way.
* `Dynarec.Lower.Branches` — the same for an action whose code ends with a branch to an open label.

## Main results

* `Dynarec.Lower.Lowers.bind` — sequencing actions composes the meanings of their code.
* `Dynarec.Lower.Lowers.jumpOver`, `Dynarec.Lower.Lowers.choose` — code with labels.
-/

set_option autoImplicit false

namespace Dynarec.Lower

open Host (Reg Inst State)
open Code (Piece Walked walk Appended Fits)

/-! ## Meanings -/

/-- What running a stretch of code from a host state comes to. -/
abbrev Meaning := State → Walked

/-- The meaning of code behind other code. -/
def Meaning.andThen (w v : Meaning) : Meaning :=
  fun s => (w s).andThen v

/-- Nothing in front of code does nothing. -/
@[simp] theorem Meaning.fell_andThen (w : Meaning) : Meaning.andThen Walked.fell w = w := by
  funext s
  rfl

/-- Nothing behind code does nothing. -/
@[simp] theorem Meaning.andThen_fell (w : Meaning) : w.andThen Walked.fell = w := by
  funext s
  unfold Meaning.andThen
  cases w s <;> rfl

/-- Sequencing meanings is associative, as appending code is. -/
theorem Meaning.andThen_assoc (w v u : Meaning) :
    (w.andThen v).andThen u = w.andThen (v.andThen u) := by
  funext s
  unfold Meaning.andThen
  cases w s <;> rfl

/-- Code goes on from where the code before it fell out of its end. -/
theorem Meaning.andThen_of_fell {w : Meaning} {s t : State} (h : w s = .fell t) (v : Meaning) :
    w.andThen v s = v t := by
  simp [Meaning.andThen, h]

/-- Where code returns, the code behind it is not run. -/
theorem Meaning.andThen_of_returned {w : Meaning} {s t : State} (h : w s = .returned t)
    (v : Meaning) : w.andThen v s = .returned t := by
  simp [Meaning.andThen, h]

/-- The meaning of a single instruction. -/
def does (i : Inst) : Meaning :=
  walk 0 [.inst i]

/-- An instruction other than a return that runs falls through to what is behind it. -/
theorem does_of_step {i : Inst} {s t : State} (h : i.step s = some t) (hi : i ≠ .ret) :
    does i s = .fell t := by
  simp [does, walk, h, hi]

/-! ## Actions and the meaning of their code -/

/-- The action succeeds with a value, an emission and a meaning of the code it adds that are related
by `R`, or it fails with a failure in `X`. -/
def Lowers {α : Type} (act : Emit α) (e : Emission) (R : α → Emission → Meaning → Prop)
    (X : Failure → Prop) : Prop :=
  match act.runOn e with
  | (.ok a, e') => ∃ P, Appended e.code e'.code P ∧ Fits P ∧ R a e' (walk 0 P)
  | (.error f, _) => X f

/-- The action succeeds with code of the given meaning and, behind it, a branch to a label that it
leaves open; or it fails with a failure in `X`. -/
def Branches (act : Emit Unit) (label : Nat) (e : Emission)
    (R : Emission → Meaning → Host.Cond → Prop) (X : Failure → Prop) : Prop :=
  match act.runOn e with
  | (.ok (), e') =>
    ∃ P b cond, Appended e.code b P ∧ Fits P ∧ cond.code ≤ Host.Cond.always.code ∧
      e'.code = b.branch cond label ∧ R e' (walk 0 P) cond
  | (.error f, _) => X f

/-- The meaning of an action's code is what its pieces do. -/
theorem lowers_iff {α : Type} {act : Emit α} {e : Emission} {R : α → Emission → Meaning → Prop}
    {X : Failure → Prop} :
    Lowers act e R X ↔ Emits act e (fun a e' P => Fits P ∧ R a e' (walk 0 P)) X :=
  Iff.rfl

/-- The meaning of code before a branch is what its pieces do. -/
theorem branches_iff {act : Emit Unit} {label : Nat} {e : Emission}
    {R : Emission → Meaning → Host.Cond → Prop} {X : Failure → Prop} :
    Branches act label e R X ↔ Forks act label e
      (fun e' P c => Fits P ∧ c.code ≤ Host.Cond.always.code ∧ R e' (walk 0 P) c) X := by
  unfold Branches Forks
  rcases act.runOn e with ⟨f | _, e'⟩
  · exact Iff.rfl
  · constructor
    · rintro ⟨P, b, cond, happ, hfits, hcond, hcode, hr⟩
      exact ⟨P, b, cond, happ, hcond, hcode, hfits, hcond, hr⟩
    · rintro ⟨P, b, cond, happ, hcond, hcode, hfits, -, hr⟩
      exact ⟨P, b, cond, happ, hfits, hcond, hcode, hr⟩

/-- Walking through nothing falls through. -/
theorem walk_zero_nil : walk 0 [] = Walked.fell :=
  funext (Code.walk_nil 0)

/-- The meaning of appended pieces. -/
theorem walk_zero_append {P : List Piece} (hP : Fits P) (Q : List Piece) :
    walk 0 (P ++ Q) = Meaning.andThen (walk 0 P) (walk 0 Q) :=
  funext (Code.walk_append hP Q)

namespace Lowers

variable {α β : Type} {e : Emission} {act : Emit α} {k : α → Emit β}
variable {R R' : α → Emission → Meaning → Prop} {S : β → Emission → Meaning → Prop}
variable {X X' : Failure → Prop}

/-- What an action that succeeded has done. -/
theorem of_ok (h : Lowers act e R X) {a : α} {e' : Emission} (hrun : act.runOn e = (.ok a, e')) :
    ∃ P, Appended e.code e'.code P ∧ Fits P ∧ R a e' (walk 0 P) :=
  (lowers_iff.1 h).of_ok hrun

/-- Why an action failed. -/
theorem of_error (h : Lowers act e R X) {f : Failure} {e' : Emission}
    (hrun : act.runOn e = (.error f, e')) : X f :=
  (lowers_iff.1 h).of_error hrun

/-- A description of an action implies any weaker one. -/
theorem mono (h : Lowers act e R X) (hR : ∀ a e' w, R a e' w → R' a e' w)
    (hX : ∀ f, X f → X' f) : Lowers act e R' X' :=
  lowers_iff.2 ((lowers_iff.1 h).mono (fun a e' _ h => ⟨h.1, hR a e' _ h.2⟩) hX)

/-- Giving a value adds no code, so the meaning is to fall through. -/
theorem pure {a : α} (h : R a e Walked.fell) : Lowers (Pure.pure a) e R X :=
  lowers_iff.2 (.pure ⟨trivial, walk_zero_nil ▸ h⟩)

/-- **Sequencing composes meanings.** -/
theorem bind (h : Lowers act e R X)
    (hk : ∀ a e' w, R a e' w → Lowers (k a) e' (fun b e'' v => S b e'' (w.andThen v)) X) :
    Lowers (act >>= k) e S X := by
  refine lowers_iff.2 (.bind (lowers_iff.1 h) ?_)
  rintro a e' P ⟨hP, hr⟩
  refine (lowers_iff.1 (hk a e' _ hr)).mono ?_ fun f hf => hf
  rintro b e'' P' ⟨hP', hs⟩
  exact ⟨hP.append hP', walk_zero_append hP P' ▸ hs⟩

/-- An action that only changes the emission around the code. -/
theorem update {f : Emission → Emission} {R : Unit → Emission → Meaning → Prop}
    (hf : (f e).code = e.code) (h : R () (f e) Walked.fell) : Lowers (Emit.update f) e R X :=
  lowers_iff.2 (.update hf ⟨trivial, walk_zero_nil ▸ h⟩)

/-- Emitting an instruction: it has to have an encoding, or the code could not be assembled. -/
theorem emit {i : Inst} {R : Unit → Emission → Meaning → Prop} (hi : ∃ bytes, i.encode = .ok bytes)
    (h : R () (e.add i) (does i)) : Lowers (emit i) e R X :=
  lowers_iff.2 (.emit ⟨⟨hi, trivial⟩, h⟩)

/-- Changing the emission around the code, and going on. -/
theorem update_bind {f : Emission → Emission} {k : Unit → Emit β} (hf : (f e).code = e.code)
    (h : Lowers (k ()) (f e) S X) : Lowers (Emit.update f >>= k) e S X := by
  refine .bind (R := fun _ e' w => e' = f e ∧ w = Walked.fell) (.update hf ⟨rfl, rfl⟩) ?_
  rintro _ _ _ ⟨rfl, rfl⟩
  exact h

/-- Emitting an instruction, and going on. -/
theorem emit_bind {i : Inst} {k : Unit → Emit β} (hi : ∃ bytes, i.encode = .ok bytes)
    (h : Lowers (k ()) (e.add i) (fun b e' w => S b e' ((does i).andThen w)) X) :
    Lowers (Lower.emit i >>= k) e S X := by
  refine .bind (R := fun _ e' w => e' = e.add i ∧ w = does i) (.emit hi ⟨rfl, rfl⟩) ?_
  rintro _ _ _ ⟨rfl, rfl⟩
  exact h

/-- Changing the emission around the code after an action, whether the action failed or not. -/
theorem andAlways {f : Emission → Emission} (hf : ∀ e, (f e).code = e.code)
    (h : Lowers act e (fun a e' w => R a (f e') w) X) : Lowers (act.andAlways f) e R X :=
  lowers_iff.2 (.andAlways hf (lowers_iff.1 h))

end Lowers

namespace Branches

variable {α : Type} {e : Emission} {act : Emit α} {label : Nat}
variable {R : α → Emission → Meaning → Prop} {S S' : Emission → Meaning → Host.Cond → Prop}
variable {X X' : Failure → Prop}

/-- A description of an action that ends with a branch implies any weaker one. -/
theorem mono {act : Emit Unit} (h : Branches act label e S X)
    (hS : ∀ e' w c, S e' w c → S' e' w c) (hX : ∀ f, X f → X' f) :
    Branches act label e S' X' :=
  branches_iff.2 ((branches_iff.1 h).mono (fun e' _ c h => ⟨h.1, h.2.1, hS e' _ c h.2.2⟩) hX)

/-- Sequencing before a branch composes meanings, too. -/
theorem bind {k : α → Emit Unit} (h : Lowers act e R X)
    (hk : ∀ a e' w, R a e' w → Branches (k a) label e' (fun e'' v c => S e'' (w.andThen v) c) X) :
    Branches (act >>= k) label e S X := by
  refine branches_iff.2 (.bind (lowers_iff.1 h) ?_)
  rintro a e' P ⟨hP, hr⟩
  refine (branches_iff.1 (hk a e' _ hr)).mono ?_ fun f hf => hf
  rintro e'' P' c ⟨hP', hc, hs⟩
  exact ⟨hP.append hP', hc, walk_zero_append hP P' ▸ hs⟩

/-- Emitting an instruction before a branch. -/
theorem emit_bind {i : Inst} {k : Unit → Emit Unit} (hi : ∃ bytes, i.encode = .ok bytes)
    (h : Branches (k ()) label (e.add i) (fun e' w c => S e' ((does i).andThen w) c) X) :
    Branches (Lower.emit i >>= k) label e S X := by
  refine .bind (R := fun _ e' w => e' = e.add i ∧ w = does i) (.emit hi ⟨rfl, rfl⟩) ?_
  rintro _ _ _ ⟨rfl, rfl⟩
  exact h

/-- The branch itself, with nothing before it. -/
theorem emitBranch {cond : Host.Cond} (hc : cond.code ≤ Host.Cond.always.code)
    (h : S { e with code := e.code.branch cond label } Walked.fell cond) :
    Branches (emitBranch cond label) label e S X :=
  branches_iff.2 (.emitBranch hc ⟨trivial, hc, walk_zero_nil ▸ h⟩)

end Branches

/-! ## Code with labels -/

/-- Code of which one part is run, as the host flags decide. -/
def Meaning.ifElse (cond : Host.Cond) (taken other : Meaning) : Meaning :=
  fun s => if cond.holds s.flags then taken s else other s

/-- Passing over all of some code falls through. -/
theorem walk_length (Q : List Piece) (s : State) : walk Q.length Q s = .fell s := by
  simpa using Code.walk_skip Q [] s

/-- Walking through code that can be jumped over. -/
theorem walk_jumpOver {P : List Piece} (hP : Fits P) (cond : Host.Cond) (Q : List Piece) :
    walk 0 (P ++ .hop cond Q.length :: Q) =
      Meaning.andThen (walk 0 P) (.ifElse cond Walked.fell (walk 0 Q)) := by
  funext s
  rw [Code.walk_append hP]
  congr 1
  funext t
  simp only [walk, Meaning.ifElse, walk_length]

/-- Walking through code of which one part is run.

**Proof sketch.** If the branch is taken, the walk skips the first part and the jump behind
it, and goes on with the other. If it is not, the walk goes through the first part and jumps over
the rest. -/
theorem walk_choose {P Q : List Piece} (hP : Fits P) (hQ : Fits Q) (cond : Host.Cond)
    (R : List Piece) :
    walk 0 (P ++ .hop cond (Q.length + 1) :: (Q ++ .hop .always R.length :: R)) =
      Meaning.andThen (walk 0 P) (.ifElse cond (walk 0 R) (walk 0 Q)) := by
  funext s
  rw [Code.walk_append hP]
  congr 1
  funext t
  have htaken : walk (Q.length + 1) (Q ++ .hop .always R.length :: R) t = walk 0 R t := by
    have h := Code.walk_skip (Q ++ [.hop .always R.length]) R t
    rwa [List.length_append, List.length_singleton, List.append_assoc] at h
  have hother : walk 0 (Q ++ .hop .always R.length :: R) t = walk 0 Q t := by
    rw [Code.walk_append hQ]
    have hover : walk 0 (.hop .always R.length :: R) = Walked.fell := by
      funext u
      simp only [walk, walk_length]
      simp [Host.Cond.holds, Host.Cond.always]
    rw [hover]
    cases walk 0 Q t <;> rfl
  simp only [walk, Meaning.ifElse, htaken, hother]

namespace Lowers

variable {e : Emission} {X : Failure → Prop} {S : Unit → Emission → Meaning → Prop}

/-- **Code that can be jumped over**: a fresh label, code that ends with a branch to it, code to
jump over, and the label.

**Proof sketch.** The same rule for pieces (`Emits.jumpOver`), with the walk through them put
together from the walks through their parts (`walk_jumpOver`). -/
theorem jumpOver {test : Nat → Emit Unit} {body : Emit Unit}
    {R : Emission → Meaning → Host.Cond → Prop}
    (htest : Branches (test e.code.labels.size) e.code.labels.size
      { e with code := e.code.createLabel.1 } R X)
    (hbody : ∀ e' w cond, R e' w cond → Lowers body e' (fun _ e'' v =>
      e''.code.length ≤ e'.code.length + Code.reach ∧
        S () { e'' with code := e''.code.bind e.code.labels.size }
          (w.andThen (.ifElse cond Walked.fell v))) X) :
    Lowers (do let label ← newLabel; test label; body; bindLabel label) e S X := by
  refine lowers_iff.2 (.jumpOver (branches_iff.1 htest) ?_)
  rintro e₁ P cond ⟨hP, hcond, hr⟩
  refine (lowers_iff.1 (hbody e₁ _ cond hr)).appended.mono ?_ fun f hf => hf
  rintro _ e₂ P' ⟨happ, hP', hlen, hs⟩
  have hlength := happ.length
  refine ⟨hP.append ⟨hcond, Nat.le_refl _, by omega, hP'⟩, ?_⟩
  rw [walk_jumpOver hP]
  exact hs

/-- A label that nothing branches to. -/
theorem unusedLabel {body : Emit Unit} (hbody : Lowers body
      { e with code := e.code.createLabel.1 } (fun _ e' v =>
        S () { e' with code := e'.code.bind e.code.labels.size } v) X) :
    Lowers (do let label ← newLabel; body; bindLabel label) e S X :=
  lowers_iff.2 (.unusedLabel (lowers_iff.1 hbody))

/-- **Code of which one part is run**: two fresh labels, code that ends with a branch to the first,
code that jumps on to the second, the first label, other code, and the second label.

**Proof sketch.** The same rule for pieces (`Emits.choose`), with the walk through them put
together from the walks through their parts (`walk_choose`). -/
theorem choose {test : Nat → Emit Unit} {body other : Emit Unit}
    {R : Emission → Meaning → Host.Cond → Prop}
    {T : Meaning → Host.Cond → Emission → Meaning → Prop}
    (htest : Branches (test e.code.labels.size) e.code.labels.size
      { e with code := e.code.createLabel.1.createLabel.1 } R X)
    (hbody : ∀ e' w cond, R e' w cond → Lowers body e' (fun _ e'' v =>
      e''.code.length + 1 ≤ e'.code.length + Code.reach ∧ T w cond
        { e'' with
          code := (e''.code.branch .always (e.code.labels.size + 1)).bind e.code.labels.size } v) X)
    (hother : ∀ w cond e' v, T w cond e' v → Lowers other e' (fun _ e'' u =>
      e''.code.length ≤ e'.code.length + Code.reach ∧
        S () { e'' with code := e''.code.bind (e.code.labels.size + 1) }
          (w.andThen (.ifElse cond u v))) X) :
    Lowers (do
      let label ← newLabel
      let done ← newLabel
      test label
      body
      Lower.emitBranch .always done
      bindLabel label
      other
      bindLabel done) e S X := by
  refine lowers_iff.2 (.choose (T := fun P cond e' P' => Fits P ∧ Fits P' ∧
    cond.code ≤ Host.Cond.always.code ∧ P'.length + 1 ≤ Code.reach ∧
      T (walk 0 P) cond e' (walk 0 P')) (branches_iff.1 htest) ?_ ?_)
  · rintro e₁ P cond ⟨hP, hcond, hr⟩
    refine (lowers_iff.1 (hbody e₁ _ cond hr)).appended.mono ?_ fun f hf => hf
    rintro _ e₂ P' ⟨happ, hP', hlen, ht⟩
    have hlength := happ.length
    exact ⟨hP, hP', hcond, by omega, ht⟩
  · rintro P cond e₂ P' ⟨hP, hP', hcond, hlen, ht⟩
    refine (lowers_iff.1 (hother _ cond e₂ _ ht)).appended.mono ?_ fun f hf => hf
    rintro _ e₃ U ⟨happ, hU, hlen', hs⟩
    have hlength := happ.length
    have htail : Fits (.hop .always U.length :: U) :=
      ⟨by decide, Nat.le_refl _, by omega, hU⟩
    refine ⟨hP.append ⟨hcond, by simp, hlen, hP'.append htail⟩, ?_⟩
    rw [walk_choose hP hP']
    exact hs

end Lowers

end Dynarec.Lower
