import Dynarec.Engine.Trial
import Dynarec.Proofs.Lower.Confined

/-!
# Code and its host

The code of an instruction can be emitted with any host registers in use, and run from any host
registers and flags. Whatever they are, it shows the guest and its caller the same: what the
instruction does to the guest, and how it leaves. The caller finds the registers that are saved as
they were, and no memory written but cells and guest memory that guest stores may touch.

## Main definitions

* `Dynarec.Host.Outcome.seen?` — what a run shows of how it ended.
* `Dynarec.Host.Respects` — a run keeps to the calling convention and to the memory it may write.

## Main results

* `Dynarec.Engine.Trial.exists_code_shows`, `Dynarec.Engine.Trial.emitted_ok` — when code can be
  emitted.
* `Dynarec.Engine.Trial.emitted_agree` — code does the same whatever the host registers are and
  hold.
-/

set_option autoImplicit false

namespace Dynarec

/-! ## What runs show -/

/-- What a run that was not trapped shows: the guest and, if it returned, its exit with the
parameter. -/
def Host.Outcome.seen? : Host.Outcome → Option (Guest.State × Option (Exit × Word))
  | returned t => some (t.guest, some (.ofNumber (t.reg .rax), t.reg .rdx))
  | ended t => some (t.guest, none)
  | trapped | running => none

/-- What the effect of an instruction shows. -/
def Guest.Effect.seen : Guest.Effect → Guest.State × Option (Exit × Word)
  | next g => (g, none)
  | jump distance g => (g, some (.branch, distance))
  | halt g => (g, some (.halt, 0))
  | fault address g => (g, some (.fault, address))

/-- What is seen of code that leaves: the guest state, the way it is left and the parameter. -/
theorem Lower.Left.seen? {kind : Exit} {param : Word} {g : Guest.State} {s u : Host.State}
    (h : Lower.Left kind param g s u) (hkind : Exit.ofNumber kind.number = kind) :
    (Host.Outcome.returned u).seen? = some (g, some (kind, param)) := by
  rw [Host.Outcome.seen?, h.guest, h.kind, h.param, hkind]

/-- Code that shows an effect is seen to have it. -/
theorem Lower.Shows.seen? {s : Host.State} {walked : Code.Walked} {effect : Guest.Effect}
    (h : Lower.Shows s walked effect) : walked.outcome.seen? = some effect.seen := by
  cases h with
  | next h => rfl
  | jump h | halt h | fault h => exact h.seen? rfl

/-- Code that shows an effect without an exit has fallen out of its end. -/
theorem Lower.Shows.fell {s : Host.State} {walked : Code.Walked} {effect : Guest.Effect}
    {g : Guest.State} (h : Lower.Shows s walked effect) (heffect : effect = .next g) :
    ∃ u, walked = .fell u ∧ u.guest = g := by
  subst heffect
  cases h with
  | next h => exact ⟨_, rfl, rfl⟩

/-- Code that shows an effect with an exit has left with that exit. -/
theorem Lower.Shows.left {s : Host.State} {walked : Code.Walked} {effect : Guest.Effect}
    {g : Guest.State} {kind : Exit} {param : Word} (h : Lower.Shows s walked effect)
    (heffect : effect.seen = (g, some (kind, param))) :
    ∃ u, walked = .returned u ∧ Lower.Left kind param g s u := by
  cases h with
  | next h => cases heffect
  | jump h | halt h | fault h =>
    cases heffect
    exact ⟨_, rfl, h⟩

/-! ## What runs leave alone -/

namespace Host

/-- The registers that a caller finds as they were, the stack pointer aside. -/
def calleeSaved : List Reg := [.rbx, .rbp, .r12, .r13, .r14, .r15]

/-- A run of a program holds the registers that are saved and, until it returns, the stack pointer;
and it writes only memory that code may write. -/
structure Respects (mem : Memory) (program : Program) (s : State) : Prop where
  saved : ∀ r ∈ calleeSaved, Holds r (s.reg r) (program.trace s) (program.run s)
  stack : Holds .rsp (s.reg .rsp) (program.trace s) (program.run s)
  writes : ∀ i u a n, (i, u) ∈ program.trace s → i.written? u = some (a, n) →
    Lower.Writable mem a n

/-- Tame code respects its host. -/
theorem Respects.of_tame {mem : Memory} {P : List Code.Piece} (hP : Lower.Tame mem P) (s : State) :
    Respects mem (Code.place 0 P) s := by
  have hpermitted : ∀ i u, (i, u) ∈ (Code.place 0 P).trace s → Lower.Permitted mem i u := by
    rw [Code.trace_place]
    exact hP.permitted s
  have hholds : ∀ r, r ∉ Lower.Scratch.pool →
      Holds r (s.reg r) ((Code.place 0 P).trace s) ((Code.place 0 P).run s) :=
    fun r hr => Program.run_holds fun i u hmem htarget =>
      ((hpermitted i u hmem).target r htarget).resolve_left hr
  have hsaved : ∀ r ∈ calleeSaved, r ∉ Lower.Scratch.pool := by
    decide
  exact ⟨fun r hr => hholds r (hsaved r hr), hholds .rsp (by decide),
    fun i u a n hmem => (hpermitted i u hmem).written a n⟩

end Host

/-! ## Trials -/

namespace Engine.Trial

variable {inst : Guest.Instruction} {m : Memory}

/-- An instruction that is lowered as it is meant can be emitted if its registers are mapped and
seven scratch registers are free. -/
theorem emitted_ok_of_realizes {t : Trial} {pre : Host.State → Prop}
    (h : Lower.Realizes (Lower.instruction t.pc t.memory t.inst) t.pc t.inst pre)
    (hmapped : ∀ r ∈ t.inst.named, r.Mapped) (hfree : 7 ≤ t.initial.scratch.free) :
    t.emitted.1 = .ok () := by
  rcases hrun : t.emitted with ⟨f | _, e⟩
  · obtain ⟨r, hr, hunmapped, -⟩ | ⟨hlt, -⟩ := (h t.initial).of_error hrun
    · exact absurd (hmapped r hr) hunmapped
    · omega
  · rfl

/-- Running the code of an instruction that is lowered as it is meant shows its effect. -/
theorem code_shows {t : Trial} {pre : Host.State → Prop}
    (h : Lower.Realizes (Lower.instruction t.pc t.memory t.inst) t.pc t.inst pre)
    (hok : t.emitted.1 = .ok ()) :
    ∃ code, t.emitted.2.code.assemble = .ok code ∧
      ∀ s, pre s → ∃ effect walked, s.guest.step t.pc t.inst = some effect ∧
        code.program.run s = walked.outcome ∧ Lower.Shows s walked effect := by
  have hrun : t.emitted = (.ok (), t.emitted.2) := Prod.ext hok rfl
  obtain ⟨P, happ, hfits, -, hshows⟩ := (h t.initial).of_ok hrun
  obtain ⟨code, hcode, hprogram, -⟩ := Code.Appended.assemble happ hfits
  refine ⟨code, hcode, fun s hs => ?_⟩
  obtain ⟨effect, hstep, hshows⟩ := hshows s
  exact ⟨effect, _, hstep, by rw [hprogram, Code.run_place], hshows hs⟩

/-- An instruction that is lowered as it is meant has code if its registers are mapped and seven
scratch registers are free, and running that code shows its effect. -/
theorem exists_code_shows {t : Trial} {pre : Host.State → Prop}
    (h : Lower.Realizes (Lower.instruction t.pc t.memory t.inst) t.pc t.inst pre)
    (hmapped : ∀ r ∈ t.inst.named, r.Mapped) (hfree : 7 ≤ t.initial.scratch.free) :
    t.emitted.1 = .ok () ∧ ∃ code, t.emitted.2.code.assemble = .ok code ∧
      ∀ s, pre s → ∃ effect walked, s.guest.step t.pc t.inst = some effect ∧
        code.program.run s = walked.outcome ∧ Lower.Shows s walked effect := by
  have hok := emitted_ok_of_realizes h hmapped hfree
  exact ⟨hok, code_shows h hok⟩

/-- Code can be emitted if the registers of an instruction are mapped and seven scratch registers
are free. -/
theorem emitted_ok {t : Trial} (h : Guest.Regular t.inst) (hmapped : ∀ r ∈ t.inst.named, r.Mapped)
    (hmemory : t.memory = some m) (hfree : 7 ≤ t.initial.scratch.free) : t.emitted.1 = .ok () := by
  have hrealizes := Lower.instruction_realizes h t.pc m
  rw [← hmemory] at hrealizes
  exact emitted_ok_of_realizes hrealizes hmapped hfree

/-- The code of an instruction shows its effect, and respects its host.

**Proof sketch.** Two facts about the lowering of an instruction are put together: what its
code shows (`Lower.instruction_realizes`) and what it keeps (`Lower.instruction_keeps`). The
pieces assemble, and a run of the program is a walk through the pieces. -/
theorem emitted_shows {t : Trial} (h : Guest.Regular t.inst) (hmemory : t.memory = some m)
    (hm : m.Sound) (hok : t.emitted.1 = .ok ()) :
    ∃ code, t.emitted.2.code.assemble = .ok code ∧ ∀ s, m.Alike s.memory →
      (∃ effect, s.guest.step t.pc t.inst = some effect ∧
        (code.program.run s).seen? = some effect.seen) ∧ Host.Respects m code.program s := by
  have hemits := (Lower.lowers_iff.1 (Lower.instruction_realizes h t.pc m t.initial)).and
    (Lower.instruction_keeps hm h t.pc t.initial)
  rw [← hmemory] at hemits
  have hrun : t.emitted = (.ok (), t.emitted.2) := Prod.ext hok rfl
  obtain ⟨P, happ, ⟨hfits, -, hshows⟩, -, htame⟩ := hemits.of_ok hrun
  obtain ⟨code, hcode, hprogram, -⟩ := Code.Appended.assemble happ hfits
  refine ⟨code, hcode, fun s hs => ?_⟩
  rw [hprogram]
  refine ⟨?_, .of_tame htame s⟩
  obtain ⟨effect, hstep, hshows⟩ := hshows s
  refine ⟨effect, hstep, ?_⟩
  rw [Code.run_place]
  exact (hshows ⟨hm, hs⟩).seen?

/-- **Code does the same whatever the host registers are and hold.** Take an instruction that
decoding gives, open memory that does not run on past the end of the address space, and two lists of
host registers in use with which its code can be emitted. Then both codes can be assembled. Run from
host states with the same cells and the same guest memory, at the place they were emitted for,
whatever else these states hold, neither is trapped, and both show the same: the cells, the memory,
and the exit with its parameter if they return. Each run holds the saved registers and, up to
returning, the stack pointer, and writes nothing but cells and guest memory that is not below its
limit.

**Proof sketch.** Each code shows the effect of the instruction on the guest of its own host
state (`emitted_shows`). Host states with the same cells and the same memory have the same guest,
so the two effects are one, whatever else the states hold. -/
theorem emitted_agree {word : Opcode} (hword : Guest.decode word = some inst) (hm : m.Reachable)
    (hopen : m.bytes.size ≠ 0) (hfits : m.base.toNat + m.bytes.size ≤ 0x10000000000000000)
    (pc : Word) (reserved reserved' : List Host.Reg) :
    let t : Trial := { inst := inst, pc := pc, memory := some m, reserved := reserved }
    let t' : Trial := { inst := inst, pc := pc, memory := some m, reserved := reserved' }
    t.emitted.1 = .ok () → t'.emitted.1 = .ok () →
      ∃ code code', t.emitted.2.code.assemble = .ok code ∧
        t'.emitted.2.code.assemble = .ok code' ∧
        ∀ s s' : Host.State, m.Alike s.memory → s.cells = s'.cells → s.memory = s'.memory →
          (∃ seen, (code.program.run s).seen? = some seen ∧
            (code'.program.run s').seen? = some seen) ∧
          Host.Respects m code.program s ∧ Host.Respects m code'.program s' := by
  intro t t' hok hok'
  have hinst : Guest.Regular inst := Guest.regular_of_decode hword
  have hsound : m.Sound := ⟨hm.placed, hopen, hfits⟩
  obtain ⟨code, hcode, hrun⟩ := emitted_shows (t := t) hinst rfl hsound hok
  obtain ⟨code', hcode', hrun'⟩ := emitted_shows (t := t') hinst rfl hsound hok'
  refine ⟨code, code', hcode, hcode', fun s s' hs hcells hmemory => ?_⟩
  have hguest : s.guest = s'.guest := by
    rw [Host.State.guest, hcells, hmemory, Host.State.guest]
  obtain ⟨⟨effect, hstep, hseen⟩, hrespects⟩ := hrun s hs
  obtain ⟨⟨effect', hstep', hseen'⟩, hrespects'⟩ := hrun' s' (hmemory ▸ hs)
  -- the guest is the same, so the instruction has the same effect on it
  obtain rfl : effect = effect' := by
    have heffect := hstep
    rw [hguest] at heffect
    exact Option.some.inj (heffect.symm.trans hstep')
  exact ⟨⟨effect.seen, hseen, hseen'⟩, hrespects, hrespects'⟩

/-- Storing a register, with no host register in use and with two of them. -/
theorem emitted_agree_store :
    let ref : Guest.MemoryRef := { base := { number := 1, width := 64, sp := true }, offset := 8 }
    let inst : Guest.Instruction := { op := .str, operands := [.reg (.x 0), .mem ref] }
    let m := Memory.page 0x10000
    let t : Trial := { inst := inst, pc := 0, memory := some m }
    let t' : Trial := { inst := inst, pc := 0, memory := some m, reserved := [.rax, .rcx] }
    Guest.decode 0xf9000420 = some inst ∧ m.Reachable ∧
      ∃ code code', t.emitted.2.code.assemble = .ok code ∧
        t'.emitted.2.code.assemble = .ok code' ∧
        ∀ s s' : Host.State, m.Alike s.memory → s.cells = s'.cells → s.memory = s'.memory →
          (∃ seen, (code.program.run s).seen? = some seen ∧
            (code'.program.run s').seen? = some seen) ∧
          Host.Respects m code.program s ∧ Host.Respects m code'.program s' := by
  intro ref inst m t t'
  have hword : Guest.decode 0xf9000420 = some inst := by decide
  have hm : m.Reachable := .page _
  have hsize : m.bytes.size = 4096 := by simp [m, Memory.page]
  have hbase : m.base.toNat = 0x10000 := rfl
  have hinst : Guest.Regular inst := Guest.regular_of_decode hword
  have hmapped : ∀ r ∈ inst.named, r.Mapped := by decide
  have hok : t.emitted.1 = .ok () := emitted_ok hinst hmapped rfl (by decide)
  have hok' : t'.emitted.1 = .ok () := emitted_ok hinst hmapped rfl (by decide)
  exact ⟨hword, hm, emitted_agree hword hm (by omega) (by omega) 0 [] [.rax, .rcx] hok hok'⟩

end Engine.Trial

end Dynarec
