import Dynarec.Proofs.Engine.Cache

/-!
# The blocks of an engine

An engine caches at most one block for each entry, and the map and the index of its cache refer to
the same blocks. Each block is the straight line at its entry, so two blocks that overlap end
together. The counters of an engine can be recomputed from its blocks. All this holds at the start
and is kept by whatever an engine is asked to do, also when it fails.

## Main definitions

* `Dynarec.Engine.Block.IsLine` — the block is a straight line of the stream.
* `Dynarec.Engine.Tidy` — map and index agree, and the counters are those of the blocks.

## Main results

* `Dynarec.Guest.straightLine_drop` — a line entered in its middle ends where it ends.
* `Dynarec.Engine.Tidy.call` — what one call keeps.
* `Dynarec.Engine.blocks_of_calls` — blocks and counters after any calls.
-/

set_option autoImplicit false

namespace Dynarec

namespace Guest

/-! ## Straight lines -/

/-- A line is its first word, and the line of the rest unless that word ends it. -/
theorem straightLine_cons (word : Opcode) (rest : List Opcode) :
    straightLine (word :: rest) =
      word :: if endsLine word then [] else straightLine rest := by
  rw [straightLine]
  split <;> rfl

/-- A straight line is where its words begin. -/
theorem take_straightLine (words : List Opcode) :
    words.take (straightLine words).length = straightLine words := by
  induction words with
  | nil => rfl
  | cons word rest ih =>
    rw [straightLine_cons]
    split
    · rfl
    · rw [List.length_cons, List.take_succ_cons, ih]

/-- A line is no longer than the words it is taken from. -/
theorem length_straightLine_le (words : List Opcode) :
    (straightLine words).length ≤ words.length := by
  rw [← take_straightLine words, List.length_take]
  omega

/-- **Entering a line in its middle** leads to the same end.

**Proof sketch.** By induction on the words: what is skipped ends no line, so the line goes on
behind it. -/
theorem straightLine_drop {words : List Opcode} {k : Nat} (hk : k < (straightLine words).length) :
    straightLine (words.drop k) = (straightLine words).drop k := by
  induction words generalizing k with
  | nil => simp [straightLine] at hk
  | cons word rest ih =>
    cases k with
    | zero => rfl
    | succ k =>
      rw [straightLine_cons, List.length_cons] at hk
      rw [straightLine_cons, List.drop_succ_cons, List.drop_succ_cons]
      split at hk
      · simp at hk
      · rename_i hends
        rw [if_neg hends, ih (by omega)]

/-- **How a line ends.** Only its last word is a branch or return, and if that is none either,
the line is all there is.

**Proof sketch.** By induction on the words: a word that ends the line is its last, and any
other stands in front of the line of the rest. -/
theorem straightLine_ends {words : List Opcode} (h : words ≠ []) :
    ∃ front last, straightLine words = front ++ [last] ∧ (∀ w ∈ front, endsLine w = false) ∧
      (endsLine last = true ∨ straightLine words = words) := by
  induction words with
  | nil => exact absurd rfl h
  | cons word rest ih =>
    rw [straightLine_cons]
    cases hends : endsLine word with
    | true => exact ⟨[], word, rfl, by simp, .inl hends⟩
    | false =>
      simp only [Bool.false_eq_true, if_false]
      by_cases hrest : rest = []
      · subst hrest
        exact ⟨[], word, rfl, by simp, .inr rfl⟩
      · obtain ⟨front, last, hline, hfront, hlast⟩ := ih hrest
        refine ⟨word :: front, last, by rw [hline, List.cons_append], ?_, ?_⟩
        · simpa using ⟨hends, hfront⟩
        · exact hlast.imp_right fun hall => by rw [hall]

end Guest

namespace Engine

variable {dis : Guest.Disassembler} {e e' : Engine} {text : List Opcode} {b c : Block}
variable {entry : Word} {blocks : List Block}

/-! ## Blocks as lines -/

/-- The block is the straight line at its entry. -/
structure Spans (text : List Opcode) (b : Block) : Prop where
  aligned : b.entry.toNat % Guest.instructionSize = 0
  inside : b.entry.toNat < text.length * Guest.instructionSize
  count : b.count = (Guest.straightLine (wordsAt text b.entry)).length
  stop : b.stop.toNat = b.entry.toNat + b.count * Guest.instructionSize

/-- The block lies in the stream at the offset of an instruction. It is as long as its instructions
are, of which only the last is a branch or return; if that is none, the stream ends with it. -/
structure Block.IsLine (text : List Opcode) (b : Block) : Prop where
  aligned : b.entry.toNat % Guest.instructionSize = 0
  nonempty : b.entry < b.stop
  inside : b.stop.toNat ≤ text.length * Guest.instructionSize
  length : b.stop.toNat - b.entry.toNat = b.count * Guest.instructionSize
  words : ∃ front last, (wordsAt text b.entry).take b.count = front ++ [last] ∧
    (∀ word ∈ front, Guest.endsLine word = false) ∧
      (Guest.endsLine last = true ∨ b.stop.toNat = text.length * Guest.instructionSize)

/-- The words from an offset on, in bytes. -/
theorem Spans.length_wordsAt (h : Spans text b) :
    b.entry.toNat + (wordsAt text b.entry).length * Guest.instructionSize =
      text.length * Guest.instructionSize := by
  have haligned := h.aligned
  have hinside := h.inside
  simp only [wordsAt, List.length_drop, Guest.instructionSize] at haligned hinside ⊢
  omega

/-- A block that spans the line at its entry is a straight line of the stream.

**Proof sketch.** There are words from the entry on, since it lies inside the stream. The words
of the block are then the line that they begin with (`Guest.take_straightLine`), whose last word
is a branch or return, or the last of the stream (`Guest.straightLine_ends`). -/
theorem Spans.isLine (h : Spans text b) : b.IsLine text := by
  have hlength := h.length_wordsAt
  have hinside := h.inside
  have hstop := h.stop
  have hle := Guest.length_straightLine_le (wordsAt text b.entry)
  rw [← h.count] at hle
  have hwords : wordsAt text b.entry ≠ [] := by
    intro hnil
    rw [hnil, List.length_nil] at hlength
    omega
  obtain ⟨front, last, hline, hfront, hlast⟩ := Guest.straightLine_ends hwords
  have hcount : b.count = front.length + 1 := by
    rw [h.count, hline, List.length_append, List.length_singleton]
  unfold Guest.instructionSize at *
  refine ⟨h.aligned, ?_, ?_, ?_, front, last, ?_, hfront, hlast.imp_right fun hall => ?_⟩
  · rw [BitVec.lt_def]
    omega
  · unfold Guest.instructionSize
    omega
  · unfold Guest.instructionSize
    omega
  · rw [h.count, Guest.take_straightLine, hline]
  · rw [← hall, ← h.count] at hlength
    unfold Guest.instructionSize
    omega

/-- Blocks that overlap end together: the line of the one is entered in its middle by the other.

**Proof sketch.** Entries are offsets of whole words, so the words from the later entry on
are those from the earlier one without the first few. The later line is then the rest of the
earlier one (`Guest.straightLine_drop`), and both have the same end. -/
theorem Spans.stop_eq (hb : Spans text b) (hc : Spans text c) (hle : b.entry ≤ c.entry)
    (hlt : c.entry < b.stop) : b.stop = c.stop := by
  have hbstop := hb.stop
  have hcstop := hc.stop
  have hbaligned := hb.aligned
  have hcaligned := hc.aligned
  rw [BitVec.le_def] at hle
  rw [BitVec.lt_def] at hlt
  unfold Guest.instructionSize at *
  obtain ⟨k, hk⟩ : ∃ k, c.entry.toNat / 4 = b.entry.toNat / 4 + k :=
    ⟨c.entry.toNat / 4 - b.entry.toNat / 4, by omega⟩
  have hdrop : wordsAt text c.entry = (wordsAt text b.entry).drop k := by
    rw [wordsAt, wordsAt, List.drop_drop, Guest.instructionSize, hk]
  have hcount : c.count = b.count - k := by
    have hkcount : k < b.count := by omega
    rw [hb.count] at hkcount
    rw [hc.count, hdrop, Guest.straightLine_drop hkcount, List.length_drop, ← hb.count]
  apply BitVec.eq_of_toNat_eq
  omega

/-- Two blocks lie apart or end together. -/
theorem Spans.apart_or_stop_eq (hb : Spans text b) (hc : Spans text c) :
    b.stop ≤ c.entry ∨ c.stop ≤ b.entry ∨ b.stop = c.stop := by
  by_cases hbc : b.stop ≤ c.entry
  · exact .inl hbc
  · by_cases hcb : c.stop ≤ b.entry
    · exact .inr (.inl hcb)
    · rw [BitVec.not_le] at hbc hcb
      refine .inr (.inr ?_)
      by_cases hle : b.entry ≤ c.entry
      · exact hb.stop_eq hc hle hbc
      · rw [BitVec.not_le] at hle
        exact (hc.stop_eq hb (BitVec.le_of_lt hle) hcb).symm

/-- The block of the line at an entry.

**Proof sketch.** The stream is short of the address space, so neither the entry nor the end
of the line wraps around. -/
theorem Spans.of_entry (hsize : e.text.length * Guest.instructionSize < 0x10000000000000000)
    (hentry : e.isEntry b.entry = true)
    (hcount : b.count = (Guest.straightLine (wordsAt e.text b.entry)).length)
    (hstop : b.stop = b.entry + BitVec.ofNat 64 (b.count * Guest.instructionSize)) :
    Spans e.text b := by
  have hstream : e.streamSize.toNat = e.text.length * Guest.instructionSize := by
    rw [streamSize, BitVec.toNat_ofNat]
    exact Nat.mod_eq_of_lt hsize
  obtain ⟨haligned, hinside⟩ : b.entry.toNat % Guest.instructionSize = 0 ∧
      b.entry < e.streamSize := by simpa [isEntry] using hentry
  rw [BitVec.lt_def, hstream] at hinside
  refine ⟨haligned, hinside, hcount, ?_⟩
  have hle := Guest.length_straightLine_le (wordsAt e.text b.entry)
  rw [← hcount, wordsAt, List.length_drop] at hle
  unfold Guest.instructionSize at *
  rw [hstop, BitVec.toNat_add, BitVec.toNat_ofNat]
  omega

/-! ## Compiling and counting -/

/-- Code that is placed takes its bytes, and pages for them.

**Proof sketch.** Placing code fails if there are no bytes, and otherwise takes as many as
there are, and whole pages for them. -/
theorem finalize_pool {code : Code.Builder} {pool pool' : Code.Pool} {assembled : Code.Assembled}
    (h : (code.finalize pool).2 = .ok (assembled, pool')) :
    pool'.used = pool.used + assembled.size ∧
      pool'.mapped = pool.mapped + Code.Pool.pagesFor assembled.size := by
  rw [Code.Builder.finalize] at h
  split at h
  · cases h
  · cases hassemble : code.assemble with
    | error f =>
      rw [hassemble] at h
      cases h
    | ok assembled' =>
      rw [hassemble] at h
      by_cases hempty : assembled'.bytes.isEmpty = true
      · simp [bind, Except.bind, Code.Pool.allocate, hempty] at h
      · simp [bind, Except.bind, Code.Pool.allocate, hempty] at h
        obtain ⟨rfl, rfl⟩ := h
        exact ⟨rfl, rfl⟩

/-- Compiling at a new entry adds the line there as a block, or adds nothing.

**Proof sketch.** An offset that is no entry is refused. At an entry the line compiles or not
(`compileLine_spec`); if it does, its code can be finalized with any pages in use
(`LineCode.finalize`), and the block is that of the line. -/
theorem compile_adds (hnew : e.find? entry = none) :
    (∃ events f, e.compile entry = (e.note events, .error f)) ∨
    ∃ events pool b, b.entry = entry ∧ b.hits = 0 ∧ e.isEntry entry = true ∧
      b.count = (Guest.straightLine (wordsAt e.text entry)).length ∧
      b.stop = entry + BitVec.ofNat 64 (b.count * Guest.instructionSize) ∧
      pool.used = e.pool.used + b.code.size ∧
      pool.mapped = e.pool.mapped + Code.Pool.pagesFor b.code.size ∧
      e.compile entry = ((e.addBlock pool b).note events, .ok b) := by
  cases hentry : e.isEntry entry with
  | false =>
    refine .inl ⟨[], .ofAt .fault (e.loadBias + entry) (.entry entry e.text.length), ?_⟩
    rw [compile, hnew, hentry]
    simp [Engine.note]
  | true =>
    have hspec := compileLine_spec e.memory (wordsAt e.text entry) (e.loadBias + entry) {}
    rw [compile_of_isEntry hnew hentry]
    rcases hline : compileLine e.memory (wordsAt e.text entry) (e.loadBias + entry) {} with
      ⟨events, f | line⟩
    · exact .inl ⟨events, f, rfl⟩
    · rw [hline] at hspec
      obtain ⟨-, P, hP⟩ := hspec
      obtain ⟨code, pool, hfinal, -, -⟩ := hP.finalize e.pool
      obtain ⟨hused, hmapped⟩ := finalize_pool hfinal
      refine .inr ⟨events ++ [.compiled (e.loadBias + entry) line.count code], pool,
        e.blockOf entry line code, rfl, rfl, rfl, hP.count, rfl, hused, hmapped, ?_⟩
      simp only [hfinal]

/-- A block with one more hit, if it is the one that was found. -/
def Block.hitAt (entry : Word) (b : Block) : Block :=
  if b.entry = entry then { b with hits := b.hits + 1 } else b

/-- Blocks at other entries do not get the hit. -/
theorem Block.hitAt_of_ne (h : b.entry ≠ entry) : b.hitAt entry = b := if_neg h

/-- The block at the entry gets one hit. -/
@[simp] theorem Block.hits_hitAt (b : Block) : (b.hitAt b.entry).hits = b.hits + 1 := by
  rw [hitAt, if_pos rfl]

/-- A hit leaves the code of a block alone. -/
@[simp] theorem Block.code_hitAt (entry : Word) (b : Block) : (b.hitAt entry).code = b.code := by
  unfold hitAt
  split <;> rfl

/-- A hit leaves the extent of a block alone. -/
theorem Spans.hitAt (h : Spans text b) (entry : Word) : Spans text (b.hitAt entry) := by
  unfold Block.hitAt
  split
  · exact ⟨h.aligned, h.inside, h.count, h.stop⟩
  · exact h

/-- A hit is counted once.

**Proof sketch.** By induction on the blocks. The first is the one, and then no other has its
entry, or it is not, and then it stays as it is. -/
theorem sum_hits_hitAt (hblocks : blocks.Pairwise fun b c => b.entry < c.entry) (hb : b ∈ blocks) :
    ((blocks.map (Block.hitAt b.entry)).map Block.hits).sum = (blocks.map Block.hits).sum + 1 := by
  induction blocks with
  | nil => cases hb
  | cons c rest ih =>
    rw [List.pairwise_cons] at hblocks
    simp only [List.map_cons, List.sum_cons]
    obtain rfl | hrest := List.mem_cons.1 hb
    · have hothers : rest.map (Block.hitAt b.entry) = rest := by
        rw [List.map_congr_left fun c hc =>
          Block.hitAt_of_ne (BitVec.ne_of_lt (hblocks.1 c hc)).symm, List.map_id']
      rw [hothers, Block.hits_hitAt]
      omega
    · rw [ih hblocks.2 hrest, Block.hitAt_of_ne (BitVec.ne_of_lt (hblocks.1 b hrest))]
      omega

/-- Map and index agree, blocks are straight lines of the stream, and the counters are those of the
blocks. -/
structure Tidy (text : List Opcode) (e : Engine) : Prop where
  stream : e.text = text
  size : text.length * Guest.instructionSize < 0x10000000000000000
  agrees : e.cache.Agrees
  spans : ∀ b ∈ e.blocks, Spans text b
  compilations : e.compilations = e.blocks.length
  hits : e.hits = (e.blocks.map Block.hits).sum
  executions : e.executions ≤ e.hits + e.compilations
  used : e.pool.used = (e.blocks.map fun b => b.code.size).sum
  mapped : e.pool.mapped = (e.blocks.map fun b => Code.Pool.pagesFor b.code.size).sum

namespace Tidy

/-- The blocks of a tidy engine are listed in order. -/
theorem ordered (h : Tidy text e) : e.blocks.Pairwise fun b c => b.entry < c.entry :=
  h.agrees.pairwise_blocks

/-- The blocks of a tidy engine are found where they are listed. -/
theorem find?_eq_some_iff (h : Tidy text e) :
    e.find? entry = some b ↔ b ∈ e.blocks ∧ b.entry = entry :=
  h.agrees.find?_eq_some_iff

/-- Nothing cached and nothing counted. -/
theorem of_empty (hstream : e.text = text)
    (hsize : text.length * Guest.instructionSize < 0x10000000000000000) (hcache : e.cache = .empty)
    (hcompilations : e.compilations = 0) (hhits : e.hits = 0) (hexecutions : e.executions = 0)
    (hpool : e.pool = {}) : Tidy text e := by
  have hblocks : e.blocks = [] := by rw [blocks, hcache]; rfl
  refine ⟨hstream, hsize, by rw [hcache]; exact Cache.agrees_empty, ?_, ?_, ?_, ?_, ?_, ?_⟩ <;>
    simp [*]

/-- What is not looked at can change. -/
theorem congr (h : Tidy text e) (htext : e'.text = e.text) (hcache : e'.cache = e.cache)
    (hcompilations : e'.compilations = e.compilations) (hhits : e'.hits = e.hits)
    (hexecutions : e'.executions ≤ e.hits + e.compilations) (hpool : e'.pool = e.pool) :
    Tidy text e' := by
  have hblocks : e'.blocks = e.blocks := congrArg Cache.blocks hcache
  exact
    { stream := htext.trans h.stream
      size := h.size
      agrees := by rw [hcache]; exact h.agrees
      spans := by rw [hblocks]; exact h.spans
      compilations := by rw [hblocks, hcompilations]; exact h.compilations
      hits := by rw [hblocks, hhits]; exact h.hits
      executions := by rw [hhits, hcompilations]; exact hexecutions
      used := by rw [hblocks, hpool]; exact h.used
      mapped := by rw [hblocks, hpool]; exact h.mapped }

/-- Notes in the journal keep an engine tidy. -/
theorem note (h : Tidy text e) (events : List Event) : Tidy text (e.note events) :=
  h.congr rfl rfl rfl rfl h.executions rfl

/-- **A block more** keeps an engine tidy, if it is a line of the stream at a new entry and the pool
has taken its code.

**Proof sketch.** Map and index stay in agreement (`Cache.Agrees.add`), and the blocks that are
listed are the same and this one (`Cache.Agrees.blocks_add`), so each sum over them grows by its
part. -/
theorem addBlock (h : Tidy text e) (hnew : e.find? b.entry = none) (hspans : Spans text b)
    (hhits : b.hits = 0) {pool : Code.Pool} (hused : pool.used = e.pool.used + b.code.size)
    (hmapped : pool.mapped = e.pool.mapped + Code.Pool.pagesFor b.code.size) :
    Tidy text (e.addBlock pool b) := by
  have hperm : (e.addBlock pool b).blocks.Perm (b :: e.blocks) := h.agrees.blocks_add hnew
  refine ⟨h.stream, h.size, h.agrees.add hnew, fun c hc => ?_, ?_, ?_, ?_, ?_, ?_⟩
  · obtain rfl | hc := List.mem_cons.1 (hperm.mem_iff.1 hc)
    · exact hspans
    · exact h.spans c hc
  · rw [hperm.length_eq, List.length_cons, ← h.compilations]
    rfl
  · rw [(hperm.map _).sum_nat, List.map_cons, List.sum_cons, hhits, ← h.hits, Nat.zero_add]
    rfl
  · exact Nat.le_succ_of_le h.executions
  · rw [(hperm.map _).sum_nat, List.map_cons, List.sum_cons, ← h.used, Nat.add_comm, ← hused]
    rfl
  · rw [(hperm.map _).sum_nat, List.map_cons, List.sum_cons, ← h.mapped, Nat.add_comm, ← hmapped]
    rfl

/-- **One more hit** of a block that is found keeps an engine tidy, and leaves room for an
execution.

**Proof sketch.** The block that is found is the one listed with that entry, and counting the
hit changes that one in its place (`Cache.Agrees.blocks_update`). So one hit more is counted on
both sides (`sum_hits_hitAt`), and all other sums are over what is the same. -/
theorem countHit (h : Tidy text e) (hfind : e.find? entry = some b) :
    Tidy text (e.countHit entry) ∧ (e.countHit entry).executions <
      (e.countHit entry).hits + (e.countHit entry).compilations := by
  obtain ⟨hb, rfl⟩ := h.find?_eq_some_iff.1 hfind
  have hblocks : (e.countHit b.entry).blocks = e.blocks.map (Block.hitAt b.entry) :=
    h.agrees.blocks_update b.entry Block.hit fun _ => rfl
  have hexecutions := h.executions
  have hagrees : (e.countHit b.entry).cache.Agrees := h.agrees.update b.entry Block.hit fun _ => rfl
  refine ⟨⟨h.stream, h.size, hagrees, ?_, ?_, ?_, ?_, ?_, ?_⟩, ?_⟩
  · rw [hblocks]
    intro c hc
    obtain ⟨d, hd, rfl⟩ := List.mem_map.1 hc
    exact (h.spans d hd).hitAt b.entry
  · rw [hblocks, List.length_map]
    exact h.compilations
  · show e.hits + 1 = _
    rw [hblocks, sum_hits_hitAt h.ordered hb, h.hits]
  · show e.executions ≤ e.hits + 1 + e.compilations
    omega
  · show e.pool.used = _
    rw [hblocks]
    simpa [Function.comp_def] using h.used
  · show e.pool.mapped = _
    rw [hblocks]
    simpa [Function.comp_def] using h.mapped
  · show e.executions < e.hits + 1 + e.compilations
    omega

/-- **Compiling** keeps an engine tidy. A block that is compiled makes room for one execution
more in the bound on executions.

**Proof sketch.** What is cached already is returned as it is. Otherwise nothing but the
journal changes, or the line at the entry is added as a block (`compile_adds`), which is one
compilation more. -/
theorem compile (h : Tidy text e) (entry : Word) : Tidy text (e.compile entry).1 ∧
      (e.find? entry = none → (∃ b, (e.compile entry).2 = .ok b) →
        (e.compile entry).1.executions <
          (e.compile entry).1.hits + (e.compile entry).1.compilations) := by
  cases hfind : e.find? entry with
  | some b =>
    rw [Engine.compile, hfind]
    exact ⟨h, fun hnone => by cases hnone⟩
  | none =>
    obtain ⟨events, f, hcompile⟩ | ⟨events, pool, b, rfl, hhits, hentry, hcount, hstop, hused,
      hmapped, hcompile⟩ := compile_adds hfind
    · rw [hcompile]
      refine ⟨h.note events, fun _ hok => ?_⟩
      obtain ⟨b, hb⟩ := hok
      cases hb
    · rw [hcompile]
      have hspans : Spans text b := by
        rw [← h.stream]
        exact .of_entry (by rw [h.stream]; exact h.size) hentry hcount hstop
      have hadd := h.addBlock hfind hspans hhits hused hmapped
      exact ⟨hadd.note events, fun _ _ => Nat.lt_succ_of_le h.executions⟩

/-- Invoking a block counts one execution at most, so there must be room for one. -/
theorem invoke (h : Tidy text e) (hexecutions : e.executions < e.hits + e.compilations)
    (b : Block) : Tidy text (e.invoke b).1 := by
  unfold Engine.invoke
  dsimp only
  split
  · exact h
  · split
    · exact h.congr rfl rfl rfl rfl hexecutions rfl
    · exact h.congr rfl rfl rfl rfl hexecutions rfl

/-- **Executing** a block keeps an engine tidy. -/
theorem execute (h : Tidy text e) (entry : Word) : Tidy text (e.execute entry).1 := by
  unfold Engine.execute
  cases hfind : e.find? entry with
  | some b =>
    obtain ⟨hcount, hexecutions⟩ := h.countHit hfind
    exact hcount.invoke hexecutions b
  | none =>
    obtain ⟨hcompile, hexecutions⟩ := h.compile entry
    generalize e.compile entry = made at hcompile hexecutions
    obtain ⟨e', f | b⟩ := made
    · exact hcompile
    · exact hcompile.invoke (hexecutions hfind ⟨b, rfl⟩) b

/-- What one block of a run keeps, the run keeps. -/
theorem runFrom [Guest.Disassembler] (h : Tidy text e) (c : Cancellation) (fuel executed : Nat)
    (offset : Word) : Tidy text (Engine.runFrom c fuel e executed offset).1 :=
  runFrom_keeps (fun _ entry h => h.execute entry) h c fuel executed offset

/-- **Every call** keeps an engine tidy. -/
theorem call (h : Tidy text e) (c : Call) : Tidy text (e.call c) := by
  cases c with
  | compile entry => exact (h.compile entry).1
  | execute entry => exact h.execute entry
  | run fuel cancellation entry => exact h.runFrom cancellation fuel 0 entry
  | setRegisters registers => exact h.congr rfl rfl rfl rfl h.executions rfl
  | limit address =>
    rw [Engine.call]
    split
    · exact h.congr rfl rfl rfl rfl h.executions rfl
    · exact h

/-- **Any calls** keep an engine tidy. -/
theorem calls [Guest.Disassembler] (h : Tidy text e) (cs : List Call) : Tidy text (e.calls cs) := by
  induction cs generalizing e with
  | nil => exact h
  | cons c cs ih => exact ih (h.call c)

end Tidy

/-! ## From creation on -/

/-- A fresh engine is tidy. -/
theorem create_tidy {memory : Option Memory} {loadBias : Option Word} {maxBlocks : Int}
    (h : create text memory loadBias maxBlocks = .ok e)
    (hsize : text.length * Guest.instructionSize < 0x10000000000000000) : Tidy text e := by
  obtain ⟨bias, m, rfl⟩ := create_eq h
  exact .of_empty rfl hsize rfl rfl rfl rfl rfl

/-- **The blocks of an engine.** Let an engine be created and called in any way. The map and the
index of its cache then refer to the same blocks, each of them once, and a block is found at an
entry, by the map, exactly if it is one of those that are listed, by the index, and has that entry.
Blocks stand in strictly increasing order of their entries, each is a straight line of the stream,
and two of them lie apart or end together. The block at an offset is the covering block with the
greatest entry, and there is none exactly if no block covers the offset. The counters are those of
the blocks.

**Proof sketch.** A fresh engine is tidy (`create_tidy`), and every call keeps it so (`Tidy.call`):
what can change the cache is a block that is added at a new entry and a hit that is counted, and
both keep map and index in agreement. The rest is read off a tidy engine: two lines that overlap are
one line entered at two words (`Spans.apart_or_stop_eq`). -/
theorem blocks_of_calls (text : List Opcode) (memory : Option Memory) (loadBias : Option Word)
    (maxBlocks : Int) (start : Engine) (hstart : create text memory loadBias maxBlocks = .ok start)
    (hsize : text.length * Guest.instructionSize < 0x10000000000000000) (cs : List Call) :
    let e := start.calls cs
    (e.cache.refs.map Prod.snd).Perm e.cache.index ∧
    (∀ entry b, e.find? entry = some b ↔ b ∈ e.blocks ∧ b.entry = entry) ∧
    (e.blocks.Pairwise fun b c => b.entry < c.entry) ∧
    (∀ b ∈ e.blocks, b.IsLine text) ∧
    (∀ b ∈ e.blocks, ∀ c ∈ e.blocks, b.stop ≤ c.entry ∨ c.stop ≤ b.entry ∨ b.stop = c.stop) ∧
    (∀ offset b, e.blockContaining? offset = some b ↔ b ∈ e.blocks ∧ b.covers offset = true ∧
      ∀ c ∈ e.blocks, c.covers offset = true → c.entry ≤ b.entry) ∧
    (∀ offset, e.blockContaining? offset = none ↔ ∀ b ∈ e.blocks, b.covers offset = false) ∧
    e.stats.blocks = e.blocks.length ∧ e.stats.compilations = e.blocks.length ∧
    e.stats.hits = (e.blocks.map Block.hits).sum ∧
    e.stats.executions ≤ e.stats.hits + e.stats.compilations ∧
    e.stats.codeBytes = (e.blocks.map fun b => b.code.size).sum ∧
    e.stats.codeMapped = (e.blocks.map fun b => Code.Pool.pagesFor b.code.size).sum := by
  intro e
  have h : Tidy text e := (create_tidy hstart hsize).calls cs
  exact ⟨h.agrees.refs, fun entry b => h.find?_eq_some_iff, h.ordered,
    fun b hb => (h.spans b hb).isLine,
    fun b hb c hc => (h.spans b hb).apart_or_stop_eq (h.spans c hc),
    fun offset b => h.agrees.containing?_eq_some_iff,
    fun offset => Cache.containing?_eq_none_iff, h.agrees.size_eq, h.compilations, h.hits,
    h.executions, h.used, h.mapped⟩

/-- An engine that is asked for a line, for the end of it, and for an entry outside the stream: the
index has the two blocks in order, and the one found at the first entry is listed. -/
theorem blocks_of_overlapping_calls :
    let _ : Guest.Disassembler := .least
    let text : List Opcode := [0xd503201f, 0xd503201f, 0xd65f03c0]
    let start : Engine := { text := text, loadBias := 0, memory := .closed 0 0 }
    let e := start.calls [.compile 4, .execute 4, .run 2 .never 0, .compile 12]
    create text (some (.closed 0 0)) none 0 = .ok start ∧
      text.length * Guest.instructionSize < 0x10000000000000000 ∧
      e.cache.refs = [(0, 1), (4, 0)] ∧ e.cache.index = [1, 0] ∧
      (∀ b, e.find? 0 = some b ↔ b ∈ e.blocks ∧ b.entry = 0) ∧
      (∀ b ∈ e.blocks, b.IsLine text) ∧
      ∀ b ∈ e.blocks, ∀ c ∈ e.blocks, b.stop ≤ c.entry ∨ c.stop ≤ b.entry ∨ b.stop = c.stop := by
  intro _ text start e
  have hstart : create text (some (.closed 0 0)) none 0 = .ok start := rfl
  have hsize : text.length * Guest.instructionSize < 0x10000000000000000 := by decide
  obtain ⟨-, hfind, -, hlines, happart, -⟩ :=
    blocks_of_calls text (some (.closed 0 0)) none 0 start hstart hsize
      [.compile 4, .execute 4, .run 2 .never 0, .compile 12]
  exact ⟨hstart, hsize, by decide +kernel, by decide +kernel, hfind 0, hlines, happart⟩

end Engine

end Dynarec
