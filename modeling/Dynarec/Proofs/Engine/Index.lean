import Mathlib.Data.List.Nodup
import Dynarec.Engine.Cache

/-!
# The map and the index of a cache

A cache finds blocks by a map and lists them by an index, and adding a block changes each on its
own. The two agree when they refer to the same blocks and the index has them in order. A cache with
nothing in it agrees, and so does what adding a block at a new entry and changing a block in its
place make of a cache that does. In a cache that agrees, a block is found at an entry exactly if it
is listed and has that entry.

## Main definitions

* `Dynarec.Engine.Cache.Agrees` — map and index refer to the same blocks, which are in order.

## Main results

* `Dynarec.Engine.Cache.find?_add`, `Dynarec.Engine.Cache.find?_update` — what the map finds
  afterwards, whether the index agrees or not.
* `Dynarec.Engine.Cache.Agrees.add`, `Dynarec.Engine.Cache.Agrees.update` — agreement is kept.
* `Dynarec.Engine.Cache.Agrees.find?_eq_some_iff` — finding against listing.
* `Dynarec.Engine.Cache.Agrees.containing?_eq_some_iff` — the block at an offset.
-/

set_option autoImplicit false

namespace Dynarec.Engine

/-! ## Ordered lists -/

section ReplaceOrInsert

variable {α : Type} {before : α → α → Bool} {a : α} {l : List α}

/-- An item that is before or behind each item of a list replaces none of them: the list has one
item more. -/
theorem replaceOrInsert_perm (hnew : ∀ c ∈ l, before a c = true ∨ before c a = true) :
    (replaceOrInsert before a l).Perm (a :: l) := by
  induction l with
  | nil => exact .refl _
  | cons c rest ih =>
    rw [List.forall_mem_cons] at hnew
    rw [replaceOrInsert]
    split
    · exact .refl _
    · rename_i hnot
      rw [if_pos (hnew.1.resolve_left hnot)]
      exact ((ih hnew.2).cons c).trans (.swap a c rest)

/-- A list in order stays in order when an item is put into its place.

**Proof sketch.** Induction on the list. The item goes in front of the first item that it is before,
and then, the order being transitive, it is before all that follow; the items in front of it are
before it. -/
theorem pairwise_replaceOrInsert
    (htrans : ∀ {a b c}, before a b = true → before b c = true → before a c = true)
    (hl : l.Pairwise fun b c => before b c = true)
    (hnew : ∀ c ∈ l, before a c = true ∨ before c a = true) :
    (replaceOrInsert before a l).Pairwise fun b c => before b c = true := by
  induction l with
  | nil => exact .cons (by simp) .nil
  | cons c rest ih =>
    rw [List.forall_mem_cons] at hnew
    rw [List.pairwise_cons] at hl
    rw [replaceOrInsert]
    split
    · rename_i hfirst
      refine .cons (fun d hd => ?_) (.cons hl.1 hl.2)
      obtain rfl | hd := List.mem_cons.1 hd
      · exact hfirst
      · exact htrans hfirst (hl.1 d hd)
    · rename_i hnot
      have hbehind := hnew.1.resolve_left hnot
      rw [if_pos hbehind]
      refine .cons (fun d hd => ?_) (ih hl.2 hnew.2)
      obtain rfl | hd := List.mem_cons.1 ((replaceOrInsert_perm hnew.2).mem_iff.1 hd)
      · exact hbehind
      · exact hl.1 d hd

end ReplaceOrInsert

/-! ## Entries -/

/-- In order of their entries, a block is told by its entry.

**Proof sketch.** By induction on the blocks: if the first is one of the two and not the
other, its entry is less than itself. -/
theorem eq_of_entry_eq {blocks : List Block} {b c : Block}
    (hblocks : blocks.Pairwise fun b c => b.entry < c.entry) (hb : b ∈ blocks) (hc : c ∈ blocks)
    (h : b.entry = c.entry) : b = c := by
  induction blocks with
  | nil => cases hb
  | cons d rest ih =>
    rw [List.pairwise_cons] at hblocks
    obtain rfl | hbrest := List.mem_cons.1 hb <;> obtain rfl | hcrest := List.mem_cons.1 hc
    · rfl
    · have hlt := hblocks.1 c hcrest
      rw [h] at hlt
      exact absurd hlt (BitVec.lt_irrefl _)
    · have hlt := hblocks.1 b hbrest
      rw [h] at hlt
      exact absurd hlt (BitVec.lt_irrefl _)
    · exact ih hblocks.2 hbrest hcrest

/-- In order of their entries, the last block with a property is the one with the greatest entry of
those that have it.

**Proof sketch.** What is found from the end stands behind every other block with the
property, so its entry is the greatest. Conversely something is found, since the given block has
the property, and two greatest entries are the same, hence of one block (`eq_of_entry_eq`). -/
theorem find?_reverse_eq_some_iff {blocks : List Block} {b : Block} {p : Block → Bool}
    (hblocks : blocks.Pairwise fun b c => b.entry < c.entry) :
    blocks.reverse.find? p = some b ↔
      b ∈ blocks ∧ p b = true ∧ ∀ c ∈ blocks, p c = true → c.entry ≤ b.entry := by
  have hgreatest {b : Block} (h : blocks.reverse.find? p = some b) :
      b ∈ blocks ∧ p b = true ∧ ∀ c ∈ blocks, p c = true → c.entry ≤ b.entry := by
    obtain ⟨hb, later, earlier, hsplit, hlater⟩ := List.find?_eq_some_iff_append.1 h
    rw [List.reverse_eq_iff, List.reverse_append, List.reverse_cons, List.append_assoc] at hsplit
    rw [hsplit] at hblocks ⊢
    obtain ⟨-, -, hbefore⟩ := List.pairwise_append.1 hblocks
    refine ⟨by simp, hb, fun c hc hpc => ?_⟩
    obtain hc | hc | hc : c ∈ earlier ∨ c = b ∨ c ∈ later := by simpa using hc
    · exact BitVec.le_of_lt (hbefore c (by simpa using hc) b (by simp))
    · rw [hc]
      exact BitVec.le_refl _
    · have hnot := hlater c hc
      simp [hpc] at hnot
  refine ⟨hgreatest, fun ⟨hb, hpb, hmax⟩ => ?_⟩
  cases hfind : blocks.reverse.find? p with
  | none => exact absurd hpb (List.find?_eq_none.1 hfind b (List.mem_reverse.2 hb))
  | some c =>
    obtain ⟨hc, hpc, hcmax⟩ := hgreatest hfind
    rw [eq_of_entry_eq hblocks hc hb (BitVec.le_antisymm (hmax c hc hpc) (hcmax b hb hpb))]

/-- A block that covers an offset is not entered behind it. -/
theorem Block.entry_le_of_covers {b : Block} {offset : Word} (h : b.covers offset = true) :
    b.entry ≤ offset := by
  simpa using (Bool.and_eq_true_iff.1 h).1

namespace Cache

variable {c : Cache} {b : Block} {entry : Word}

/-! ## The map -/

/-- Where the map leads to from an entry.

**Proof sketch.** The pair that is found has the entry. For the converse, some pair with the
entry is found, and the map has no other. -/
theorem ref?_eq_some_iff {r : Nat} : c.ref? entry = some r ↔ (entry, r) ∈ c.refs := by
  rw [ref?, Option.map_eq_some_iff]
  constructor
  · rintro ⟨p, hp, rfl⟩
    have hentry : p.1 = entry := by simpa using List.find?_some hp
    exact hentry ▸ List.mem_of_find?_eq_some hp
  · intro hmem
    cases hfind : c.refs.find? fun p => p.1 == entry with
    | none =>
      have hnone := List.find?_eq_none.1 hfind _ hmem
      simp at hnone
    | some p =>
      have hentry : p.1 = entry := by simpa using List.find?_some hfind
      -- the map has no other pair with this entry
      have hp := List.inj_on_of_nodup_map c.nodup (List.mem_of_find?_eq_some hfind) hmem hentry
      exact ⟨p, rfl, congrArg Prod.snd hp⟩

/-- The blocks that the map leads to. -/
theorem find?_eq_some_iff :
    c.find? entry = some b ↔ ∃ r, (entry, r) ∈ c.refs ∧ c.made[r]? = some b := by
  rw [find?, Option.bind_eq_some_iff]
  simp only [ref?_eq_some_iff]

/-- A block is found at its own entry. -/
theorem entry_of_find? (h : c.find? entry = some b) : b.entry = entry := by
  obtain ⟨r, hr, hb⟩ := find?_eq_some_iff.1 h
  have hkey := c.keyed _ hr
  rw [hb] at hkey
  exact Option.some.inj hkey

/-- Nothing is found at an entry exactly if the map does not lead from it anywhere. -/
theorem find?_eq_none_iff : c.find? entry = none ↔ ∀ p ∈ c.refs, p.1 ≠ entry := by
  constructor
  · rintro hnone p hp rfl
    obtain ⟨b, hb, -⟩ := Option.map_eq_some_iff.1 (c.keyed p hp)
    rw [find?_eq_some_iff.2 ⟨p.2, hp, hb⟩] at hnone
    cases hnone
  · intro hnone
    rw [Option.eq_none_iff_forall_ne_some]
    intro b hb
    obtain ⟨r, hr, -⟩ := find?_eq_some_iff.1 hb
    exact hnone _ hr rfl

/-- A block that is added is found at its entry, and the others where they were.

**Proof sketch.** The new pair leads to the end of what was made, where the block now is. Any
other entry leads where it did, and what was made stays where it was. -/
theorem find?_add (c : Cache) (b : Block) (entry : Word) :
    (c.add b).find? entry = if b.entry = entry then some b else c.find? entry := by
  split
  · rename_i hentry
    rw [find?_eq_some_iff]
    exact ⟨c.made.size, by simp [add, assign, hentry], by simp [add]⟩
  · rename_i hentry
    ext d
    rw [find?_eq_some_iff, find?_eq_some_iff]
    refine exists_congr fun r => ?_
    have hmem : (entry, r) ∈ (c.add b).refs ↔ (entry, r) ∈ c.refs := by
      simp [add, assign, Ne.symm hentry]
    rw [hmem]
    refine and_congr_right fun hr => ?_
    show (c.made.push b)[r]? = some d ↔ c.made[r]? = some d
    rw [getElem?_push_of_lt (lt_of_ref c.keyed hr)]

/-- The blocks of a cache after a change in its place: the one that the map leads to is changed.

**Proof sketch.** Let the map lead to a block from some entry. If the entry that is changed
leads there too, the two entries are the same and it is this block that is changed. If not, this
block has another entry and stays as it is. -/
theorem getElem?_update (c : Cache) (entry : Word) (f : Block → Block)
    (hf : ∀ b, (f b).entry = b.entry) {p : Word × Nat} (hp : p ∈ c.refs) :
    (c.update entry f hf).made[p.2]? =
      (c.made[p.2]?).map fun b => if b.entry = entry then f b else b := by
  obtain ⟨b, hb, hkey⟩ := Option.map_eq_some_iff.1 (c.keyed p hp)
  unfold update
  split
  · rename_i hnone
    -- the map does not lead from the entry anywhere, so this block has another
    have hne : b.entry ≠ entry := by
      rintro rfl
      have hsome : c.ref? b.entry = some p.2 := ref?_eq_some_iff.2 (hkey ▸ hp)
      rw [hnone] at hsome
      cases hsome
    rw [hb, Option.map_some, if_neg hne]
  · rename_i r hr
    rw [Array.getElem?_modify, hb]
    have hmem := ref?_eq_some_iff.1 hr
    by_cases hsame : r = p.2
    · have hentry := c.keyed _ hmem
      rw [hsame, hb] at hentry
      rw [if_pos hsame, Option.map_some, Option.map_some, if_pos (Option.some.inj hentry)]
    · have hne : b.entry ≠ entry := by
        rintro rfl
        have hpair := List.inj_on_of_nodup_map c.nodup hmem hp hkey
        exact hsame (congrArg Prod.snd hpair)
      rw [if_neg hsame, Option.map_some, if_neg hne]

/-- The map of a cache stays the same when a block is changed in its place. -/
theorem refs_update (c : Cache) (entry : Word) (f : Block → Block)
    (hf : ∀ b, (f b).entry = b.entry) : (c.update entry f hf).refs = c.refs := by
  unfold update
  split <;> rfl

/-- The index of a cache stays the same when a block is changed in its place. -/
theorem index_update (c : Cache) (entry : Word) (f : Block → Block)
    (hf : ∀ b, (f b).entry = b.entry) : (c.update entry f hf).index = c.index := by
  unfold update
  split <;> rfl

/-- The number of cached blocks stays the same when a block is changed in its place. -/
theorem size_update (c : Cache) (entry : Word) (f : Block → Block)
    (hf : ∀ b, (f b).entry = b.entry) : (c.update entry f hf).size = c.size :=
  congrArg List.length (c.refs_update entry f hf)

/-- What is found after a change: the same blocks, and the one at the entry is changed. -/
theorem find?_update (c : Cache) (hit : Word) (f : Block → Block)
    (hf : ∀ b, (f b).entry = b.entry) (entry : Word) :
    (c.update hit f hf).find? entry =
      (c.find? entry).map fun b => if b.entry = hit then f b else b := by
  ext d
  rw [find?_eq_some_iff, refs_update, Option.map_eq_some_iff]
  constructor
  · rintro ⟨r, hr, hd⟩
    rw [getElem?_update c hit f hf hr] at hd
    obtain ⟨b, hb, rfl⟩ := Option.map_eq_some_iff.1 hd
    exact ⟨b, find?_eq_some_iff.2 ⟨r, hr, hb⟩, rfl⟩
  · rintro ⟨b, hb, rfl⟩
    obtain ⟨r, hr, hb⟩ := find?_eq_some_iff.1 hb
    exact ⟨r, hr, by rw [getElem?_update c hit f hf hr, hb, Option.map_some]⟩

/-- There is no block at an offset exactly if none of those that are listed covers it. -/
theorem containing?_eq_none_iff {offset : Word} :
    c.containing? offset = none ↔ ∀ b ∈ c.blocks, b.covers offset = false := by
  rw [containing?, List.find?_eq_none]
  constructor
  · intro hnone b hb
    by_contra hcovers
    rw [Bool.not_eq_false] at hcovers
    exact hnone b (by simp [hb, Block.entry_le_of_covers hcovers]) hcovers
  · intro hnone b hb
    rw [List.mem_reverse, List.mem_filter] at hb
    simp [hnone b hb.1]

/-! ## Agreement -/

/-- One block is entered before another exactly if both are there and their entries say so. -/
theorem before_eq_true_iff {made : Array Block} {r q : Nat} : before made r q = true ↔
    ∃ b d, made[r]? = some b ∧ made[q]? = some d ∧ b.entry < d.entry := by
  unfold before
  cases made[r]? <;> cases made[q]? <;> simp

/-- Being entered before another is transitive. -/
theorem before_trans {made : Array Block} {r q s : Nat} (h : before made r q = true)
    (h' : before made q s = true) : before made r s = true := by
  obtain ⟨b, d, hb, hd, hlt⟩ := before_eq_true_iff.1 h
  obtain ⟨d', e, hd', he, hlt'⟩ := before_eq_true_iff.1 h'
  rw [hd] at hd'
  cases hd'
  exact before_eq_true_iff.2 ⟨b, e, hb, he, BitVec.lt_trans hlt hlt'⟩

/-- The index of a cache refers to the blocks that the map leads to, each once, in the order of
their entries. -/
structure Agrees (c : Cache) : Prop where
  refs : (c.refs.map Prod.snd).Perm c.index
  ordered : c.index.Pairwise fun r q => before c.made r q = true

/-- A cache with nothing in it agrees. -/
theorem agrees_empty : Agrees .empty :=
  ⟨.refl _, .nil⟩

namespace Agrees

/-- What the index refers to is what the map leads to from the entry of the block. -/
theorem mem_index_iff (h : c.Agrees) {r : Nat} : r ∈ c.index ↔ ∃ entry, (entry, r) ∈ c.refs := by
  rw [← h.refs.mem_iff, List.mem_map]
  simp

/-- A block that is new to the map is in order with those of the index. -/
theorem before_or_before (h : c.Agrees) (hnew : c.find? b.entry = none) {r : Nat}
    (hr : r ∈ c.index) : before (c.made.push b) c.made.size r = true ∨
      before (c.made.push b) r c.made.size = true := by
  obtain ⟨entry, hp⟩ := h.mem_index_iff.1 hr
  obtain ⟨d, hd, hkey⟩ := Option.map_eq_some_iff.1 (c.keyed _ hp)
  have hne : entry ≠ b.entry := find?_eq_none_iff.1 hnew _ hp
  have hold : (c.made.push b)[r]? = some d := by
    rw [getElem?_push_of_lt (lt_of_ref c.keyed hp), hd]
  have hlast : (c.made.push b)[c.made.size]? = some b := by simp
  rw [show entry = d.entry from hkey.symm] at hne
  obtain hle | hle := BitVec.le_total b.entry d.entry
  · exact .inl (before_eq_true_iff.2 ⟨b, d, hlast, hold, BitVec.lt_of_le_ne hle hne.symm⟩)
  · exact .inr (before_eq_true_iff.2 ⟨d, b, hold, hlast, BitVec.lt_of_le_ne hle hne⟩)

/-- **Adding a block at a new entry** keeps map and index in agreement: the one has one pair more,
and the other one reference more, in its place.

**Proof sketch.** The map does not lead from the entry anywhere, so no pair is replaced, and no
block of the index has that entry, so no reference is (`replaceOrInsert_perm`). -/
theorem add (h : c.Agrees) (hnew : c.find? b.entry = none) : (c.add b).Agrees := by
  have hplace : ∀ r ∈ c.index, before (c.made.push b) c.made.size r = true ∨
      before (c.made.push b) r c.made.size = true := fun r hr => h.before_or_before hnew hr
  have hpairs : (c.refs.filter fun p => p.1 != b.entry) = c.refs := by
    rw [List.filter_eq_self]
    simpa using find?_eq_none_iff.1 hnew
  have hordered : c.index.Pairwise fun r q => before (c.made.push b) r q = true := by
    refine h.ordered.imp fun {r q} hbefore => ?_
    obtain ⟨d, e, hd, he, hlt⟩ := before_eq_true_iff.1 hbefore
    refine before_eq_true_iff.2 ⟨d, e, ?_, ?_, hlt⟩
    · rw [getElem?_push_of_lt (Array.getElem?_eq_some_iff.1 hd).1, hd]
    · rw [getElem?_push_of_lt (Array.getElem?_eq_some_iff.1 he).1, he]
  refine ⟨?_, pairwise_replaceOrInsert before_trans hordered hplace⟩
  show ((assign c.refs b.entry c.made.size).map Prod.snd).Perm _
  rw [assign, hpairs, List.map_cons]
  exact (h.refs.cons c.made.size).trans (replaceOrInsert_perm hplace).symm

/-- **Changing a block in its place** keeps map and index in agreement.

**Proof sketch.** The map leads where it did, and the index refers to the same places. What
stands there may have changed, but not its entry (`getElem?_update`), so the order of the index
is the same. -/
theorem update (h : c.Agrees) (entry : Word) (f : Block → Block)
    (hf : ∀ b, (f b).entry = b.entry) : (c.update entry f hf).Agrees := by
  refine ⟨by rw [refs_update, index_update]; exact h.refs, ?_⟩
  rw [index_update]
  refine h.ordered.imp_of_mem fun {r q} hr hq hbefore => ?_
  obtain ⟨b, d, hb, hd, hlt⟩ := before_eq_true_iff.1 hbefore
  obtain ⟨_, hr⟩ := h.mem_index_iff.1 hr
  obtain ⟨_, hq⟩ := h.mem_index_iff.1 hq
  have hentry : ∀ b : Block, (if b.entry = entry then f b else b).entry = b.entry := by
    intro b
    split
    · exact hf b
    · rfl
  have hb' := getElem?_update c entry f hf hr
  have hd' := getElem?_update c entry f hf hq
  rw [hb, Option.map_some] at hb'
  rw [hd, Option.map_some] at hd'
  exact before_eq_true_iff.2 ⟨_, _, hb', hd', by rwa [hentry, hentry]⟩

/-! ## Finding and listing -/

/-- The blocks that are listed are in strictly increasing order of their entries. -/
theorem pairwise_blocks (h : c.Agrees) : c.blocks.Pairwise fun b d => b.entry < d.entry := by
  rw [blocks, List.pairwise_filterMap]
  refine h.ordered.imp fun {r q} hbefore b hb d hd => ?_
  obtain ⟨b', d', hb', hd', hlt⟩ := before_eq_true_iff.1 hbefore
  rw [hb] at hb'
  rw [hd] at hd'
  cases hb'
  cases hd'
  exact hlt

/-- **Finding against listing:** the map finds a block at an entry exactly if the index lists it and
it has that entry. -/
theorem find?_eq_some_iff (h : c.Agrees) :
    c.find? entry = some b ↔ b ∈ c.blocks ∧ b.entry = entry := by
  rw [Cache.find?_eq_some_iff, blocks, List.mem_filterMap]
  constructor
  · rintro ⟨r, hr, hb⟩
    refine ⟨⟨r, h.mem_index_iff.2 ⟨entry, hr⟩, hb⟩, ?_⟩
    exact entry_of_find? (Cache.find?_eq_some_iff.2 ⟨r, hr, hb⟩)
  · rintro ⟨⟨r, hr, hb⟩, rfl⟩
    obtain ⟨entry, hp⟩ := h.mem_index_iff.1 hr
    have hkey := c.keyed _ hp
    rw [hb] at hkey
    cases hkey
    exact ⟨r, hp, hb⟩

/-- Map and index have the same number of blocks. -/
theorem size_eq (h : c.Agrees) : c.size = c.blocks.length := by
  have hall : ∀ r ∈ c.index, (c.made[r]?).isSome = true := by
    intro r hr
    obtain ⟨entry, hp⟩ := h.mem_index_iff.1 hr
    obtain ⟨b, hb, -⟩ := Option.map_eq_some_iff.1 (c.keyed _ hp)
    rw [hb]
    rfl
  have hlength := h.refs.length_eq
  rw [List.length_map] at hlength
  rw [size, hlength, blocks, List.length_filterMap_eq_countP, List.countP_eq_length.2 hall]

/-- A block more is listed after it was added at a new entry. -/
theorem blocks_add (h : c.Agrees) (hnew : c.find? b.entry = none) :
    (c.add b).blocks.Perm (b :: c.blocks) := by
  have hold : ∀ r ∈ c.index, (c.made.push b)[r]? = c.made[r]? := by
    intro r hr
    obtain ⟨entry, hp⟩ := h.mem_index_iff.1 hr
    exact getElem?_push_of_lt (lt_of_ref c.keyed hp) b
  have hplace : (c.add b).index.Perm (c.made.size :: c.index) :=
    replaceOrInsert_perm fun r hr => h.before_or_before hnew hr
  refine (hplace.filterMap fun r => (c.add b).made[r]?).trans (List.Perm.of_eq ?_)
  show List.filterMap (fun r => (c.made.push b)[r]?) (c.made.size :: c.index) = b :: c.blocks
  rw [List.filterMap_cons, show (c.made.push b)[c.made.size]? = some b by simp, blocks,
    List.filterMap_congr hold]

/-- The same blocks are listed after a change, and the one at the entry is changed. -/
theorem blocks_update (h : c.Agrees) (entry : Word) (f : Block → Block)
    (hf : ∀ b, (f b).entry = b.entry) : (c.update entry f hf).blocks =
      c.blocks.map fun b => if b.entry = entry then f b else b := by
  rw [blocks, blocks, index_update, List.map_filterMap]
  refine List.filterMap_congr fun r hr => ?_
  obtain ⟨_, hp⟩ := h.mem_index_iff.1 hr
  exact getElem?_update c entry f hf hp

/-- **The block at an offset** is the one with the greatest entry of those that cover the offset. -/
theorem containing?_eq_some_iff (h : c.Agrees) {offset : Word} :
    c.containing? offset = some b ↔ b ∈ c.blocks ∧ b.covers offset = true ∧
      ∀ d ∈ c.blocks, d.covers offset = true → d.entry ≤ b.entry := by
  have hnear : ∀ {d}, d.covers offset = true →
      (d ∈ c.blocks.filter (fun b => b.entry ≤ offset) ↔ d ∈ c.blocks) := by
    intro d hd
    simp [Block.entry_le_of_covers hd]
  rw [containing?, find?_reverse_eq_some_iff (h.pairwise_blocks.sublist List.filter_sublist)]
  constructor
  · rintro ⟨hb, hcovers, hmax⟩
    exact ⟨(hnear hcovers).1 hb, hcovers, fun d hd hdc => hmax d ((hnear hdc).2 hd) hdc⟩
  · rintro ⟨hb, hcovers, hmax⟩
    exact ⟨(hnear hcovers).2 hb, hcovers, fun d hd hdc => hmax d ((hnear hdc).1 hd) hdc⟩

end Agrees

end Cache

end Dynarec.Engine
