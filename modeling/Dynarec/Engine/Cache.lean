import Dynarec.Engine.Block

/-!
# The cache of compiled blocks

A cached block can be looked for in two ways: by its entry, and in the order of all entries. Two
structures serve the two, a map from entries and an ordered index. Both refer to the blocks and do
not hold them, so that a hit that is counted through the map shows in the index. Each is changed on
its own when a block is added.

That the map refers to blocks with the right entries is part of the type. Whether the index refers
to the same blocks is not: it is a property of caches that were filled by adding blocks.

## Main definitions

* `Dynarec.Engine.Cache` — compiled blocks, with a map and an index of them.
* `Dynarec.Engine.Cache.find?` — the block at an entry, by the map.
* `Dynarec.Engine.Cache.blocks`, `Dynarec.Engine.Cache.containing?` — blocks by the index.
* `Dynarec.Engine.Cache.add` — a block more.
* `Dynarec.Engine.Cache.update` — the block at an entry changed in its place.
-/

set_option autoImplicit false

namespace Dynarec.Engine

/-! ## Ordered lists -/

/-- Puts an item into its place in an ordered list, instead of the item there that is neither before
nor behind it. -/
def replaceOrInsert {α : Type} (before : α → α → Bool) (a : α) : List α → List α
  | [] => [a]
  | c :: rest =>
    if before a c then a :: c :: rest
    else if before c a then c :: replaceOrInsert before a rest
    else a :: rest

/-! ## Caches -/

/-- Compiled blocks, with a map from entries to them and an index of them in the order of their
entries. Both refer to blocks by their positions in the order of compilation. -/
structure Cache where
  /-- The blocks in the order in which they were compiled. -/
  made : Array Block
  /-- The map: entries with the blocks that they lead to. -/
  refs : List (Word × Nat)
  /-- The index: blocks in the order of their entries. -/
  index : List Nat
  /-- The map leads from an entry to one block. -/
  nodup : (refs.map Prod.fst).Nodup
  /-- The map leads from an entry to a block with that entry. -/
  keyed : ∀ p ∈ refs, (made[p.2]?).map Block.entry = some p.1

namespace Cache

/-- The cache with nothing in it, where map and index agree. -/
def empty : Cache where
  made := #[]
  refs := []
  index := []
  nodup := .nil
  keyed := by simp

/-- The block that the map leads to from an entry, by its position in the order of compilation. -/
def ref? (c : Cache) (entry : Word) : Option Nat :=
  (c.refs.find? fun p => p.1 == entry).map Prod.snd

/-- The cached block with an entry, by the map. -/
def find? (c : Cache) (entry : Word) : Option Block :=
  (c.ref? entry).bind fun r => c.made[r]?

/-- The number of cached blocks, by the map. -/
def size (c : Cache) : Nat :=
  c.refs.length

/-- The cached blocks in the order of their entries, by the index. -/
def blocks (c : Cache) : List Block :=
  c.index.filterMap fun r => c.made[r]?

/-- The cached block with the highest entry that covers an offset, by the index: of the blocks that
are not entered behind the offset, the last one that covers it. -/
def containing? (c : Cache) (offset : Word) : Option Block :=
  (c.blocks.filter fun b => b.entry ≤ offset).reverse.find? fun b => b.covers offset

/-- Whether one block is entered before another. The blocks are given by their positions, so the
comparison looks them up. -/
def before (made : Array Block) (r q : Nat) : Bool :=
  match made[r]?, made[q]? with
  | some b, some c => b.entry < c.entry
  | _, _ => false

/-- The map that leads from an entry to a block, and from the others where it did. -/
def assign (refs : List (Word × Nat)) (entry : Word) (r : Nat) : List (Word × Nat) :=
  (entry, r) :: refs.filter fun p => p.1 != entry

/-- Assigning an entry keeps the map a map: what was assigned to the entry before is removed. -/
theorem nodup_assign {refs : List (Word × Nat)} (h : (refs.map Prod.fst).Nodup) (entry : Word)
    (r : Nat) : ((assign refs entry r).map Prod.fst).Nodup := by
  rw [assign, List.map_cons, List.nodup_cons]
  refine ⟨by simp, ?_⟩
  exact h.sublist (List.filter_sublist.map Prod.fst)

/-- What the map refers to has been compiled. -/
theorem lt_of_ref {made : Array Block} {refs : List (Word × Nat)}
    (h : ∀ p ∈ refs, (made[p.2]?).map Block.entry = some p.1) {p : Word × Nat} (hp : p ∈ refs) :
    p.2 < made.size := by
  obtain ⟨b, hb, -⟩ := Option.map_eq_some_iff.1 (h p hp)
  exact (Array.getElem?_eq_some_iff.1 hb).1

/-- Blocks that are there stay where they are when another is compiled. -/
theorem getElem?_push_of_lt {made : Array Block} {r : Nat} (h : r < made.size) (b : Block) :
    (made.push b)[r]? = made[r]? := by
  rw [Array.getElem?_push, if_neg (Nat.ne_of_lt h)]

/-- A block more: it is kept, the map leads to it from its entry, and the index has it in its
place. -/
def add (c : Cache) (b : Block) : Cache where
  made := c.made.push b
  refs := assign c.refs b.entry c.made.size
  index := replaceOrInsert (before (c.made.push b)) c.made.size c.index
  nodup := nodup_assign c.nodup b.entry c.made.size
  keyed := by
    intro p hp
    rw [assign, List.mem_cons, List.mem_filter] at hp
    obtain rfl | ⟨hp, -⟩ := hp
    · simp
    · rw [getElem?_push_of_lt (lt_of_ref c.keyed hp)]
      exact c.keyed p hp

/-- The block at an entry changed in its place, where map and index refer to it. The change leaves
the entry alone. -/
def update (c : Cache) (entry : Word) (f : Block → Block) (hf : ∀ b, (f b).entry = b.entry) :
    Cache :=
  match c.ref? entry with
  | none => c
  | some r =>
    { made := c.made.modify r f
      refs := c.refs
      index := c.index
      nodup := c.nodup
      keyed := by
        intro p hp
        rw [← c.keyed p hp, Array.getElem?_modify]
        split
        · cases c.made[p.2]? with
          | none => rfl
          | some b => exact congrArg some (hf b)
        · rfl }

end Cache

end Dynarec.Engine
