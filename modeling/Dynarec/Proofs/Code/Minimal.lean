import Dynarec.Proofs.Code.Assemble

/-!
# No branch is long without need

Each branch can be chosen to be short or long. A choice is settled if every branch that it leaves
short reaches its target over chunks of the lengths it chooses. Widening starts with all branches
short and makes one long only if it does not reach; as longer chunks bring no target into reach,
such a branch is long in every settled choice. So the choice that widening arrives at is the least
of all, and no other gives shorter code.

## Main definitions

* `Dynarec.Code.Settled` — every short branch reaches its target.
* `Dynarec.Code.codeSize` — the length of code in bytes.
* `Dynarec.Code.Builder.formed` — the chunks of a builder, its branches short or long by choice.
* `Dynarec.Code.Builder.widened` — a choice after one round of widening.
* `Dynarec.Code.Builder.Encoded` — parts of code that are the encodings of items in chosen forms.

## Main results

* `Dynarec.Code.settled_iff` — settled is what widening does not change.
* `Dynarec.Code.Builder.widened_le`, `Dynarec.Code.Builder.exists_relax_formed` — widening stays
  below every settled choice, in one round and in all of them.
* `Dynarec.Code.Builder.assemble_minimal` — the code of a builder takes the least settled choice.
-/

set_option autoImplicit false

namespace Dynarec.Code

/-! ## Settled chunks -/

/-- Every short branch reaches its target. -/
def Settled (chunks : List Chunk) : Prop :=
  ∀ i cond target, chunks[i]? = some (.branch cond target false) →
    fitsInt8 (displacement chunks i target) = true

/-- Chunks are settled if and only if widening does not change them.

**Proof sketch.** A round of widening changes short branches only, and of those the ones that
do not reach. So it changes nothing exactly if every short branch reaches. -/
theorem settled_iff (chunks : List Chunk) : Settled chunks ↔ widen chunks = chunks := by
  constructor
  · intro h
    apply List.ext_getElem?
    intro i
    rw [widen, List.getElem?_mapIdx]
    cases hi : chunks[i]? with
    | none => rfl
    | some c =>
      rw [Option.map_some]
      rcases c with ⟨x, bytes⟩ | ⟨cond, target, _ | _⟩
      · rfl
      · rw [widenAt, h i cond target hi, Bool.not_true]
      · rfl
  · intro h i cond target hi
    exact fitsInt8_of_widen_eq h hi

/-- Whether chunks are settled can be computed: it is that widening changes nothing. -/
instance (chunks : List Chunk) : Decidable (Settled chunks) :=
  decidable_of_iff _ (settled_iff chunks).symm

/-- The length of the code of chunks in bytes. -/
def codeSize (chunks : List Chunk) : Nat :=
  start chunks chunks.length

/-- Code with longer chunks is longer. -/
theorem codeSize_le {chunks longer : List Chunk} (hlen : chunks.length = longer.length)
    (h : ∀ k, sizeAt chunks k ≤ sizeAt longer k) : codeSize chunks ≤ codeSize longer := by
  have hgap := start_add_start_le h (Nat.zero_le chunks.length)
  unfold codeSize
  rw [← hlen]
  simpa [start] using hgap

namespace Builder

variable {b : Builder} {long other : Nat → Bool}

/-! ## Choosing forms -/

/-- The chunk of an item, if a branch then long or short. -/
def chunkIn (b : Builder) (wide : Bool) : Item → Chunk
  | .inst x => .inst x (x.encode.toOption.getD [])
  | .branch cond l => .branch cond ((b.position? l).getD 0) wide

/-- The chunks of the items of a builder, where the branch at position `i` is long if `long i`. -/
def formed (b : Builder) (long : Nat → Bool) : List Chunk :=
  b.items.toList.mapIdx fun i item => b.chunkIn (long i) item

/-- There is one chunk for each item. -/
theorem length_formed (b : Builder) (long : Nat → Bool) : (b.formed long).length = b.length := by
  simp [formed, length]

/-- The chunk at a position is that of the item there. -/
theorem getElem?_formed (b : Builder) (long : Nat → Bool) (i : Nat) :
    (b.formed long)[i]? = (b.items[i]?).map (b.chunkIn (long i)) := by
  simp [formed, List.getElem?_mapIdx]

/-- Where one choice has a branch to a target, so has every other. -/
theorem formed_branch {i target : Nat} {cond : Host.Cond} {wide : Bool}
    (h : (b.formed long)[i]? = some (.branch cond target wide)) (other : Nat → Bool) :
    long i = wide ∧ (b.formed other)[i]? = some (.branch cond target (other i)) := by
  rw [getElem?_formed, Option.map_eq_some_iff] at h
  rcases h with ⟨item, hitem, hchunk⟩
  rw [getElem?_formed, hitem]
  cases item with
  | inst x => cases hchunk
  | branch cond l =>
    cases hchunk
    exact ⟨rfl, rfl⟩

/-- More long branches make no chunk shorter. -/
theorem sizeAt_formed_le (b : Builder) (h : ∀ i, long i = true → other i = true) (k : Nat) :
    sizeAt (b.formed long) k ≤ sizeAt (b.formed other) k := by
  unfold sizeAt
  rw [getElem?_formed, getElem?_formed]
  cases b.items[k]? with
  | none => exact Nat.le_refl 0
  | some item =>
    cases item with
    | inst x => exact Nat.le_refl _
    | branch cond l =>
      have hk := h k
      simp only [Option.map_some, Option.elim_some, chunkIn, Chunk.size, Host.Jump.size]
      split_ifs <;> simp_all

/-! ## Widening a choice -/

/-- The choice after one round of widening: branches that do not reach become long. -/
def widened (b : Builder) (long : Nat → Bool) (i : Nat) : Bool :=
  match (b.formed long)[i]? with
  | some (.branch _ target false) => !fitsInt8 (displacement (b.formed long) i target)
  | _ => long i

/-- A round of widening turns one choice of forms into another.

**Proof sketch.** Compare the chunks position by position. An instruction is left as it is, a
long branch stays long, and a short branch becomes long exactly if it does not reach, which is
how `widened` chooses. -/
theorem widen_formed (b : Builder) (long : Nat → Bool) :
    widen (b.formed long) = b.formed (b.widened long) := by
  apply List.ext_getElem?
  intro i
  rw [widen, List.getElem?_mapIdx]
  cases hi : (b.formed long)[i]? with
  | none =>
    rw [List.getElem?_eq_none_iff, length_formed] at hi
    rw [Option.map_none, eq_comm, List.getElem?_eq_none_iff, length_formed]
    exact hi
  | some c =>
    rw [Option.map_some]
    rcases c with ⟨x, bytes⟩ | ⟨cond, target, wide⟩
    · rw [getElem?_formed, Option.map_eq_some_iff] at hi
      rcases hi with ⟨item, hitem, hchunk⟩
      rw [getElem?_formed, hitem]
      cases item with
      | inst y => rw [← hchunk]; rfl
      | branch cond l => cases hchunk
    · rw [(formed_branch hi (b.widened long)).2, widened, hi]
      cases wide with
      | false => rfl
      | true =>
        dsimp only
        rw [(formed_branch hi long).1]
        rfl

/-- **One round of widening stays below every settled choice.**

**Proof sketch.** A branch that does not reach over shorter chunks does not reach over the longer
ones of a settled choice above, so that choice cannot leave it short. -/
theorem widened_le (hother : Settled (b.formed other)) (h : ∀ i, long i = true → other i = true)
    (i : Nat) (hi : b.widened long i = true) : other i = true := by
  rw [widened] at hi
  split at hi
  · rename_i cond target hbranch
    -- chunks are no shorter in the other choice, so what is out of reach stays out of reach
    have hfar : fitsInt8 (displacement (b.formed other) i target) = false :=
      fitsInt8_displacement_mono (sizeAt_formed_le b h) (by simpa using hi)
    rcases formed_branch hbranch other with ⟨-, hform⟩
    by_contra hshort
    rw [Bool.not_eq_true] at hshort
    rw [hshort] at hform
    rw [hother i cond target hform] at hfar
    cases hfar
  · exact h i hi

/-- **All rounds of widening** make a choice below every settled choice above the first. -/
theorem exists_relax_formed (b : Builder) (rounds : Nat) (long : Nat → Bool) :
    ∃ final, relax rounds (b.formed long) = b.formed final ∧
      ∀ other, Settled (b.formed other) → (∀ i, long i = true → other i = true) →
        ∀ i, final i = true → other i = true := by
  induction rounds generalizing long with
  | zero => exact ⟨long, rfl, fun other _ h => h⟩
  | succ rounds ih =>
    rw [relax]
    split
    · exact ⟨long, rfl, fun other _ h => h⟩
    · rw [widen_formed]
      rcases ih (b.widened long) with ⟨final, hfinal, hleast⟩
      refine ⟨final, hfinal, ?_⟩
      intro other hother h
      exact hleast other hother (widened_le hother h)

/-! ## The code of a builder -/

/-- At the start no branch is long. -/
theorem formed_short (b : Builder) :
    b.items.toList.map (b.chunkIn false) = b.formed fun _ => false := by
  apply List.ext_getElem?
  intro i
  rw [getElem?_formed, List.getElem?_map, Array.getElem?_toList]

/-- An item that a builder resolves becomes its chunk, short if it is a branch. -/
theorem resolve_eq_ok {item : Item} {i : Nat} {chunk : Chunk} (h : b.resolve i item = .ok chunk) :
    chunk = b.chunkIn false item ∧ ∀ x, item = .inst x → ∃ bytes, x.encode = .ok bytes := by
  cases item with
  | inst x =>
    rw [resolve] at h
    split at h
    · rename_i bytes hbytes
      cases h
      refine ⟨by simp [chunkIn, hbytes, Except.toOption], ?_⟩
      rintro _ ⟨⟩
      exact ⟨bytes, hbytes⟩
    · cases h
  | branch cond l =>
    rw [resolve] at h
    split at h
    · rename_i target htarget
      cases h
      refine ⟨by simp [chunkIn, htarget], ?_⟩
      rintro x ⟨⟩
    · cases h

/-- Items that a builder resolves become their chunks, with every branch short.

**Proof sketch.** By induction on the items: all of them resolve, and each becomes its chunk
(`resolve_eq_ok`). -/
theorem resolveFrom_eq_ok {its : List Item} {i : Nat} {chunks : List Chunk}
    (h : b.resolveFrom i its = .ok chunks) :
    chunks = its.map (b.chunkIn false) ∧ ∀ x, .inst x ∈ its → ∃ bytes, x.encode = .ok bytes := by
  induction its generalizing i chunks with
  | nil =>
    cases h
    exact ⟨rfl, by simp⟩
  | cons item its ih =>
    simp only [resolveFrom, bind_eq_ok_iff] at h
    rcases h with ⟨chunk, hitem, more, hmore, hchunks⟩
    cases hchunks
    rcases resolve_eq_ok hitem with ⟨rfl, hencodes⟩
    rcases ih hmore with ⟨rfl, hrest⟩
    refine ⟨rfl, ?_⟩
    intro x hx
    rcases List.mem_cons.1 hx with hx | hx
    · exact hencodes x hx.symm
    · exact hrest x hx

/-- Parts of code that are the encodings of the items of a builder, one for each, where the branch
at position `i` is a long jump if `long i` and a short one otherwise. -/
structure Encoded (b : Builder) (long : Nat → Bool) (parts : List (List Byte)) : Prop where
  length : parts.length = b.length
  inst : ∀ (i : Nat) (x : Host.Inst), b.items[i]? = some (.inst x) →
    ∃ part, parts[i]? = some part ∧ x.encode = .ok part
  branch : ∀ (i : Nat) (cond : Host.Cond) (l : Nat), b.items[i]? = some (.branch cond l) →
    ∃ part, ∃ jump : Host.Jump, parts[i]? = some part ∧ jump.encode = .ok part ∧ jump.cond = cond ∧
      jump.wide = long i

/-- The bytes of chosen forms are the encodings of the items in these forms.

**Proof sketch.** The code is made of parts that are as long as their chunks
(`parts_of_bytesFrom`, `length_chunkBytes`), which gives its length. An instruction has its
encoding as its part, and the part of a branch is the jump of its chunk. -/
theorem encoded_of_bytesFrom {bytes : List Byte}
    (hencodes : ∀ x, .inst x ∈ b.items.toList → ∃ bytes, x.encode = .ok bytes)
    (h : bytesFrom (b.formed long) 0 (b.formed long) = .ok bytes) :
    bytes.length = codeSize (b.formed long) ∧
      ∃ parts, bytes = parts.flatten ∧ b.Encoded long parts := by
  rcases parts_of_bytesFrom h with ⟨parts, rfl, hlen, hparts⟩
  simp only [Nat.zero_add] at hparts
  constructor
  · have hstarts := length_flatten_take hlen (fun k c hc => by
      rcases hparts k c hc with ⟨part, hpart, hbytes⟩
      exact ⟨part, hpart, length_chunkBytes hbytes⟩) parts.length
    rw [List.take_length, hlen] at hstarts
    exact hstarts
  · refine ⟨parts, rfl, hlen.trans (b.length_formed long), ?_, ?_⟩
    · intro i x hi
      have hmem : .inst x ∈ b.items.toList := by
        simpa using Array.mem_of_getElem? hi
      rcases hencodes x hmem with ⟨bytes, hbytes⟩
      have hchunk : (b.formed long)[i]? = some (.inst x bytes) := by
        rw [getElem?_formed, hi]
        simp [chunkIn, hbytes, Except.toOption]
      rcases hparts i _ hchunk with ⟨part, hpart, hpartBytes⟩
      cases hpartBytes
      exact ⟨bytes, hpart, hbytes⟩
    · intro i cond l hi
      have hchunk : (b.formed long)[i]? =
          some (.branch cond ((b.position? l).getD 0) (long i)) := by
        rw [getElem?_formed, hi]
        rfl
      rcases hparts i _ hchunk with ⟨part, hpart, hpartBytes⟩
      exact ⟨part, _, hpart, (chunkBytes_branch_ok hpartBytes).2, rfl, rfl⟩

/-- **The code of a builder takes the least settled choice.** Whenever a builder gives code, there
is a choice of long branches for which the code is made of the encodings of the items, each branch
in the form chosen. The choice is settled, and every settled choice has all of these long branches;
so no settled choice gives shorter code.

**Proof sketch.** Widening starts with no long branch, which is below every choice. It stays below
every settled one (`exists_relax_formed`) and stops at a settled one itself (`widen_relax`). -/
theorem assemble_minimal (b : Builder) (code : Assembled) (h : b.assemble = .ok code) :
    ∃ long parts, code.bytes = parts.flatten ∧ b.Encoded long parts ∧ Settled (b.formed long) ∧
      ∀ other, Settled (b.formed other) →
        (∀ i, long i = true → other i = true) ∧ code.bytes.length ≤ codeSize (b.formed other) := by
  have hresolved : ∃ chunks, b.resolveFrom 0 b.items.toList = .ok chunks ∧
      Code.assemble chunks = .ok code := by
    unfold Builder.assemble at h
    split at h
    · cases h
    · exact bind_eq_ok_iff.1 h
  rcases hresolved with ⟨chunks, hchunks, hcode⟩
  rcases resolveFrom_eq_ok hchunks with ⟨rfl, hencodes⟩
  rw [formed_short, Code.assemble, bind_eq_ok_iff] at hcode
  rcases hcode with ⟨bytes, hbytes, hcode⟩
  cases hcode
  have hfixed := widen_relax (b.formed fun _ => false).length (b.formed fun _ => false)
    List.countP_le_length
  rcases exists_relax_formed b (b.formed fun _ => false).length (fun _ => false) with
    ⟨long, hlong, hleast⟩
  rw [hlong] at hbytes hfixed
  rcases encoded_of_bytesFrom hencodes hbytes with ⟨hsize, parts, hparts, hencoded⟩
  refine ⟨long, parts, hparts, hencoded, (settled_iff _).2 hfixed, ?_⟩
  intro other hother
  have hle : ∀ i, long i = true → other i = true :=
    hleast other hother fun i hi => absurd hi Bool.false_ne_true
  refine ⟨hle, ?_⟩
  rw [hsize]
  exact codeSize_le (by rw [length_formed, length_formed]) (sizeAt_formed_le b hle)

/-- A jump over thirteen long moves and a jump to the next item. Not all can be short, and the code
is no longer than with the first one long. -/
theorem assemble_minimal_two_jumps :
    let moves : Array Item := Array.replicate 13 (.inst (.movAbs .rax 0))
    let b : Builder :=
      { items := #[.branch .always 0] ++ moves ++ #[.branch .always 0], labels := #[some 15] }
    ∃ code, b.assemble = .ok code ∧ ¬ Settled (b.formed fun _ => false) ∧
      Settled (b.formed (· == 0)) ∧ code.bytes.length ≤ codeSize (b.formed (· == 0)) := by
  intro moves b
  have hok : b.assemble.isOk = true := by decide +kernel
  have hshort : ¬ Settled (b.formed fun _ => false) := by decide +kernel
  have hsettled : Settled (b.formed (· == 0)) := by decide +kernel
  cases hcode : b.assemble with
  | error f =>
    rw [hcode] at hok
    cases hok
  | ok code =>
    rcases assemble_minimal b code hcode with ⟨long, parts, -, -, -, hleast⟩
    exact ⟨code, rfl, hshort, hsettled, (hleast _ hsettled).2⟩

end Builder

end Dynarec.Code
