import Dynarec.Proofs.Code.Calls
import Dynarec.Proofs.Code.Widening

/-!
# Assembling what was called for

The code that a builder gives after any calls: when there is any, and what its bytes are. Every item
contributes one part. A branch takes the short form exactly if its distance fits it, and the
distance it holds is the one between the bytes it ends at and the bytes that its label stands for.

## Main definitions

* `Dynarec.Code.Builder.layout` — the chunks of calls, widened until nothing changes.
* `Dynarec.Code.Builder.Assembles` — what calls need to be assembled.
* `Dynarec.Code.Builder.Written` — parts of code that are the encodings of the items of calls.

## Main results

* `Dynarec.Code.bytesFrom_error_of_widen_eq` — where widening has stopped, code is missing only for
  branches out of all reach.
* `Dynarec.Code.Builder.assemble_calls` — when calls assemble, and to which bytes.
-/

set_option autoImplicit false

namespace Dynarec

/-- The displacement of a jump is no concern of other instructions. -/
theorem Host.Inst.encode_ne_displacement (i : Inst) (rel : Int) :
    i.encode ≠ .error (.displacement rel) := by
  cases i <;> simp only [encode] <;> repeat' split
  all_goals simp

namespace Code

/-! ## Steps that may fail -/

section Except

variable {ε α β : Type} {x : Except ε α} {f : α → Except ε β}

/-- Two steps one after the other give a value if the first does and the second does with what
the first gave. -/
theorem bind_eq_ok_iff {b : β} : x >>= f = .ok b ↔ ∃ a, x = .ok a ∧ f a = .ok b := by
  cases x <;> simp [bind, Except.bind]

/-- Two steps one after the other fail if the first does, or the second does with what the first
gave. -/
theorem bind_eq_error_iff {e : ε} :
    x >>= f = .error e ↔ x = .error e ∨ ∃ a, x = .ok a ∧ f a = .error e := by
  cases x <;> simp [bind, Except.bind]

end Except

/-! ## Parts of code -/

/-- **The code of chunks is made of parts**, one for each, in order.

**Proof sketch.** By induction on the chunks that are left; the index of a chunk, which its
displacement is counted from, goes up by one at every step. -/
theorem parts_of_bytesFrom {chunks rest : List Chunk} {i : Nat} {bytes : List Byte}
    (h : bytesFrom chunks i rest = .ok bytes) :
    ∃ parts : List (List Byte), bytes = parts.flatten ∧ parts.length = rest.length ∧
      ∀ k c, rest[k]? = some c →
        ∃ part, parts[k]? = some part ∧ chunkBytes chunks (i + k) c = .ok part := by
  induction rest generalizing i bytes with
  | nil =>
    cases h
    exact ⟨[], rfl, rfl, by simp⟩
  | cons c rest ih =>
    simp only [bytesFrom, bind_eq_ok_iff] at h
    obtain ⟨part, hc, more, hmore, hbytes⟩ := h
    cases hbytes
    obtain ⟨parts, rfl, hlen, hparts⟩ := ih hmore
    refine ⟨part :: parts, rfl, by simp [hlen], fun k d hd => ?_⟩
    cases k with
    | zero =>
      cases hd
      exact ⟨part, rfl, hc⟩
    | succ k =>
      obtain ⟨part', hpart', hbytes⟩ := hparts k d hd
      rw [show i + 1 + k = i + (k + 1) by omega] at hbytes
      exact ⟨part', hpart', hbytes⟩

/-- Code is missing because the bytes of some chunk are. -/
theorem exists_of_bytesFrom_error {chunks rest : List Chunk} {i : Nat} {f : Failure}
    (h : bytesFrom chunks i rest = .error f) :
    ∃ k c, rest[k]? = some c ∧ chunkBytes chunks (i + k) c = .error f := by
  induction rest generalizing i with
  | nil => cases h
  | cons c rest ih =>
    simp only [bytesFrom, bind_eq_error_iff] at h
    obtain hc | ⟨part, hc, hmore | ⟨more, hmore, hbytes⟩⟩ := h
    · exact ⟨0, c, rfl, hc⟩
    · obtain ⟨k, d, hd, hbytes⟩ := ih hmore
      rw [show i + 1 + k = i + (k + 1) by omega] at hbytes
      exact ⟨k + 1, d, hd, hbytes⟩
    · cases hbytes

/-- The bytes of a chunk are as many as its size says, for a branch in either form. -/
theorem length_chunkBytes {chunks : List Chunk} {i : Nat} {c : Chunk} {part : List Byte}
    (h : chunkBytes chunks i c = .ok part) : part.length = c.size := by
  cases c with
  | inst x bytes =>
    cases h
    rfl
  | branch cond target wide =>
    rw [chunkBytes] at h
    split at h
    · cases h
    · split at h
      · rename_i hbytes
        cases h
        exact Host.Jump.length_encode hbytes
      · cases h

/-- Parts that are as long as chunks start where they do.

**Proof sketch.** By induction on the position: one more part adds its own length, and one
more chunk its size. Behind the last chunk there is no part either. -/
theorem length_flatten_take {chunks : List Chunk} {parts : List (List Byte)}
    (hlen : parts.length = chunks.length)
    (h : ∀ (k : Nat) (c : Chunk), chunks[k]? = some c → ∃ part : List Byte, parts[k]? = some part ∧
      part.length = c.size) (k : Nat) : (parts.take k).flatten.length = start chunks k := by
  induction k with
  | zero => simp [start]
  | succ k ih =>
    rw [start_succ, List.take_add_one, List.flatten_append, List.length_append, ih, sizeAt]
    cases hc : chunks[k]? with
    | none =>
      have hk : parts[k]? = none := by
        rw [List.getElem?_eq_none_iff] at hc ⊢
        omega
      simp [hk]
    | some c =>
      obtain ⟨part, hpart, hsize⟩ := h k c hc
      simp [hpart, hsize]

/-- The jump of a branch at position `i`, in the long form or in the short one. -/
def jumpOf (chunks : List Chunk) (i target : Nat) (cond : Host.Cond) (wide : Bool) : Host.Jump where
  cond := cond
  rel := BitVec.ofInt 32 (displacement chunks i target)
  wide := wide

section Branches

variable {chunks : List Chunk} {i target : Nat} {cond : Host.Cond} {wide : Bool}

/-- The bytes of a branch are those of its jump, over a distance that fits the long form. -/
theorem chunkBytes_branch_ok {part : List Byte}
    (h : chunkBytes chunks i (.branch cond target wide) = .ok part) :
    fitsInt32 (displacement chunks i target) = true ∧
      (jumpOf chunks i target cond wide).encode = .ok part := by
  rw [chunkBytes] at h
  split at h
  · cases h
  · rename_i hfits
    split at h
    · rename_i hbytes
      cases h
      exact ⟨by simpa using hfits, hbytes⟩
    · cases h

/-- A branch that is short only if its distance fits has no bytes only if the distance does not fit
the long form. -/
theorem chunkBytes_branch_error {f : Failure}
    (hshort : wide = false → fitsInt8 (displacement chunks i target) = true)
    (h : chunkBytes chunks i (.branch cond target wide) = .error f) :
    fitsInt32 (displacement chunks i target) = false ∧
      f = .of .encoding (.branchRange (displacement chunks i target)) := by
  obtain ⟨bytes, hbytes⟩ := Host.Jump.encode_ok cond hshort
  rw [chunkBytes] at h
  split at h
  · rename_i hfar
    cases h
    exact ⟨by simpa using hfar, rfl⟩
  · simp only [hbytes] at h
    cases h

end Branches

/-- Every branch lies near enough to its target for the long form. -/
def Near (chunks : List Chunk) : Prop :=
  ∀ i cond target wide, chunks[i]? = some (.branch cond target wide) →
    fitsInt32 (displacement chunks i target) = true

/-- **Where widening has stopped, code is missing only for branches out of all reach.**

**Proof sketch.** Some chunk has no bytes (`exists_of_bytesFrom_error`), and it must be a
branch. A short branch that is left short where widening has stopped reaches its target, so what
failed is the check that every displacement goes through, for the long form. -/
theorem bytesFrom_error_of_widen_eq {chunks : List Chunk} (hfixed : widen chunks = chunks)
    {f : Failure} (h : bytesFrom chunks 0 chunks = .error f) :
    ¬ Near chunks ∧ ∃ distance, f = .of .encoding (.branchRange distance) := by
  obtain ⟨i, c, hc, hbytes⟩ := exists_of_bytesFrom_error h
  rw [Nat.zero_add] at hbytes
  cases c with
  | inst x bytes => cases hbytes
  | branch cond target wide =>
    have hshort : wide = false → fitsInt8 (displacement chunks i target) = true := by
      rintro rfl
      exact fitsInt8_of_widen_eq hfixed hc
    obtain ⟨hfar, rfl⟩ := chunkBytes_branch_error hshort hbytes
    refine ⟨fun hnear => ?_, _, rfl⟩
    rw [hnear i cond target wide hc] at hfar
    cases hfar

/-- Where there is code, no displacement is out of the reach of the long form. -/
theorem near_of_bytesFrom {chunks : List Chunk} {bytes : List Byte}
    (h : bytesFrom chunks 0 chunks = .ok bytes) : Near chunks := by
  obtain ⟨parts, -, -, hparts⟩ := parts_of_bytesFrom h
  intro i cond target wide hi
  obtain ⟨part, -, hbytes⟩ := hparts i _ hi
  rw [Nat.zero_add] at hbytes
  exact (chunkBytes_branch_ok hbytes).1

/-! ## Chunks of calls -/

namespace Builder

/-- The chunk of an item, its branch still short. -/
def chunkOf (cs : List Call) : Item → Chunk
  | .inst i => .inst i (i.encode.toOption.getD [])
  | .branch cond l => .branch cond (landing cs l) false

/-- The chunks of the items that calls add, all branches still short. -/
def chunksOf (cs : List Call) : List Chunk :=
  (added cs).map (chunkOf cs)

/-- The chunks of the items that calls add, widened until nothing changes. -/
def layout (cs : List Call) : List Chunk :=
  relax (added cs).length (chunksOf cs)

/-- An item can be resolved behind calls: its instruction has an encoding, or its label is bound. -/
def Resolvable (cs : List Call) : Item → Prop
  | .inst i => ∃ bytes, i.encode = .ok bytes
  | .branch _ l => l ∈ bound cs

variable {cs : List Call} {b : Builder}

/-- An item that can be resolved becomes its chunk, wherever it stands. -/
theorem Tracks.resolve (h : Tracks cs b) {item : Item} (hitem : Resolvable cs item) (i : Nat) :
    b.resolve i item = .ok (chunkOf cs item) := by
  cases item with
  | inst x =>
    obtain ⟨bytes, hbytes⟩ := hitem
    simp [Builder.resolve, chunkOf, hbytes, Except.toOption]
  | branch cond l =>
    have hl : l ∈ bound cs := hitem
    simp [Builder.resolve, chunkOf, h.position, hl]

/-- What is resolved could be resolved: the instruction had an encoding, or the label was bound. -/
theorem Tracks.resolvable_of_resolve (h : Tracks cs b) {item : Item} {i : Nat} {chunk : Chunk}
    (hitem : b.resolve i item = .ok chunk) : Resolvable cs item := by
  cases item with
  | inst x =>
    rw [Builder.resolve] at hitem
    split at hitem
    · exact ⟨_, ‹_›⟩
    · cases hitem
  | branch cond l =>
    rw [Builder.resolve, h.position] at hitem
    show l ∈ bound cs
    by_contra hl
    rw [if_neg hl] at hitem
    cases hitem

/-- An item that cannot be resolved fails for a reason other than the reach of a short jump.

**Proof sketch.** An instruction fails for its width, size, immediate, shift amount or
condition, none of which is the displacement of a jump (`Host.Inst.encode_ne_displacement`). A
branch fails because its label is unbound. -/
theorem Tracks.resolve_error (h : Tracks cs b) {item : Item} {i : Nat} {f : Failure}
    (hf : b.resolve i item = .error f) :
    ¬ Resolvable cs item ∧ ∀ rel, Link.plain (.encode (.displacement rel)) ∉ f.links := by
  refine ⟨fun hitem => ?_, fun rel => ?_⟩
  · rw [h.resolve hitem] at hf
    cases hf
  cases item with
  | inst x =>
    rw [Builder.resolve] at hf
    split at hf
    · cases hf
    · rename_i e he
      cases hf
      have hne : e ≠ .displacement rel := by
        rintro rfl
        exact x.encode_ne_displacement rel he
      simp [Failure.links, Failure.wrap, Failure.plain, Ne.symm hne]
  | branch cond l =>
    rw [Builder.resolve] at hf
    split at hf
    · cases hf
    · cases hf
      simp [Failure.links, Failure.of]

/-- Items that can be resolved become their chunks. -/
theorem Tracks.resolveFrom (h : Tracks cs b) {its : List Item}
    (hits : ∀ item ∈ its, Resolvable cs item) (i : Nat) :
    b.resolveFrom i its = .ok (its.map (chunkOf cs)) := by
  induction its generalizing i with
  | nil => rfl
  | cons item its ih =>
    rw [List.forall_mem_cons] at hits
    rw [Builder.resolveFrom, h.resolve hits.1, ih hits.2]
    rfl

/-- If all items are resolved, each of them could be. -/
theorem Tracks.resolvable_of_resolveFrom (h : Tracks cs b) {its : List Item} {i : Nat}
    {chunks : List Chunk} (hits : b.resolveFrom i its = .ok chunks) :
    ∀ item ∈ its, Resolvable cs item := by
  induction its generalizing i chunks with
  | nil => simp
  | cons item its ih =>
    simp only [Builder.resolveFrom, bind_eq_ok_iff] at hits
    obtain ⟨chunk, hitem, more, hmore, -⟩ := hits
    exact List.forall_mem_cons.2 ⟨h.resolvable_of_resolve hitem, ih hmore⟩

/-- Resolving fails because of an item that cannot be resolved. -/
theorem exists_of_resolveFrom_error {its : List Item} {i : Nat} {f : Failure}
    (h : b.resolveFrom i its = .error f) : ∃ k, ∃ item ∈ its, b.resolve k item = .error f := by
  induction its generalizing i with
  | nil => cases h
  | cons item its ih =>
    simp only [Builder.resolveFrom, bind_eq_error_iff] at h
    obtain hc | ⟨chunk, -, hmore | ⟨more, -, hchunks⟩⟩ := h
    · exact ⟨i, item, by simp, hc⟩
    · obtain ⟨k, item', hmem, hf⟩ := ih hmore
      exact ⟨k, item', by simp [hmem], hf⟩
    · cases hchunks

/-! ## Where widening stops -/

/-- At the start no branch is long, so none is long without need. -/
theorem chunksOf_needed (cs : List Call) : Needed (chunksOf cs) := by
  intro i cond target hi
  rw [chunksOf, List.getElem?_map, Option.map_eq_some_iff] at hi
  obtain ⟨item, -, hchunk⟩ := hi
  cases item <;> cases hchunk

/-- **Widening stops** after as many rounds as there are items.

**Proof sketch.** A round that changes anything makes at least one more branch long, and there
are no more branches than items. -/
theorem widen_layout (cs : List Call) : widen (layout cs) = layout cs := by
  refine widen_relax _ _ (List.countP_le_length.trans ?_)
  rw [chunksOf, List.length_map]

/-- In the layout a branch is long only if its distance asks for it: every round keeps that,
since distances only grow. -/
theorem layout_needed (cs : List Call) : Needed (layout cs) :=
  (chunksOf_needed cs).relax _

/-- The chunk of an instruction that has an encoding. -/
theorem layout_inst {i : Nat} {x : Host.Inst} {bytes : List Byte}
    (hi : (added cs)[i]? = some (.inst x)) (hbytes : x.encode = .ok bytes) :
    (layout cs)[i]? = some (.inst x bytes) := by
  have hchunk : (chunksOf cs)[i]? = some (.inst x bytes) := by
    rw [chunksOf, List.getElem?_map, hi]
    simp [chunkOf, hbytes, Except.toOption]
  obtain ⟨d, hd, rfl⟩ := getElem?_relax (p := (· = .inst x bytes))
    (by rintro _ _ _ rfl; rfl) hchunk rfl (added cs).length
  exact hd

/-- The chunk of a branch: long exactly if its distance does not fit the short form.

**Proof sketch.** Widening keeps the condition and the target of a branch, in any number of
rounds (`getElem?_relax`). Whether it is long is then decided where widening has stopped
(`Needed.wide_eq`). -/
theorem layout_branch {i l : Nat} {cond : Host.Cond} (hi : (added cs)[i]? = some (.branch cond l)) :
    (layout cs)[i]? = some (.branch cond (landing cs l)
      (!fitsInt8 (displacement (layout cs) i (landing cs l)))) := by
  have hchunk : (chunksOf cs)[i]? = some (.branch cond (landing cs l) false) := by
    rw [chunksOf, List.getElem?_map, hi]
    rfl
  have hkeeps : ∀ chunks i c, (∃ wide, c = .branch cond (landing cs l) wide) →
      ∃ wide, widenAt chunks i c = .branch cond (landing cs l) wide := by
    rintro chunks i _ ⟨wide, rfl⟩
    cases wide with
    | true => exact ⟨true, rfl⟩
    | false => exact ⟨_, rfl⟩
  obtain ⟨_, hd, wide, rfl⟩ := getElem?_relax hkeeps hchunk ⟨false, rfl⟩ (added cs).length
  rw [← (layout_needed cs).wide_eq (widen_layout cs) hd]
  exact hd

/-! ## When calls assemble, and to what -/

/-- What calls need to be assembled: none is a misuse, every branch goes to a label that is bound,
every instruction has an encoding, and no branch is out of all reach where widening stops. -/
structure Assembles (cs : List Call) : Prop where
  allowed : AllAllowed cs
  bound : ∀ cond l, .branch cond l ∈ added cs → l ∈ bound cs
  encodes : ∀ i, .inst i ∈ added cs → ∃ bytes, i.encode = .ok bytes
  near : Near (layout cs)

/-- The offset at which a part starts, or the length of the code past the last one. -/
def offset (parts : List (List Byte)) (k : Nat) : Nat :=
  (parts.take k).flatten.length

/-- The distance from the end of the branch at position `i` to the bytes that a label stands for. -/
def distance (cs : List Call) (parts : List (List Byte)) (i l : Nat) : Int :=
  (offset parts (landing cs l) : Int) - offset parts (i + 1)

/-- Parts of code that are the encodings of the items of calls, one for each: of an instruction its
own encoding, and of a branch the jump over the distance to its label, in two bytes if the distance
fits a signed byte and in five or six otherwise. -/
structure Written (cs : List Call) (parts : List (List Byte)) : Prop where
  length : parts.length = (added cs).length
  inst : ∀ (i : Nat) (x : Host.Inst), (added cs)[i]? = some (.inst x) →
    ∃ part, parts[i]? = some part ∧ x.encode = .ok part
  branch : ∀ (i : Nat) (cond : Host.Cond) (l : Nat), (added cs)[i]? = some (.branch cond l) →
    ∃ part, ∃ jump : Host.Jump, parts[i]? = some part ∧ jump.encode = .ok part ∧ jump.cond = cond ∧
      jump.rel.toInt = distance cs parts i l ∧ jump.wide = !fitsInt8 (distance cs parts i l) ∧
      part.length = if fitsInt8 (distance cs parts i l) then 2 else if cond = .always then 5 else 6

/-- A displacement that fits into four bytes is spelled by them. -/
theorem toInt_rel_of_fitsInt32 {d : Int} (h : fitsInt32 d = true) :
    (BitVec.ofInt 32 d).toInt = d := by
  simp only [fitsInt32, decide_eq_true_eq] at h
  rw [BitVec.toInt_ofInt]
  exact Int.bmod_eq_of_le (by omega) (by omega)

/-- The bytes of a layout are what the items of its calls are written as.

**Proof sketch.** The code is made of parts that are as long as the chunks say, so every part
starts where its chunk does and the distance between two parts is the displacement between two
chunks. With that the part of a branch is read off its chunk (`layout_branch`). -/
theorem written_of_bytesFrom {bytes : List Byte} (hencodes : ∀ item ∈ added cs, Resolvable cs item)
    (h : bytesFrom (layout cs) 0 (layout cs) = .ok bytes) :
    ∃ parts, bytes = parts.flatten ∧ Written cs parts := by
  obtain ⟨parts, rfl, hlen, hparts⟩ := parts_of_bytesFrom h
  simp only [Nat.zero_add] at hparts
  have hoffset : ∀ k, offset parts k = start (layout cs) k :=
    length_flatten_take hlen fun k c hc => by
      obtain ⟨part, hpart, hbytes⟩ := hparts k c hc
      exact ⟨part, hpart, length_chunkBytes hbytes⟩
  have hdistance : ∀ i l, distance cs parts i l = displacement (layout cs) i (landing cs l) :=
    fun i l => by rw [distance, hoffset, hoffset, displacement]
  refine ⟨parts, rfl, ?_, fun i x hi => ?_, fun i cond l hi => ?_⟩
  · rw [hlen, layout, length_relax, chunksOf, List.length_map]
  · obtain ⟨bytes, hbytes⟩ : ∃ bytes, x.encode = .ok bytes :=
      hencodes (.inst x) (List.mem_of_getElem? hi)
    obtain ⟨part, hpart, hchunk⟩ := hparts i _ (layout_inst hi hbytes)
    cases hchunk
    exact ⟨bytes, hpart, hbytes⟩
  · obtain ⟨part, hpart, hchunk⟩ := hparts i _ (layout_branch hi)
    obtain ⟨hfits, hjump⟩ := chunkBytes_branch_ok hchunk
    refine ⟨part, _, hpart, hjump, rfl, ?_, ?_, ?_⟩
    · rw [hdistance]
      exact toInt_rel_of_fitsInt32 hfits
    · rw [hdistance]
      rfl
    · rw [Host.Jump.length_encode hjump, hdistance, Host.Jump.size]
      cases fitsInt8 (displacement (layout cs) i (landing cs l)) <;> simp [jumpOf]

/-- Assembling resolves the items, then writes down their layout. -/
theorem Tracks.assemble_eq (h : Tracks cs b) :
    b.assemble = b.resolveFrom 0 (added cs) >>= Code.assemble := by
  unfold Builder.assemble
  rw [h.failure, h.items]

/-- Assembling a builder whose items can be resolved is writing down its layout. -/
theorem Tracks.assemble_of_resolvable (h : Tracks cs b)
    (hits : ∀ item ∈ added cs, Resolvable cs item) :
    b.assemble = (bytesFrom (layout cs) 0 (layout cs)).map fun bytes =>
      { chunks := layout cs, bytes := bytes } := by
  have hlen : (chunksOf cs).length = (added cs).length := by rw [chunksOf, List.length_map]
  rw [h.assemble_eq, h.resolveFrom hits]
  show Code.assemble (chunksOf cs) = _
  rw [Code.assemble, hlen]
  show (bytesFrom (layout cs) 0 (layout cs) >>= _) = _
  cases bytesFrom (layout cs) 0 (layout cs) <;> rfl

/-- A builder that holds what calls put into it assembles to their layout if every item can be
resolved and no branch is out of all reach.

**Proof sketch.** That there is code means that all items were resolved, hence that each of
them could be; resolved, they are the chunks of the calls, and laid out they are their layout. -/
theorem Tracks.assemble_ok (h : Tracks cs b) {code : Assembled} (hcode : b.assemble = .ok code) :
    (∀ item ∈ added cs, Resolvable cs item) ∧
      bytesFrom (layout cs) 0 (layout cs) = .ok code.bytes := by
  have hits : ∀ item ∈ added cs, Resolvable cs item := by
    rw [h.assemble_eq, bind_eq_ok_iff] at hcode
    obtain ⟨chunks, hchunks, -⟩ := hcode
    exact h.resolvable_of_resolveFrom hchunks
  refine ⟨hits, ?_⟩
  rw [h.assemble_of_resolvable hits] at hcode
  cases hbytes : bytesFrom (layout cs) 0 (layout cs) with
  | ok bytes =>
    rw [hbytes] at hcode
    cases hcode
    rfl
  | error f =>
    rw [hbytes] at hcode
    cases hcode

/-- Otherwise it fails because of an item that cannot be resolved, or a branch out of all reach.

**Proof sketch.** Either an item was not resolved, and then it could not be; or the layout
has no bytes, and then a displacement is out of the reach of the long form
(`bytesFrom_error_of_widen_eq`). In neither case is the error that of a short jump. -/
theorem Tracks.assemble_error (h : Tracks cs b) {f : Failure} (hf : b.assemble = .error f) :
    ¬ ((∀ item ∈ added cs, Resolvable cs item) ∧ Near (layout cs)) ∧
      ∀ rel, Link.plain (.encode (.displacement rel)) ∉ f.links := by
  cases hchunks : b.resolveFrom 0 (added cs) with
  | error g =>
    rw [h.assemble_eq, hchunks] at hf
    cases hf
    obtain ⟨k, item, hmem, hitem⟩ := exists_of_resolveFrom_error hchunks
    obtain ⟨hopen, hlinks⟩ := h.resolve_error hitem
    exact ⟨fun hall => hopen (hall.1 item hmem), hlinks⟩
  | ok chunks =>
    rw [h.assemble_of_resolvable (h.resolvable_of_resolveFrom hchunks)] at hf
    cases hbytes : bytesFrom (layout cs) 0 (layout cs) with
    | ok bytes =>
      rw [hbytes] at hf
      cases hf
    | error g =>
      rw [hbytes] at hf
      cases hf
      obtain ⟨hfar, d, rfl⟩ := bytesFrom_error_of_widen_eq (widen_layout cs) hbytes
      exact ⟨fun hall => hfar hall.2, fun rel => by simp [Failure.links, Failure.of]⟩

/-- What calls need to be assembled, item by item: an instruction needs an encoding, and a branch
a label that is bound. -/
theorem assembles_iff : Assembles cs ↔
    AllAllowed cs ∧ (∀ item ∈ added cs, Resolvable cs item) ∧ Near (layout cs) := by
  constructor
  · rintro ⟨hallowed, hbound, hencodes, hnear⟩
    refine ⟨hallowed, fun item hitem => ?_, hnear⟩
    cases item with
    | inst x => exact hencodes x hitem
    | branch cond l => exact hbound cond l hitem
  · rintro ⟨hallowed, hits, hnear⟩
    exact ⟨hallowed, fun cond l hitem => hits _ hitem, fun i hitem => hits _ hitem, hnear⟩

/-- **Assembling after any calls.** Widening stops, after at most as many rounds as there are items.
Code is returned if and only if no label was bound twice or before it was created, no branch has a
condition that does not exist, every branch goes to a label that is bound, every instruction has an
encoding, and every displacement where widening stops fits the long form. The bytes are then the
encodings of the items in order, each branch in the form that its distance asks for, and holding
that distance. Whatever is returned instead of code, it is never that a short jump does not
reach.

**Proof sketch.** If no call was a misuse, the builder holds what the calls are meant to put
into it (`calls_tracks`). Whether it assembles, to which bytes and with which errors it fails, is
then known from the layout (`Tracks.assemble_ok`, `Tracks.assemble_error`,
`written_of_bytesFrom`). After a misuse the error is the one remembered, which is of one link
(`failure_calls_of`). -/
theorem assemble_calls (cs : List Call) :
    let b := ({} : Builder).calls cs
    ((∃ rounds ≤ (added cs).length, layout cs = Nat.iterate widen rounds (chunksOf cs)) ∧
      widen (layout cs) = layout cs) ∧
    ((∃ code, b.assemble = .ok code) ↔ Assembles cs) ∧
    (∀ code, b.assemble = .ok code → ∃ parts, code.bytes = parts.flatten ∧ Written cs parts) ∧
    ∀ f rel, b.assemble = .error f → Link.plain (.encode (.displacement rel)) ∉ f.links := by
  intro b
  refine ⟨⟨exists_iterate_relax _ _, widen_layout cs⟩, ?_⟩
  by_cases hallowed : AllAllowed cs
  · have htracks : Tracks cs b := calls_tracks hallowed
    refine ⟨⟨?_, fun h => ?_⟩, fun code hcode => ?_, fun f rel hf =>
      (htracks.assemble_error hf).2 rel⟩
    · rintro ⟨code, hcode⟩
      obtain ⟨hits, hbytes⟩ := htracks.assemble_ok hcode
      exact assembles_iff.2 ⟨hallowed, hits, near_of_bytesFrom hbytes⟩
    · cases hcode : b.assemble with
      | ok code => exact ⟨code, rfl⟩
      | error f => exact absurd (assembles_iff.1 h).2 (htracks.assemble_error hcode).1
    · obtain ⟨hits, hbytes⟩ := htracks.assemble_ok hcode
      exact written_of_bytesFrom hits hbytes
  · -- a misuse is remembered, and reported before anything is laid out
    obtain ⟨f, hf⟩ := Option.ne_none_iff_exists'.1
      fun hnone => hallowed ((failure_calls_eq_none_iff cs).1 hnone)
    have hassemble : b.assemble = .error f := by
      unfold Builder.assemble
      rw [hf]
    rw [hassemble]
    refine ⟨⟨?_, fun h => absurd h.allowed hallowed⟩, ?_, ?_⟩
    · rintro ⟨code, hcode⟩
      cases hcode
    · rintro code hcode
      cases hcode
    · rintro _ rel ⟨⟩
      obtain ⟨reason, rfl⟩ := failure_calls_of hf
      simp [Failure.links, Failure.of]

end Builder

end Code

end Dynarec
