import Dynarec.Proofs.Record.Key
import Mathlib.Data.List.Pairwise
import Mathlib.Data.List.Induction

/-!
# Which records a store lists

Saving records one after another and then listing an image gives, for every time and name of a run,
the record of it that was saved last. The records stand in the order of their keys, which is the
order of their times only where no two of them finished at different times before 1970.

## Main definitions

* `Dynarec.Saving` — what one call of `save` is given; `Dynarec.Saving.stored` is what it keeps.
* `Dynarec.Store.saves` — the store after a sequence of calls.
* `Dynarec.Store.filed` — records put under their keys one after another.

## Main results

* `Dynarec.Store.pairwise_filed` — keys are strictly increasing.
* `Dynarec.Store.filter_filed` — under each key stands the record that was put there last.
* `Dynarec.Store.latest?_eq_getLast?` — the latest record is the last one listed.
* `Dynarec.Store.list_saves` — what is listed after any sequence of calls, and when it is in the
  order of time.
-/

set_option autoImplicit false

namespace Dynarec

/-! ## Calls -/

/-- What a call of `save` is given: a record, and the name and time for one that has none. -/
structure Saving where
  record : Record
  freshId : String
  now : Instant

namespace Saving

/-- The record that a call keeps. -/
def stored (c : Saving) : Record where
  __ := c.record
  runId := if c.record.runId.isEmpty then c.freshId else c.record.runId
  finished := if c.record.finished = Instant.unset then c.now else c.record.finished

/-- A call with a digest that is not empty and has no slash, and with a time that fits 64 bits. -/
structure Regular (c : Saving) : Prop where
  digest_ne : c.record.digest ≠ ""
  slash_not_mem : '/' ∉ c.record.digest.toList
  representable : c.stored.finished.Representable

end Saving

/-- A record that can be filed: its digest has no slash and its time fits 64 bits. -/
structure Record.Fileable (r : Record) : Prop where
  slash_not_mem : '/' ∉ r.digest.toList
  representable : r.finished.Representable

/-- A record of the run with a digest, a time and a name. -/
def Record.IsRun (r : Record) (digest : String) (t : Instant) (id : String) : Prop :=
  r.digest = digest ∧ r.finished = t ∧ r.runId = id

/-- Whether a record is that of a run is a comparison of its fields. -/
instance (r : Record) (digest : String) (t : Instant) (id : String) :
    Decidable (r.IsRun digest t id) :=
  inferInstanceAs (Decidable (_ ∧ _))

namespace Store

/-- The store after a sequence of calls of `save`. -/
def saves (calls : List Saving) : Store :=
  calls.foldl (fun s c => (s.save c.record c.freshId c.now).1) {}

/-- Records put under their keys one after another. -/
def filed (records : List Record) : List (Key × Record) :=
  records.foldl (fun entries r => insert r.key r entries) []

/-- A regular saving succeeds, and puts the record under its key. -/
theorem save_eq {c : Saving} (h : c.Regular) (s : Store) :
    s.save c.record c.freshId c.now =
      ({ entries := insert c.stored.key c.stored s.entries }, .ok c.stored) := by
  have hdigest : c.record.digest.isEmpty = false := by
    simpa using h.digest_ne
  have htext : c.stored.finished.hasText = true := Instant.hasText_of_representable h.representable
  rw [save, hdigest, if_neg Bool.false_ne_true]
  exact if_pos htext

/-! ## Records under their keys -/

/-- What is found after putting a record is that record, or was there before.

**Proof sketch.** By induction on the entries: the record is put in front, replaces the
first, or goes into the rest. -/
theorem mem_insert {key : Key} {r : Record} {entries : List (Key × Record)} {e : Key × Record}
    (h : e ∈ insert key r entries) : e = (key, r) ∨ e ∈ entries := by
  induction entries with
  | nil => simpa [insert] using h
  | cons first rest ih =>
    simp only [insert] at h
    split at h
    · simpa using h
    · split at h
      · simp only [List.mem_cons] at h ⊢
        exact h.imp_right Or.inr
      · obtain rfl | h := List.mem_cons.1 h
        · exact .inr List.mem_cons_self
        · exact (ih h).imp_right (List.mem_cons_of_mem first)

/-- **Putting a record** keeps the entries in the order of their keys, with one entry for each key.

**Proof sketch.** By induction on the entries, along the comparison with the first of them: the
record stands in front of it, in its place or behind it. -/
theorem pairwise_insert (key : Key) (r : Record) {entries : List (Key × Record)}
    (h : entries.Pairwise fun e e' => e.1 < e'.1) :
    (insert key r entries).Pairwise fun e e' => e.1 < e'.1 := by
  induction entries with
  | nil => simp [insert]
  | cons first rest ih =>
    obtain ⟨hfirst, hrest⟩ := List.pairwise_cons.1 h
    simp only [insert]
    split
    next hlt =>
      refine List.pairwise_cons.2 ⟨fun e he => ?_, h⟩
      obtain rfl | he := List.mem_cons.1 he
      · exact hlt
      · exact List.lt_trans hlt (hfirst e he)
    next hnlt =>
      split
      next heq => exact List.pairwise_cons.2 ⟨fun e he => heq ▸ hfirst e he, hrest⟩
      next hne =>
        refine List.pairwise_cons.2 ⟨fun e he => ?_, ih hrest⟩
        obtain rfl | he := mem_insert he
        · exact Decidable.by_contra fun hngt =>
            hne (Std.Trichotomous.trichotomous key first.1 hnlt hngt)
        · exact hfirst e he

/-- The keys of filed records are strictly increasing. -/
theorem pairwise_filed (records : List Record) :
    (filed records).Pairwise fun e e' => e.1 < e'.1 := by
  induction records using List.reverseRecOn with
  | nil => exact List.Pairwise.nil
  | append_singleton records r ih =>
    rw [filed, List.foldl_append]
    exact pairwise_insert r.key r ih

/-- What is filed from records is one of them, under its own key. -/
theorem mem_filed {records : List Record} {e : Key × Record} (h : e ∈ filed records) :
    e.1 = e.2.key ∧ e.2 ∈ records := by
  induction records using List.reverseRecOn with
  | nil => simp [filed] at h
  | append_singleton records r ih =>
    rw [filed, List.foldl_append] at h
    obtain rfl | h := mem_insert h
    · exact ⟨rfl, by simp⟩
    · exact ⟨(ih h).1, List.mem_append_left _ (ih h).2⟩

/-- Putting a record under a key changes what stands under that key only.

**Proof sketch.** By induction on the entries, which are in the order of their keys. Where
the record is put in front or replaces the first, the keys behind are greater, so the key is not
found there once more. -/
theorem filter_insert (key key' : Key) (r : Record) {entries : List (Key × Record)}
    (h : entries.Pairwise fun e e' => e.1 < e'.1) :
    (insert key r entries).filter (fun e => e.1 = key') =
      if key = key' then [(key, r)] else entries.filter fun e => e.1 = key' := by
  induction entries with
  | nil => by_cases hkey : key = key' <;> simp [insert, hkey]
  | cons first rest ih =>
    obtain ⟨hfirst, hrest⟩ := List.pairwise_cons.1 h
    -- a key below those of `rest` is not among them
    have habsent {k : Key} (hk : k ≤ first.1) : rest.filter (fun e => e.1 = k) = [] := by
      refine List.filter_eq_nil_iff.2 fun e he heq => hk ?_
      rw [← of_decide_eq_true heq]
      exact hfirst e he
    simp only [insert]
    split
    next hlt =>
      by_cases hkey : key = key'
      · have hne : first.1 ≠ key' := fun heq => List.lt_irrefl key' (by simpa [hkey, heq] using hlt)
        have hle : key' ≤ first.1 := hkey ▸ List.le_of_lt hlt
        simp [hkey, hne, habsent hle]
      · simp [hkey]
    next hnlt =>
      split
      next heq =>
        by_cases hkey : key = key'
        · have hle : key' ≤ first.1 := (hkey.symm.trans heq) ▸ List.le_refl _
          simp [hkey, habsent hle]
        · have hne : first.1 ≠ key' := heq ▸ hkey
          simp [hkey, hne]
      next hne =>
        rw [List.filter_cons, List.filter_cons, ih hrest]
        by_cases hkey : key = key'
        · have : first.1 ≠ key' := fun heq => hne (hkey.trans heq.symm)
          simp [hkey, this]
        · simp [hkey]

/-- Under each key stands the record that was put there last. -/
theorem filter_filed (records : List Record) (key : Key) :
    (filed records).filter (fun e => e.1 = key) =
      ((records.filter fun r => r.key = key).getLast?.map fun r => (key, r)).toList := by
  induction records using List.reverseRecOn with
  | nil => rfl
  | append_singleton records r ih =>
    have hins := filter_insert r.key key r (pairwise_filed records)
    rw [filed, List.foldl_append, List.foldl_cons, List.foldl_nil, ← filed, hins, ih,
      List.filter_append]
    by_cases hkey : r.key = key <;> simp [hkey]

/-! ## Listing an image -/

/-- The latest record is the last one listed. -/
theorem latest?_eq_getLast? (s : Store) (digest : String) :
    s.latest? digest = (s.list digest).getLast? := by
  rw [latest?, list, List.getLast?_map, List.getLast?_filter]

section

variable {records : List Record} (hrec : ∀ r ∈ records, r.Fileable) {digest : String}
  (hd : '/' ∉ digest.toList)

include hrec hd

/-- The records listed for an image are its own. -/
theorem list_filed :
    ({ entries := filed records } : Store).list digest =
      ((filed records).filter fun e => e.2.digest = digest).map Prod.snd := by
  rw [list]
  congr 1
  refine List.filter_congr fun e he => ?_
  obtain ⟨hkey, hmem⟩ := mem_filed he
  have hfile := hrec e.2 hmem
  rw [Bool.eq_iff_iff, inRange_iff, hkey, decide_eq_true_eq,
    Record.digestStart_prefix_key_iff hfile.slash_not_mem hfile.representable hd]

/-- What is listed for a digest is one of the records, and has that digest. -/
theorem mem_list_filed {r : Record} (h : r ∈ ({ entries := filed records } : Store).list digest) :
    r ∈ records ∧ r.digest = digest := by
  rw [list_filed hrec hd] at h
  obtain ⟨e, he, rfl⟩ := List.mem_map.1 h
  obtain ⟨he, hdigest⟩ := List.mem_filter.1 he
  exact ⟨(mem_filed he).2, of_decide_eq_true hdigest⟩

/-- **For every time and name of a run, the record saved last is listed, and no other.**

**Proof sketch.** Records of one run are those with one key (`Record.key_inj`), and under a
key stands the record that was put there last (`filter_filed`). -/
theorem filter_list_filed (t : Instant) (id : String) :
    (({ entries := filed records } : Store).list digest).filter
        (fun r => r.finished = t ∧ r.runId = id) =
      (records.filter fun r => r.IsRun digest t id).getLast?.toList := by
  have hlist : (({ entries := filed records } : Store).list digest).filter
        (fun r => r.finished = t ∧ r.runId = id) =
      ((filed records).filter fun e => e.2.IsRun digest t id).map Prod.snd := by
    rw [list_filed hrec hd, List.filter_map, List.filter_filter]
    congr 1
    refine List.filter_congr fun e _ => ?_
    rw [Bool.eq_iff_iff]
    simp only [Bool.and_eq_true, Function.comp_apply, decide_eq_true_eq]
    rw [Record.IsRun, and_comm]
  rw [hlist]
  by_cases hex : ∃ r ∈ records, r.IsRun digest t id
  · obtain ⟨r, hr, rfl, rfl, rfl⟩ := hex
    have hsame {r' : Record} (hr' : r' ∈ records) :
        r'.IsRun r.digest r.finished r.runId ↔ r'.key = r.key :=
      (Record.key_inj (hrec r' hr').slash_not_mem (hrec r hr).slash_not_mem
        (hrec r' hr').representable (hrec r hr).representable).symm
    have hentries : (filed records).filter (fun e => e.2.IsRun r.digest r.finished r.runId) =
        (filed records).filter fun e => e.1 = r.key := by
      refine List.filter_congr fun e he => ?_
      rw [decide_eq_decide, hsame (mem_filed he).2, (mem_filed he).1]
    have hrecords : records.filter (fun r' => r'.IsRun r.digest r.finished r.runId) =
        records.filter fun r' => r'.key = r.key :=
      List.filter_congr fun r' hr' => by rw [decide_eq_decide, hsame hr']
    rw [hentries, hrecords, filter_filed]
    cases (records.filter fun r' => r'.key = r.key).getLast? <;> rfl
  · have hnone {r : Record} (hr : r ∈ records) : ¬ decide (r.IsRun digest t id) = true :=
      fun h => hex ⟨r, hr, of_decide_eq_true h⟩
    rw [List.filter_eq_nil_iff.2 fun e he => hnone (mem_filed he).2,
      List.filter_eq_nil_iff.2 fun r hr => hnone hr]
    rfl

/-- A record is listed for every run that was saved. -/
theorem exists_mem_list_filed {r : Record} (hr : r ∈ records) (hdigest : r.digest = digest) :
    ∃ r' ∈ ({ entries := filed records } : Store).list digest, r'.finished = r.finished := by
  have hmem : r ∈ records.filter fun r' => r'.IsRun digest r.finished r.runId :=
    List.mem_filter.2 ⟨hr, decide_eq_true ⟨hdigest, rfl, rfl⟩⟩
  have hlist := filter_list_filed hrec hd r.finished r.runId
  obtain ⟨r', hr'⟩ : ∃ r', (records.filter fun r' =>
      r'.IsRun digest r.finished r.runId).getLast? = some r' :=
    ⟨_, List.getLast?_eq_some_getLast (List.ne_nil_of_mem hmem)⟩
  rw [hr', Option.toList_some] at hlist
  obtain ⟨hin, hrun⟩ := List.mem_filter.1 (hlist ▸ List.mem_singleton_self r')
  exact ⟨r', hin, (of_decide_eq_true hrun).1⟩

/-- **The order of the records of an image.** -/
theorem pairwise_list_filed :
    (({ entries := filed records } : Store).list digest).Pairwise fun r r' =>
      r.finished.ListedBefore r'.finished ∨
        r.finished = r'.finished ∧ textBytes r.runId < textBytes r'.runId := by
  rw [list_filed hrec hd, List.pairwise_map]
  refine ((pairwise_filed records).filter _).imp_of_mem fun {e e'} he he' hlt => ?_
  obtain ⟨he, hdigest⟩ := List.mem_filter.1 he
  obtain ⟨he', hdigest'⟩ := List.mem_filter.1 he'
  obtain ⟨hkey, hmem⟩ := mem_filed he
  obtain ⟨hkey', hmem'⟩ := mem_filed he'
  rw [hkey, hkey'] at hlt
  exact (Record.key_lt_iff (hrec _ hmem).representable (hrec _ hmem').representable
    ((of_decide_eq_true hdigest).trans (of_decide_eq_true hdigest').symm)).1 hlt

/-- **Records are listed in the order of time exactly when no two of them finished at different
times before 1970.**

**Proof sketch.** Of two listed records with times before 1970 the later one comes first, so they
are in the order of time only if the times are the same. Any other two are in the order of time. -/
theorem pairwise_le_list_filed_iff :
    (({ entries := filed records } : Store).list digest).Pairwise (fun r r' =>
        r.finished.nanoseconds ≤ r'.finished.nanoseconds) ↔
      ∀ r ∈ records, ∀ r' ∈ records, r.digest = digest → r'.digest = digest →
        r.finished.nanoseconds < 0 → r'.finished.nanoseconds < 0 → r.finished = r'.finished := by
  have horder := pairwise_list_filed hrec hd
  constructor
  · intro hle r hr r' hr' hdigest hdigest' hneg hneg'
    let Agree (a b : Record) : Prop :=
      a.finished.nanoseconds < 0 → b.finished.nanoseconds < 0 → a.finished = b.finished
    have hsymm : Std.Symm Agree := ⟨fun _ _ h ha hb => (h hb ha).symm⟩
    have hagree : (({ entries := filed records } : Store).list digest).Pairwise Agree := by
      refine (horder.and hle).imp fun {a b} hab ha hb => ?_
      obtain ⟨hlisted | hsame, hab⟩ := hab
      · simp only [Instant.ListedBefore] at hlisted
        omega
      · exact hsame.1
    have hpairs := hagree.forall_of_forall fun _ _ _ _ => rfl
    obtain ⟨a, ha, hafin⟩ := exists_mem_list_filed hrec hd hr hdigest
    obtain ⟨b, hb, hbfin⟩ := exists_mem_list_filed hrec hd hr' hdigest'
    have := hpairs ha hb (hafin ▸ hneg) (hbfin ▸ hneg')
    rwa [hafin, hbfin] at this
  · intro hsame
    refine horder.imp_of_mem fun {a b} ha hb hab => ?_
    obtain ⟨ha, hda⟩ := mem_list_filed hrec hd ha
    obtain ⟨hb, hdb⟩ := mem_list_filed hrec hd hb
    obtain hlisted | ⟨hfin, -⟩ := hab
    · by_cases hneg : a.finished.nanoseconds < 0 ∧ b.finished.nanoseconds < 0
      · rw [hsame a ha b hb hda hdb hneg.1 hneg.2]
      · simp only [Instant.ListedBefore] at hlisted
        omega
    · rw [hfin]

end

/-! ## After any sequence of calls -/

/-- Regular savings put their records one after the other into an empty store. -/
theorem saves_eq {calls : List Saving} (h : ∀ c ∈ calls, c.Regular) :
    saves calls = { entries := filed (calls.map Saving.stored) } := by
  induction calls using List.reverseRecOn with
  | nil => rfl
  | append_singleton calls c ih =>
    have ih := ih fun c' hc' => h c' (List.mem_append_left _ hc')
    rw [saves] at ih
    rw [saves, List.foldl_append, ih, List.foldl_cons, List.foldl_nil, save_eq (h c (by simp)),
      filed, filed, List.map_append, List.foldl_append]
    rfl

/-- **What is listed after any sequence of calls.** Every call keeps its record. The records listed
for an image are, for every time and name of a run, the one saved last and no other; none is of
another image. They stand in the order of their keys, which is the order of time exactly when no two
calls kept records of the image with different times before 1970. The latest record is the last one
listed.

**Proof sketch.** Every call is regular, so it succeeds, and all of them together file their
records in order (`saves_eq`). What is listed of filed records, and in which order, is
`filter_list_filed`, `pairwise_list_filed` and `pairwise_le_list_filed_iff`; the latest is the
last of them. -/
theorem list_saves (calls : List Saving) (h : ∀ c ∈ calls, c.Regular) (digest : String)
    (hd : '/' ∉ digest.toList) :
    (∀ before c after, calls = before ++ c :: after →
      ((saves before).save c.record c.freshId c.now).2 = .ok c.stored) ∧
    (∀ t id, ((saves calls).list digest).filter (fun r => r.finished = t ∧ r.runId = id) =
      ((calls.map Saving.stored).filter fun r => r.IsRun digest t id).getLast?.toList) ∧
    (∀ r ∈ (saves calls).list digest, r.digest = digest) ∧
    ((saves calls).list digest).Pairwise (fun r r' =>
      r.finished.ListedBefore r'.finished ∨
        r.finished = r'.finished ∧ textBytes r.runId < textBytes r'.runId) ∧
    (((saves calls).list digest).Pairwise (fun r r' =>
        r.finished.nanoseconds ≤ r'.finished.nanoseconds) ↔
      ∀ c ∈ calls, ∀ c' ∈ calls, c.stored.digest = digest → c'.stored.digest = digest →
        c.stored.finished.nanoseconds < 0 → c'.stored.finished.nanoseconds < 0 →
          c.stored.finished = c'.stored.finished) ∧
    (saves calls).latest? digest = ((saves calls).list digest).getLast? ∧
    ((saves calls).latest? digest = none ↔ (saves calls).list digest = []) := by
  have hrec : ∀ r ∈ calls.map Saving.stored, r.Fileable := by
    intro r hr
    obtain ⟨c, hc, rfl⟩ := List.mem_map.1 hr
    exact ⟨(h c hc).slash_not_mem, (h c hc).representable⟩
  refine ⟨?_, ?_, ?_, ?_, ?_, latest?_eq_getLast? _ _, ?_⟩
  · rintro before c after rfl
    rw [save_eq (h c (by simp))]
  · intro t id
    rw [saves_eq h, filter_list_filed hrec hd]
  · intro r hr
    rw [saves_eq h] at hr
    exact (mem_list_filed hrec hd hr).2
  · rw [saves_eq h]
    exact pairwise_list_filed hrec hd
  · rw [saves_eq h, pairwise_le_list_filed_iff hrec hd]
    simp only [List.forall_mem_map]
  · rw [latest?_eq_getLast?, List.getLast?_eq_none_iff]

/-- A run that finished a second before 1970 is listed before one that finished a second earlier. -/
theorem list_saves_before_epoch :
    let calls : List Saving :=
      [⟨{ runId := "x", digest := "a", finished := ⟨-1, 0⟩ }, "", .unset⟩,
        ⟨{ runId := "y", digest := "a", finished := ⟨-2, 0⟩ }, "", .unset⟩]
    (∀ c ∈ calls, c.Regular) ∧
      ¬ ((saves calls).list "a").Pairwise fun r r' =>
        r.finished.nanoseconds ≤ r'.finished.nanoseconds := by
  intro calls
  have h : ∀ c ∈ calls, c.Regular := by
    intro c hc
    obtain rfl | rfl : c = _ ∨ c = _ := by simpa [calls] using hc
    · exact ⟨by decide, by decide, by decide⟩
    · exact ⟨by decide, by decide, by decide⟩
  refine ⟨h, fun hle => ?_⟩
  have hsame := (list_saves calls h "a" (by decide)).2.2.2.2.1.1 hle
    ⟨{ runId := "x", digest := "a", finished := ⟨-1, 0⟩ }, "", .unset⟩ (by simp [calls])
    ⟨{ runId := "y", digest := "a", finished := ⟨-2, 0⟩ }, "", .unset⟩ (by simp [calls])
  exact absurd (hsame rfl rfl (by decide) (by decide)) (by decide)

end Store

end Dynarec
