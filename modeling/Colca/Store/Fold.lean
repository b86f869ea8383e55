import Colca.Store.Indexes

/-!
# The current state is the fold of history

`State.history` lists what happened to current-state entries: the records committed for them, in the
order of their commits, and the evictions. An entry is what its last change left (`folds_history`):
removals of records do not touch it, a failed commit changes nothing, and a reopen reads it back.

Records alone do not decide an entry. A node drops the entries of node-private state that another node
authored, for which no record will ever come: `evicted_entry` is such a run.
-/

namespace Colca

open Uns

/-- The last thing that happened to an entry. -/
def lastChange (h : List Change) (k : KVKey) : Option Change := (h.filter fun x ↦ x.key = k).getLast?

/-- The last record committed for an entry. -/
def lastRecord (h : List Change) (k : KVKey) : Option Change :=
  (h.filter fun x ↦ match x with
    | .projected k' _ => k' = k
    | .evicted _ => false).getLast?

/-- The entry a record at an offset leaves. -/
def Codec.kvEntry (c : Codec) (off : ℕ) (r : Record) : KVEnc :=
  { topic := r.topic, payload := r.payload, ts := r.ts, offset := off,
    originOffset := (c.encode off r).originOffset, writtenBy := r.by_.writtenBy,
    actorID := r.by_.actorID, actorLabel := r.by_.actorLabel, actorKind := r.by_.actorKind }

/-- What a change leaves on disk. -/
def Change.left (c : Codec) (x : Change) : Option Val := x.value.map fun y ↦ .kv (c.kvEntry y.1 y.2)

/-- What stands at an entry on disk. -/
def entryAt (d : Disk) (k : KVKey) : Option Val := d (.kv k.path k.node k.topic)

section Fold

variable {c : Codec} {d : Disk} {h : List Change} {b b₀ : Draft} {st : Stream} {r : Record} {off : ℕ}
  {k k' : KVKey}

theorem lastChange_append_singleton (h : List Change) (x : Change) (k : KVKey) :
    lastChange (h ++ [x]) k = if x.key = k then some x else lastChange h k := by
  unfold lastChange
  rw [List.filter_append]
  by_cases hk : x.key = k
  · simp [hk]
  · simp [hk]

/-- An entry is what its last change left. -/
def Folds (c : Codec) (d : Disk) (h : List Change) : Prop :=
  ∀ k, entryAt d k = (lastChange h k).bind (Change.left c)

/-- One more change, which does to its entry what it says and leaves the others. -/
theorem Folds.change {d' : Disk} {x : Change} (hf : Folds c d h)
    (hd : ∀ k, entryAt d' k = if x.key = k then x.left c else entryAt d k) : Folds c d' (h ++ [x]) := by
  intro k
  rw [hd, lastChange_append_singleton]
  split
  · rfl
  · exact hf k

theorem entryAt_deleteKV (k' : KVKey) :
    entryAt (Batch.apply d (deleteKV k'.path k'.node k'.topic)) k = if k' = k then none else entryAt d k := by
  have hkey : (Key.kv k.path k.node k.topic = Key.kv k'.path k'.node k'.topic) ↔ k' = k := by
    cases k
    cases k'
    simp [eq_comm]
  unfold entryAt
  rw [apply_deleteKV]
  cases contractOf k'.topic <;> simp only [hkey, reduceCtorEq, if_false]

theorem entryAt_setKV (k' : KVKey) {e : KVEnc} :
    entryAt (Batch.apply d (setKV k'.path k'.node k'.topic e)) k =
      if k' = k then some (.kv e) else entryAt d k := by
  have hkey : (Key.kv k.path k.node k.topic = Key.kv k'.path k'.node k'.topic) ↔ k' = k := by
    cases k
    cases k'
    simp [eq_comm]
  unfold entryAt
  rw [apply_setKV]
  cases contractOf k'.topic <;> simp only [hkey, reduceCtorEq, if_false]

/-- A record does to the current state what its change says. -/
theorem Folds.add (hf : Folds c d h) :
    Folds c (Batch.apply d (addRecord c st off r).1) (h ++ r.changes off) := by
  have hrec : ∀ k, entryAt (Batch.apply d (recordWrites c st off r)) k = entryAt d k :=
    fun k ↦ apply_recordWrites_of_state rfl
  rw [addRecord_fst, Batch.apply_append]
  unfold kvWrites Record.changes
  split
  · intro k
    rw [List.append_nil, Batch.apply_nil, hrec]
    exact hf k
  · refine hf.change fun k ↦ ?_
    split
    · exact (entryAt_deleteKV r.kvKey).trans (if_congr Iff.rfl rfl (hrec k))
    · exact (entryAt_setKV r.kvKey).trans (if_congr Iff.rfl rfl (hrec k))

theorem Folds.adds (hf : Folds c (b₀.view d) (h ++ b₀.changes)) (hadds : b₀.Adds c b) :
    Folds c (b.view d) (h ++ b.changes) := by
  induction hadds with
  | refl => exact hf
  | @add b st r _ hfix ih =>
    rw [Draft.view_add hfix, Draft.add_changes hfix, ← List.append_assoc]
    exact ih.add
  | @retire b k _ ih =>
    rw [Draft.view_retire, show (b.retire k).changes = b.changes ++ [.projected k none] from rfl,
      ← List.append_assoc]
    exact ih.change fun _ ↦ entryAt_deleteKV _
  | @evict b k _ ih =>
    rw [Draft.view_evict, show (b.evict k).changes = b.changes ++ [.evicted k] from rfl,
      ← List.append_assoc]
    exact ih.change fun _ ↦ entryAt_deleteKV _

/-- Entries are not records. -/
theorem entryAt_removeKeys {gone : List Gone} : entryAt (removeKeys d st gone) k = entryAt d k := by
  unfold entryAt
  rw [removeKeys_apply, if_neg]
  intro hmem
  obtain ⟨g, -, heq⟩ := List.mem_map.mp hmem
  cases g <;> cases heq

end Fold

namespace StoreRun

variable {env : WriteEnv} {s s' : State} {e : Event}

theorem Folds.wrote {store : Store} {b : Draft} (hw : s.store.Wrote store b)
    (hf : Folds env.codec (b.view s.store.disk) (s.history ++ b.changes)) :
    Folds env.codec store.disk (s.history ++ b.changes) := by
  intro k
  rw [← hf k]
  exact hw.disk _ rfl

/-- **A step keeps the fold.** -/
theorem Does.folds (hi : Inv s) (h : Does env s e s') (hf : Folds env.codec s.store.disk s.history) :
    Folds env.codec s'.store.disk s'.history := by
  have hnone : Folds env.codec (s.store.draft.view s.store.disk)
      (s.history ++ s.store.draft.changes) := by
    show Folds env.codec s.store.disk (s.history ++ [])
    rw [List.append_nil]
    exact hf
  cases h with
  | wrote hb hw => exact Folds.wrote hw (Colca.Folds.adds hnone hb)
  | scanned _ => exact hf
  | @removed scans x gaps _ _ =>
    refine Folds.wrote (s.store.commit_wrote (x.draft env s.store gaps))
      (Colca.Folds.adds ?_ (Removal.draft_adds s.store x gaps))
    intro k
    rw [Draft.view_remove, entryAt_removeKeys]
    exact hnone k
  | reopened _ =>
    show Folds env.codec s.reopen.store.disk s.history
    rw [hi.reopen_disk]
    exact hf

theorem folds_of_reachable (h : (system env .empty).Reachable s) :
    Folds env.codec s.store.disk s.history := by
  have hboth : Inv s ∧ Folds env.codec s.store.disk s.history := by
    refine StateMachine.Reachable.invariant (I := fun s ↦ Inv s ∧ Folds env.codec s.store.disk s.history)
      ⟨inv_start _, fun k ↦ rfl⟩ (fun s e s' hi hs ↦ ?_) h
    have hd := hi.1.does hs
    exact ⟨hd.inv hi.1, hd.folds hi.1 hi.2⟩
  exact hboth.2

/-- The current state is what its history says. -/
structure State.FoldsHistory (s : State) : Prop where
  /-- An entry exists exactly when the last thing that happened to it was a record that does not delete
  it. -/
  exists_iff : ∀ k, (entryAt s.store.disk k).isSome ↔
    ∃ off r, lastChange s.history k = some (.projected k (some (off, r)))
  /-- It then holds the payload, the timestamp and the offset of that record. -/
  holds : ∀ k off r, lastChange s.history k = some (.projected k (some (off, r))) →
    ∃ e, entryAt s.store.disk k = some (.kv e) ∧ e.payload = r.payload ∧ e.ts = r.ts ∧ e.offset = off

theorem lastChange_key {h : List Change} {k : KVKey} {x : Change} (hx : lastChange h k = some x) :
    x.key = k := by
  have hmem := List.mem_of_getLast? hx
  simpa using (List.mem_filter.mp hmem).2

/-- **The current state is the fold of records and evictions**, in every run of a new store. -/
theorem folds_history (env : WriteEnv) (s : State) (h : (system env .empty).Reachable s) :
    s.FoldsHistory := by
  have hf := folds_of_reachable h
  refine ⟨fun k ↦ ?_, fun k off r hlast ↦ ?_⟩
  · rw [hf k]
    constructor
    · intro hsome
      obtain ⟨v, hv⟩ := Option.isSome_iff_exists.mp hsome
      obtain ⟨x, hx, hleft⟩ := Option.bind_eq_some_iff.mp hv
      obtain ⟨y, hy, -⟩ := Option.map_eq_some_iff.mp hleft
      have hkey := lastChange_key hx
      cases x with
      | evicted k' => cases hy
      | projected k' v' =>
        obtain rfl : k' = k := hkey
        obtain rfl : v' = some y := hy
        exact ⟨y.1, y.2, hx⟩
    · rintro ⟨off, r, hlast⟩
      rw [hlast]
      rfl
  · refine ⟨env.codec.kvEntry off r, ?_, rfl, rfl, rfl⟩
    rw [hf k, hlast]
    rfl

/-! ### An entry that is evicted -/

/-- A receipt of an edit that another node carried out. -/
def foreignReceipt : Record :=
  { topic := ["colca", "v1", "_EditOperation", "edge", "line", "op"], payload := [1],
    kvPath := ["line", "op"], kvNode := "edge" }

/-- It arrives at a parent, which drops its entry. -/
def receiptRun : List Event :=
  [.write (.append [⟨.entities, [foreignReceipt]⟩]) true, .evictKV [foreignReceipt.kvKey]]

theorem folds_history_receipt : ∃ s, (system sampleEnv .empty).Reachable s ∧
    (entryAt s.store.disk (sampleMetric 1).kvKey).isSome = true ∧ s.FoldsHistory := by
  obtain ⟨s, hreach, hs⟩ := (system sampleEnv .empty).exists_reachable (samplePrune ++ receiptRun)
    (fun s ↦ (entryAt s.store.disk (sampleMetric 1).kvKey).isSome)
  exact ⟨s, hreach, hs, folds_history sampleEnv s hreach⟩

/-- **Records alone do not decide an entry.** The last record for the receipt does not delete it, and
its entry is gone. -/
theorem evicted_entry : ¬ ∀ s, (system sampleEnv .empty).Reachable s → ∀ k,
    ((entryAt s.store.disk k).isSome ↔
      ∃ off r, lastRecord s.history k = some (.projected k (some (off, r)))) := by
  intro hall
  obtain ⟨s, hreach, hnone, hlast⟩ := (system sampleEnv .empty).exists_reachable receiptRun
    (fun s ↦ (entryAt s.store.disk foreignReceipt.kvKey).isNone ∧
      lastRecord s.history foreignReceipt.kvKey =
        some (.projected foreignReceipt.kvKey (some (1, foreignReceipt))))
  have hsome := (hall s hreach foreignReceipt.kvKey).mpr ⟨1, foreignReceipt, hlast⟩
  rw [Option.isNone_iff_eq_none.mp hnone] at hsome
  cases hsome

end StoreRun

end Colca
