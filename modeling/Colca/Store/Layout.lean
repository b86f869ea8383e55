import Colca.Lib.OffsetLog
import Colca.Store.Writers
import Mathlib.Algebra.BigOperators.Group.Finset.Basic

/-!
# What a store keeps on disk, key by key

A record lies under its stream and offset. Three indexes point at records and entries: the signal index
and the target index at the records of a stream, the contract index at the current-state entries. This
module says what one record, one retired entry and one removal do to each kind of key, and what the
indexes are to say (`SigIndexed`, `Targeted`, `KVIndexed`). Coverage is part of the laws: an index says
nothing about records below the offset it covers from.

`Draft.Adds` is the way every write path builds its draft, so a law is kept by all of them once it is
kept by one record and one retired entry.
-/

namespace Colca

open Uns List Function Batch Gone

/-! ### Records on disk -/

/-- The record at an offset. -/
def recordAt (d : Disk) (st : Stream) (o : ℕ) : Option RecEnc :=
  match d (.stream st o) with
  | some (.record e) => some e
  | _ => none

theorem recordAt_congr {d d' : Disk} {st : Stream} {o : ℕ} (h : d (.stream st o) = d' (.stream st o)) :
    recordAt d st o = recordAt d' st o := by
  rw [recordAt, h, ← recordAt]

theorem recordAt_eq_some {d : Disk} {st : Stream} {o : ℕ} {e : RecEnc} :
    recordAt d st o = some e ↔ d (.stream st o) = some (.record e) := by
  unfold recordAt
  split <;> simp_all

/-- The records of a stream in `[lo, hi)`, in order. -/
def recordsIn (d : Disk) (st : Stream) (lo hi : ℕ) : List (ℕ × RecEnc) :=
  (List.range' lo (hi - lo)).filterMap fun o ↦ (recordAt d st o).map (o, ·)

theorem recordAt_found {d : Disk} {st : Stream} (o : ℕ) (x : ℕ × RecEnc)
    (h : (recordAt d st o).map (o, ·) = some x) : x.1 = o := by
  obtain ⟨e, -, rfl⟩ := Option.map_eq_some_iff.mp h
  rfl

theorem mem_recordsIn {d : Disk} {st : Stream} {lo hi : ℕ} {x : ℕ × RecEnc} :
    x ∈ recordsIn d st lo hi ↔ lo ≤ x.1 ∧ x.1 < hi ∧ recordAt d st x.1 = some x.2 := by
  rw [recordsIn, OffsetLog.mem_filterMap_range recordAt_found]
  simp [Prod.ext_iff]

theorem recordsIn_congr {d d' : Disk} {st : Stream} {lo hi : ℕ}
    (h : ∀ o, lo ≤ o → o < hi → recordAt d' st o = recordAt d st o) :
    recordsIn d' st lo hi = recordsIn d st lo hi := by
  refine filterMap_congr fun o ho ↦ ?_
  obtain ⟨hlo, hhi⟩ := mem_range'_1.mp ho
  rw [h o hlo (by omega)]

theorem recordsIn_increasing (d : Disk) (st : Stream) (lo hi : ℕ) :
    (recordsIn d st lo hi).Pairwise (·.1 < ·.1) :=
  OffsetLog.filterMap_range_increasing recordAt_found

/-- The contract a topic names. -/
def contractOf (t : Topic) : Option String :=
  match parse t with
  | .ok p => some p.contract
  | .error _ => none

/-! ### What one batch of each kind leaves -/

section Apply

variable {d : Disk} {c : Codec} {st st' : Stream} {off o : ℕ} {r : Record} {path path' : Path}
  {node node' : String} {topic topic' : Topic} {e : KVEnc} {ct id : String}

theorem apply_singleton (d : Disk) (w : Write Key Val) (k : Key) :
    apply d [w] k = if k = w.key then w.value else d k := by
  rw [apply_cons, apply_nil, update_apply]

/-- The key and the value of a write about a current-state entry. -/
theorem apply_kvPair (d : Disk) (w : Write Key Val) (w' : String → Write Key Val) (t : Topic) (k : Key) :
    apply d (w :: match parse t with
      | .ok p => [w' p.contract]
      | .error _ => []) k =
      match contractOf t with
      | some ct => if k = (w' ct).key then (w' ct).value else if k = w.key then w.value else d k
      | none => if k = w.key then w.value else d k := by
  unfold contractOf
  rw [← singleton_append, apply_append]
  cases parse t with
  | ok p =>
    show apply (apply d [w]) [w' p.contract] k = _
    rw [apply_singleton, apply_singleton]
  | error _ => exact apply_singleton d w k

theorem apply_setKV (d : Disk) (path : Path) (node : String) (topic : Topic) (e : KVEnc) (k : Key) :
    apply d (setKV path node topic e) k =
      match contractOf topic with
      | some ct =>
        if k = .kvIndex ct path node topic then some .mark
        else if k = .kv path node topic then some (.kv e) else d k
      | none => if k = .kv path node topic then some (.kv e) else d k :=
  apply_kvPair d (.set (.kv path node topic) (.kv e)) (fun ct ↦ .set (.kvIndex ct path node topic) .mark)
    topic k

theorem apply_deleteKV (d : Disk) (path : Path) (node : String) (topic : Topic) (k : Key) :
    apply d (deleteKV path node topic) k =
      match contractOf topic with
      | some ct =>
        if k = .kvIndex ct path node topic then none
        else if k = .kv path node topic then none else d k
      | none => if k = .kv path node topic then none else d k :=
  apply_kvPair d (.delete (.kv path node topic)) (fun ct ↦ .delete (.kvIndex ct path node topic)) topic k

/-- A key of the current state or of its contract index. -/
def Key.isState : Key → Bool
  | .kv _ _ _ | .kvIndex _ _ _ _ => true
  | _ => false

theorem apply_deleteKV_of_not_state {k : Key} (hk : k.isState = false) :
    apply d (deleteKV path node topic) k = d k := by
  rw [apply_deleteKV]
  cases contractOf topic <;> cases k <;> first | rfl | cases hk

theorem apply_kvWrites_of_not_state {origin : ℕ} {k : Key} (hk : k.isState = false) :
    apply d (kvWrites off origin r) k = d k := by
  unfold kvWrites
  split
  · rfl
  · split
    · exact apply_deleteKV_of_not_state hk
    · rw [apply_setKV]
      cases contractOf r.topic <;> cases k <;> first | rfl | cases hk

/-- The records and index entries one record writes, before its projection. -/
def recordWrites (c : Codec) (st : Stream) (off : ℕ) (r : Record) : Batch Key Val :=
  [.set (.stream st off) (.record (c.encode off r))] ++
    (if (c.encode off r).signalID = "" then []
      else [.set (.sig st (c.encode off r).signalID off) .mark]) ++
    match commandTarget r.topic with
    | some node => [.set (.target st node off) .mark]
    | none => []

theorem addRecord_fst : (addRecord c st off r).1 =
    recordWrites c st off r ++ kvWrites off (c.encode off r).originOffset r := rfl

theorem mem_recordWrites {w : Write Key Val} : w ∈ recordWrites c st off r ↔
    w = .set (.stream st off) (.record (c.encode off r)) ∨
    ((c.encode off r).signalID ≠ "" ∧ w = .set (.sig st (c.encode off r).signalID off) .mark) ∨
    ∃ node, commandTarget r.topic = some node ∧ w = .set (.target st node off) .mark := by
  simp only [recordWrites, mem_append, mem_singleton, or_assoc]
  refine or_congr_right (or_congr ?_ ?_)
  · split <;> simp_all
  · split <;> simp_all

theorem apply_recordWrites_stream : apply d (recordWrites c st off r) (.stream st' o) =
    if st' = st ∧ o = off then some (.record (c.encode off r)) else d (.stream st' o) := by
  refine apply_eq_ite (fun h ↦ ?_) fun w hw heq ↦ ?_
  · rw [h.1, h.2]
    exact mem_recordWrites.mpr (.inl rfl)
  · obtain rfl | ⟨-, rfl⟩ | ⟨node, -, rfl⟩ := mem_recordWrites.mp hw <;> cases heq
    exact ⟨rfl, rfl, rfl⟩

theorem apply_recordWrites_sig : apply d (recordWrites c st off r) (.sig st' id o) =
    if st' = st ∧ o = off ∧ (c.encode off r).signalID = id ∧ id ≠ "" then some .mark
    else d (.sig st' id o) := by
  refine apply_eq_ite (fun h ↦ ?_) fun w hw heq ↦ ?_
  · obtain ⟨rfl, rfl, rfl, hne⟩ := h
    exact mem_recordWrites.mpr (.inr (.inl ⟨hne, rfl⟩))
  · obtain rfl | ⟨hne, rfl⟩ | ⟨node, -, rfl⟩ := mem_recordWrites.mp hw <;> cases heq
    exact ⟨rfl, rfl, rfl, rfl, hne⟩

theorem apply_recordWrites_target : apply d (recordWrites c st off r) (.target st' node o) =
    if st' = st ∧ o = off ∧ commandTarget r.topic = some node then some .mark
    else d (.target st' node o) := by
  refine apply_eq_ite (fun h ↦ ?_) fun w hw heq ↦ ?_
  · rw [h.1, h.2.1]
    exact mem_recordWrites.mpr (.inr (.inr ⟨node, h.2.2, rfl⟩))
  · obtain rfl | ⟨-, rfl⟩ | ⟨node, hnode, rfl⟩ := mem_recordWrites.mp hw <;> cases heq
    exact ⟨rfl, rfl, rfl, hnode⟩

theorem apply_recordWrites_of_state {k : Key} (hk : k.isState = true) :
    apply d (recordWrites c st off r) k = d k := by
  refine apply_eq_of_forall_ne fun w hw heq ↦ ?_
  rw [← heq] at hk
  obtain rfl | ⟨-, rfl⟩ | ⟨node, -, rfl⟩ := mem_recordWrites.mp hw <;> cases hk

theorem apply_addRecord_stream : apply d (addRecord c st off r).1 (.stream st' o) =
    if st' = st ∧ o = off then some (.record (c.encode off r)) else d (.stream st' o) := by
  rw [addRecord_fst, apply_append, apply_kvWrites_of_not_state rfl, apply_recordWrites_stream]

theorem apply_addRecord_sig : apply d (addRecord c st off r).1 (.sig st' id o) =
    if st' = st ∧ o = off ∧ (c.encode off r).signalID = id ∧ id ≠ "" then some .mark
    else d (.sig st' id o) := by
  rw [addRecord_fst, apply_append, apply_kvWrites_of_not_state rfl, apply_recordWrites_sig]

theorem apply_addRecord_target : apply d (addRecord c st off r).1 (.target st' node o) =
    if st' = st ∧ o = off ∧ commandTarget r.topic = some node then some .mark
    else d (.target st' node o) := by
  rw [addRecord_fst, apply_append, apply_kvWrites_of_not_state rfl, apply_recordWrites_target]

theorem recordAt_addRecord : recordAt (apply d (addRecord c st off r).1) st' o =
    if st' = st ∧ o = off then some (c.encode off r) else recordAt d st' o := by
  unfold recordAt
  rw [apply_addRecord_stream]
  by_cases h : st' = st ∧ o = off
  · rw [if_pos h, if_pos h]
  · rw [if_neg h, if_neg h]

end Apply

/-! ### Drafts as every write path builds them -/

/-- Records are added, and entries retired and evicted, one after the other. -/
inductive Draft.Adds (c : Codec) (b₀ : Draft) : Draft → Prop
  | refl : Adds c b₀ b₀
  | add {b : Draft} {st : Stream} (r : Record) : Adds c b₀ b → st.isFixed → Adds c b₀ (b.add c st r)
  | retire {b : Draft} (k : KVKey) : Adds c b₀ b → Adds c b₀ (b.retire k)
  | evict {b : Draft} (k : KVKey) : Adds c b₀ b → Adds c b₀ (b.evict k)

namespace Draft

variable {c : Codec} {b₀ b b' : Draft} {st : Stream} {r : Record}

theorem Adds.trans (h : Adds c b₀ b) (h' : Adds c b b') : Adds c b₀ b' := by
  induction h' with
  | refl => exact h
  | add r _ hfix ih => exact ih.add r hfix
  | retire k _ ih => exact ih.retire k
  | evict k _ ih => exact ih.evict k

theorem adds_add (b : Draft) (st : Stream) (r : Record) : Adds c b (b.add c st r) := by
  by_cases hfix : st.isFixed
  · exact Adds.refl.add r hfix
  · rw [Draft.add, dif_neg hfix]
    exact .refl

theorem adds_addAll (b : Draft) (rs : List (Stream × Record)) : Adds c b (b.addAll c rs) := by
  induction rs generalizing b with
  | nil => exact .refl
  | cons x rs ih => exact (adds_add b x.1 x.2).trans (ih _)

theorem adds_retireOf (b : Draft) (r : Record) : Adds c b (b.retireOf r) := by
  unfold retireOf
  split
  · exact .refl
  · exact Adds.refl.retire _

/-- Heads only move up. -/
theorem Adds.next_le (h : Adds c b₀ b) (st : Stream) : b₀.next st ≤ b.next st := by
  induction h with
  | refl => exact le_rfl
  | @add b st' r _ hfix ih =>
    rw [add_next hfix]
    by_cases heq : st = st'
    · subst heq
      rw [update_self]
      exact Nat.le_succ_of_le ih
    · rw [update_of_ne heq]
      exact ih
  | retire _ _ ih => exact ih
  | evict _ _ ih => exact ih

/-- The disk the draft leaves, its counters apart. -/
def view (b : Draft) (d : Disk) : Disk := Batch.apply d b.batch

theorem view_add (hfix : st.isFixed) (d : Disk) :
    (b.add c st r).view d = apply (b.view d) (addRecord c st (b.next st) r).1 := by
  rw [view, add_batch hfix, apply_append]
  rfl

theorem view_retire (k : KVKey) (d : Disk) :
    (b.retire k).view d = apply (b.view d) (deleteKV k.path k.node k.topic) :=
  apply_append d b.batch _

theorem view_evict (k : KVKey) (d : Disk) :
    (b.evict k).view d = apply (b.view d) (deleteKV k.path k.node k.topic) :=
  apply_append d b.batch _

/-- Retiring an entry leaves the records and their indexes alone. -/
theorem view_retire_of_not_state {k : KVKey} {d : Disk} {key : Key} (hk : key.isState = false) :
    (b.retire k).view d key = b.view d key := by
  rw [view_retire, apply_deleteKV_of_not_state hk]

/-- A record that was there before the draft is there after it. -/
theorem Adds.recordAt_view (h : Adds c b₀ b) (d : Disk) {o : ℕ} (ho : o < b₀.next st) :
    recordAt (b.view d) st o = recordAt (b₀.view d) st o := by
  induction h with
  | refl => rfl
  | @add b st' r hb hfix ih =>
    rw [view_add hfix, recordAt_addRecord, if_neg, ih]
    rintro ⟨rfl, rfl⟩
    exact absurd (hb.next_le st) ho.not_ge
  | retire _ _ ih | evict _ _ ih =>
    rw [← ih]
    exact recordAt_congr (view_retire_of_not_state rfl)

/-- A record the draft leaves was there before, or the draft encoded it. -/
theorem Adds.recordAt_or_encode (h : Adds c b₀ b) {d : Disk} {o : ℕ} {e : RecEnc}
    (he : recordAt (b.view d) st o = some e) :
    recordAt (b₀.view d) st o = some e ∨ ∃ off r, c.encode off r = e := by
  induction h with
  | refl => exact .inl he
  | @add b st' r _ hfix ih =>
    rw [view_add hfix, recordAt_addRecord] at he
    split at he
    · exact .inr ⟨_, _, Option.some.inj he⟩
    · exact ih he
  | retire _ _ ih | evict _ _ ih =>
    exact ih ((recordAt_congr (view_retire_of_not_state rfl)).symm.trans he)

end Draft

/-! ### The laws -/

/-- Records lie between the low-water mark and the head of their stream. -/
structure RecordsWithin (lwm next : Stream → ℕ) (d : Disk) : Prop where
  lwm_le : ∀ st o e, recordAt d st o = some e → lwm st ≤ o
  lt_next : ∀ st o e, recordAt d st o = some e → o < next st

/-- **The signal index.** From the covered offset on it has a key exactly for the records that carry a
signal; below, its keys may be stale or missing, and still name no other signal. -/
structure SigIndexed (covered next : Stream → ℕ) (d : Disk) : Prop where
  lt_next : ∀ st id o, (d (.sig st id o)).isSome → o < next st
  names : ∀ st id o e, (d (.sig st id o)).isSome → recordAt d st o = some e → e.signalID = id
  exact_of_le : ∀ st id o, covered st ≤ o →
    ((d (.sig st id o)).isSome ↔ ∃ e, recordAt d st o = some e ∧ e.signalID = id ∧ id ≠ "")

/-- **The target index.** From the covered offset on every command has its key, and no key at the
offset of a record names another target. -/
structure Targeted (covered next : Stream → ℕ) (d : Disk) : Prop where
  lt_next : ∀ st node o, (d (.target st node o)).isSome → o < next st
  names : ∀ st node o e, (d (.target st node o)).isSome → recordAt d st o = some e →
    commandTarget e.topic = some node
  complete : ∀ st node o e, covered st ≤ o → recordAt d st o = some e →
    commandTarget e.topic = some node → (d (.target st node o)).isSome

/-- **The contract index** has exactly one key for each entry whose topic names a contract. -/
def KVIndexed (d : Disk) : Prop :=
  ∀ ct path node topic, (d (.kvIndex ct path node topic)).isSome ↔
    (d (.kv path node topic)).isSome ∧ contractOf topic = some ct

/-- The laws of a store's disk. -/
structure Layout (lwm sigFrom targetFrom next : Stream → ℕ) (d : Disk) : Prop where
  records : RecordsWithin lwm next d
  sig : SigIndexed sigFrom next d
  target : Targeted targetFrom next d
  kv : KVIndexed d

section Head

variable {d : Disk} {lwm covered next : Stream → ℕ}

/-- At and above the head there is nothing to index. -/
theorem SigIndexed.of_below (hr : RecordsWithin lwm next d)
    (hlt : ∀ st id o, (d (.sig st id o)).isSome → o < next st)
    (hnames : ∀ st id o e, (d (.sig st id o)).isSome → recordAt d st o = some e → e.signalID = id)
    (hexact : ∀ st, covered st < next st → ∀ id o, covered st ≤ o →
      ((d (.sig st id o)).isSome ↔ ∃ e, recordAt d st o = some e ∧ e.signalID = id ∧ id ≠ "")) :
    SigIndexed covered next d where
  lt_next := hlt
  names := hnames
  exact_of_le st id o hle := by
    by_cases ho : o < next st
    · exact hexact st (hle.trans_lt ho) id o hle
    · constructor
      · exact fun hkey ↦ absurd (hlt st id o hkey) ho
      · rintro ⟨e, he, -⟩
        exact absurd (hr.lt_next st o e he) ho

theorem Targeted.of_below (hr : RecordsWithin lwm next d)
    (hlt : ∀ st node o, (d (.target st node o)).isSome → o < next st)
    (hnames : ∀ st node o e, (d (.target st node o)).isSome → recordAt d st o = some e →
      commandTarget e.topic = some node)
    (hcomplete : ∀ st, covered st < next st → ∀ node o e, covered st ≤ o → recordAt d st o = some e →
      commandTarget e.topic = some node → (d (.target st node o)).isSome) : Targeted covered next d where
  lt_next := hlt
  names := hnames
  complete st node o e hle he := hcomplete st (hle.trans_lt (hr.lt_next st o e he)) node o e hle he

end Head

/-! ### One record -/

section Add

variable {d : Disk} {c : Codec} {st : Stream} {r : Record} {lwm next covered : Stream → ℕ}

/-- Offsets below a head are below the head after one more record. -/
theorem lt_update_succ {next : Stream → ℕ} {st st' : Stream} {o : ℕ}
    (h : o < next st' ∨ (st' = st ∧ o = next st)) : o < update next st (next st + 1) st' := by
  by_cases hst : st' = st
  · subst hst
    rw [update_self]
    rcases h with h | ⟨-, rfl⟩
    · exact Nat.lt_succ_of_lt h
    · exact Nat.lt_succ_self _
  · rw [update_of_ne hst]
    exact h.resolve_right fun h ↦ hst h.1

/-- A record at the head of its stream. -/
theorem RecordsWithin.add (h : RecordsWithin lwm next d) (hle : lwm st ≤ next st) :
    RecordsWithin lwm (update next st (next st + 1))
      (apply d (addRecord c st (next st) r).1) where
  lwm_le st' o e he := by
    rw [recordAt_addRecord] at he
    split at he
    · rename_i heq
      rw [heq.1, heq.2]
      exact hle
    · exact h.lwm_le st' o e he
  lt_next st' o e he := by
    rw [recordAt_addRecord] at he
    split at he
    · rename_i heq
      exact lt_update_succ (.inr heq)
    · exact lt_update_succ (.inl (h.lt_next st' o e he))

/-- The key of an index after a record at the head, where nothing pointed before it. -/
theorem isSome_apply_add (st : Stream) {b : Batch Key Val} {st' : Stream} {o : ℕ} {k : Key} {P : Prop} [Decidable P]
    (hlt : (d k).isSome → o < next st')
    (hb : apply d b k = if st' = st ∧ o = next st ∧ P then some .mark else d k) :
    (apply d b k).isSome ↔ if st' = st ∧ o = next st then P else (d k).isSome := by
  rw [hb]
  by_cases hnew : st' = st ∧ o = next st
  · have hfresh : ¬ (d k).isSome := fun hsome ↦ by
      obtain ⟨rfl, rfl⟩ := hnew
      exact Nat.lt_irrefl _ (hlt hsome)
    by_cases hP : P <;> simp [hnew, hP, hfresh]
  · rw [if_neg hnew, if_neg fun hall ↦ hnew ⟨hall.1, hall.2.1⟩]

theorem SigIndexed.add (h : SigIndexed covered next d) :
    SigIndexed covered (update next st (next st + 1))
      (apply d (addRecord c st (next st) r).1) := by
  have hkey := fun st' id o ↦
    isSome_apply_add st (h.lt_next st' id o) (apply_addRecord_sig (c := c) (r := r))
  refine ⟨fun st' id o ↦ ?_, fun st' id o e ↦ ?_, fun st' id o hle ↦ ?_⟩
  · rw [hkey]
    split
    · exact fun _ ↦ lt_update_succ (.inr ‹_›)
    · exact fun hsig ↦ lt_update_succ (.inl (h.lt_next st' id o hsig))
  · rw [hkey, recordAt_addRecord]
    split
    · rintro hid ⟨⟩
      exact hid.1
    · exact h.names st' id o e
  · rw [hkey, recordAt_addRecord]
    split
    · simp
    · exact h.exact_of_le st' id o hle

theorem Targeted.add (h : Targeted covered next d) :
    Targeted covered (update next st (next st + 1))
      (apply d (addRecord c st (next st) r).1) := by
  have hkey := fun st' node o ↦
    isSome_apply_add st (h.lt_next st' node o) (apply_addRecord_target (c := c) (r := r))
  refine ⟨fun st' node o ↦ ?_, fun st' node o e ↦ ?_, fun st' node o e hle ↦ ?_⟩
  · rw [hkey]
    split
    · exact fun _ ↦ lt_update_succ (.inr ‹_›)
    · exact fun hsome ↦ lt_update_succ (.inl (h.lt_next st' node o hsome))
  · rw [hkey, recordAt_addRecord]
    split
    · rintro ht ⟨⟩
      exact ht
    · exact h.names st' node o e
  · rw [hkey, recordAt_addRecord]
    split
    · rintro ⟨⟩
      exact id
    · exact h.complete st' node o e hle

end Add

/-! ### One entry -/

/-- Writing or deleting an entry together with its key in the index. -/
theorem KVIndexed.pair {d d' : Disk} {path : Path} {node : String} {topic : Topic} {v i : Option Val}
    (h : KVIndexed d) (hd : ∀ k, d' k = match contractOf topic with
      | some ct =>
        if k = .kvIndex ct path node topic then i else if k = .kv path node topic then v else d k
      | none => if k = .kv path node topic then v else d k)
    (hvi : i.isSome = v.isSome) : KVIndexed d' := by
  intro ct path' node' topic'
  rw [hd, hd]
  have hk := h ct path' node' topic'
  by_cases heq : Key.kv path' node' topic' = Key.kv path node topic
  · cases heq
    cases hc : contractOf topic with
    | none =>
      rw [hc] at hk
      simpa using hk
    | some ct' =>
      rw [hc] at hk
      by_cases hct : ct = ct'
      · subst hct
        simp [hvi]
      · have hne : ct' ≠ ct := Ne.symm hct
        simpa [hct, hne] using hk
  · have hne : ∀ ct', Key.kvIndex ct path' node' topic' ≠ Key.kvIndex ct' path node topic := by
      rintro ct' h
      cases h
      exact heq rfl
    cases contractOf topic with
    | none => simpa [heq] using hk
    | some ct' => simpa [heq, hne ct'] using hk

theorem KVIndexed.deleteKV {d : Disk} (h : KVIndexed d) (path : Path) (node : String) (topic : Topic) :
    KVIndexed (apply d (deleteKV path node topic)) :=
  h.pair (apply_deleteKV d path node topic) rfl

theorem KVIndexed.setKV {d : Disk} (h : KVIndexed d) (path : Path) (node : String) (topic : Topic)
    (e : KVEnc) : KVIndexed (apply d (setKV path node topic e)) :=
  h.pair (apply_setKV d path node topic e) rfl

theorem KVIndexed.congr {d d' : Disk} (h : KVIndexed d) (heq : ∀ k, k.isState → d' k = d k) :
    KVIndexed d' := by
  intro ct path node topic
  rw [heq _ rfl, heq _ rfl]
  exact h ct path node topic

theorem KVIndexed.add {d : Disk} {c : Codec} {st : Stream} {off : ℕ} {r : Record} (h : KVIndexed d) :
    KVIndexed (apply d (addRecord c st off r).1) := by
  rw [addRecord_fst, apply_append]
  have hw : KVIndexed (apply d (recordWrites c st off r)) :=
    h.congr fun k hk ↦ apply_recordWrites_of_state hk
  unfold kvWrites
  split
  · exact hw
  · split
    · exact hw.deleteKV _ _ _
    · exact hw.setKV _ _ _ _

/-! ### The laws along a draft -/

section Laws

variable {d d' : Disk} {c : Codec} {b b₀ : Draft} {lwm sigFrom targetFrom next : Stream → ℕ}

/-- A change of the current state and of counters. -/
theorem Layout.of_state (h : Layout lwm sigFrom targetFrom next d)
    (hd : ∀ k, k.isCounter = false → k.isState = false → d' k = d k) (hkv : KVIndexed d') :
    Layout lwm sigFrom targetFrom next d' := by
  have hrec : ∀ st o, recordAt d' st o = recordAt d st o := fun st o ↦ recordAt_congr (hd _ rfl rfl)
  have hsig : ∀ st id o, d' (.sig st id o) = d (.sig st id o) := fun st id o ↦ hd _ rfl rfl
  have htarget : ∀ st node o, d' (.target st node o) = d (.target st node o) :=
    fun st node o ↦ hd _ rfl rfl
  refine ⟨⟨?_, ?_⟩, ⟨?_, ?_, ?_⟩, ⟨?_, ?_, ?_⟩, hkv⟩
  · simpa only [hrec] using h.records.lwm_le
  · simpa only [hrec] using h.records.lt_next
  · simpa only [hsig] using h.sig.lt_next
  · simpa only [hsig, hrec] using h.sig.names
  · simpa only [hsig, hrec] using h.sig.exact_of_le
  · simpa only [htarget] using h.target.lt_next
  · simpa only [htarget, hrec] using h.target.names
  · simpa only [htarget, hrec] using h.target.complete

theorem Key.not_counter_of_state {k : Key} (hk : k.isState) : k.isCounter = false := by
  cases k <;> first | rfl | cases hk

/-- The laws look at records, index entries and current-state entries, not at counters. -/
theorem Layout.congr (h : Layout lwm sigFrom targetFrom next d)
    (hd : ∀ k, k.isCounter = false → d' k = d k) : Layout lwm sigFrom targetFrom next d' :=
  h.of_state (fun k hk _ ↦ hd k hk) (h.kv.congr fun k hk ↦ hd k (Key.not_counter_of_state hk))

theorem Layout.deleteKV (h : Layout lwm sigFrom targetFrom next d) (path : Path) (node : String)
    (topic : Topic) : Layout lwm sigFrom targetFrom next (apply d (deleteKV path node topic)) :=
  h.of_state (fun _ _ hk ↦ apply_deleteKV_of_not_state hk) (h.kv.deleteKV path node topic)

/-- **Every write path keeps the laws.** -/
theorem Layout.adds (h : Layout lwm sigFrom targetFrom b₀.next (b₀.view d)) (hadds : b₀.Adds c b)
    (hle : ∀ st, lwm st ≤ b₀.next st) : Layout lwm sigFrom targetFrom b.next (b.view d) := by
  induction hadds with
  | refl => exact h
  | @add b st r hb hfix ih =>
    rw [Draft.view_add hfix, Draft.add_next hfix]
    exact ⟨ih.records.add ((hle st).trans (hb.next_le st)), ih.sig.add, ih.target.add, ih.kv.add⟩
  | retire k _ ih =>
    rw [Draft.view_retire]
    exact ih.deleteKV _ _ _
  | evict k _ ih =>
    rw [Draft.view_evict]
    exact ih.deleteKV _ _ _

end Laws

/-! ### Removals -/

section Remove

variable {d : Disk} {st st' : Stream} {gone : List Gone} {o : ℕ}

/-- The disk without the keys a removal takes. -/
def removeKeys (d : Disk) (st : Stream) (gone : List Gone) : Disk :=
  Batch.apply d (gone.map fun g ↦ .delete (g.key st))

theorem Draft.view_remove (b : Draft) (d : Disk) (shed : ℕ) :
    (b.remove st gone shed).view d = removeKeys (b.view d) st gone :=
  apply_append d b.batch _

theorem removeKeys_apply (k : Key) :
    removeKeys d st gone k = if k ∈ gone.map (Gone.key st) then none else d k := by
  rw [removeKeys, ← apply_deletes, map_map]
  rfl

theorem mem_map_goneKey {g : Gone} : g.key st' ∈ gone.map (Gone.key st) → g ∈ gone := by
  intro h
  obtain ⟨g', hg', heq⟩ := mem_map.mp h
  have : g' = g := by cases g' <;> cases g <;> cases heq <;> rfl
  exact this ▸ hg'

/-- A key of another stream stays, and so does a key that is not named. -/
theorem removeKeys_of_not {g : Gone} (h : st' ≠ st ∨ g ∉ gone) :
    removeKeys d st gone (g.key st') = d (g.key st') := by
  rw [removeKeys_apply, if_neg]
  intro hmem
  rcases h with h | h
  · obtain ⟨g', -, heq⟩ := mem_map.mp hmem
    cases g' <;> cases g <;> cases heq <;> exact h rfl
  · exact h (mem_map_goneKey hmem)

theorem removeKeys_of_mem {g : Gone} (h : g ∈ gone) : removeKeys d st gone (g.key st) = none := by
  rw [removeKeys_apply, if_pos (mem_map_of_mem h)]

/-- Nothing appears. -/
theorem isSome_of_removeKeys {k : Key} (h : (removeKeys d st gone k).isSome) : (d k).isSome := by
  rw [removeKeys_apply] at h
  split at h
  · cases h
  · exact h

theorem recordAt_removeKeys_of_not (h : st' ≠ st ∨ record o ∉ gone) :
    recordAt (removeKeys d st gone) st' o = recordAt d st' o :=
  recordAt_congr (removeKeys_of_not (g := .record o) h)

theorem recordAt_removeKeys_of_mem (h : record o ∈ gone) : recordAt (removeKeys d st gone) st o = none := by
  have hnone : removeKeys d st gone (.stream st o) = none := removeKeys_of_mem h
  rw [recordAt, hnone]

theorem recordAt_removeKeys : recordAt (removeKeys d st gone) st' o =
    if st' = st ∧ .record o ∈ gone then none else recordAt d st' o := by
  by_cases h : st' = st ∧ record o ∈ gone
  · rw [if_pos h, h.1, recordAt_removeKeys_of_mem h.2]
  · rw [if_neg h]
    refine recordAt_removeKeys_of_not ?_
    by_cases hst : st' = st
    · exact .inr fun hmem ↦ h ⟨hst, hmem⟩
    · exact .inl hst

/-- A record that is there after a removal was there, and was not named. -/
theorem recordAt_of_removeKeys {e : RecEnc} (h : recordAt (removeKeys d st gone) st' o = some e) :
    recordAt d st' o = some e ∧ (st' ≠ st ∨ record o ∉ gone) := by
  rw [recordAt_removeKeys] at h
  split at h
  · cases h
  · rename_i hnot
    refine ⟨h, ?_⟩
    by_cases hst : st' = st
    · exact .inr fun hmem ↦ hnot ⟨hst, hmem⟩
    · exact .inl hst

/-- A removal is **whole**: the signal index entry of a record goes with it, and no index entry goes
without its record. -/
structure Gone.Whole (d : Disk) (st : Stream) (gone : List Gone) : Prop where
  sig_of_record : ∀ o e, .record o ∈ gone → recordAt d st o = some e → e.signalID ≠ "" →
    .sig e.signalID o ∈ gone
  record_of_sig : ∀ id o, .sig id o ∈ gone → .record o ∈ gone
  record_of_target : ∀ node o, .target node o ∈ gone → .record o ∈ gone

variable {lwm sigFrom targetFrom next : Stream → ℕ} {mark : ℕ}

theorem RecordsWithin.remove (h : RecordsWithin lwm next d)
    (hmark : ∀ o e, recordAt d st o = some e → .record o ∉ gone → mark ≤ o) :
    RecordsWithin (update lwm st mark) next (removeKeys d st gone) where
  lwm_le st' o e he := by
    obtain ⟨hold, hnot⟩ := recordAt_of_removeKeys he
    by_cases hst : st' = st
    · subst hst
      rw [update_self]
      exact hmark o e hold (hnot.resolve_left fun hne ↦ hne rfl)
    · rw [update_of_ne hst]
      exact h.lwm_le st' o e hold
  lt_next st' o e he := h.lt_next st' o e (recordAt_of_removeKeys he).1

theorem SigIndexed.remove (h : SigIndexed sigFrom next d) (hw : Whole d st gone) :
    SigIndexed sigFrom next (removeKeys d st gone) where
  lt_next st' id o hkey := h.lt_next st' id o (isSome_of_removeKeys hkey)
  names st' id o e hkey he :=
    h.names st' id o e (isSome_of_removeKeys hkey) (recordAt_of_removeKeys he).1
  exact_of_le st' id o hle := by
    have hbefore := h.exact_of_le st' id o hle
    constructor
    · intro hkey
      obtain ⟨e, he, hid, hne⟩ := hbefore.mp (isSome_of_removeKeys hkey)
      refine ⟨e, ?_, hid, hne⟩
      rw [recordAt_removeKeys, if_neg, he]
      -- had the record gone, its entry would have gone with it
      rintro ⟨rfl, hmem⟩
      have hsig : Gone.sig id o ∈ gone := hid ▸ hw.sig_of_record o e hmem he (hid ▸ hne)
      have hnone : removeKeys d st' gone (.sig st' id o) = none := removeKeys_of_mem hsig
      rw [hnone] at hkey
      cases hkey
    · rintro ⟨e, he, hid, hne⟩
      obtain ⟨he, hnot⟩ := recordAt_of_removeKeys he
      have hsame : removeKeys d st gone (.sig st' id o) = d (.sig st' id o) :=
        removeKeys_of_not (g := .sig id o)
          (hnot.imp_right fun hrec hsig ↦ hrec (hw.record_of_sig id o hsig))
      rw [hsame]
      exact hbefore.mpr ⟨e, he, hid, hne⟩

theorem Targeted.remove (h : Targeted targetFrom next d) (hw : Whole d st gone) :
    Targeted targetFrom next (removeKeys d st gone) where
  lt_next st' node o hkey := h.lt_next st' node o (isSome_of_removeKeys hkey)
  names st' node o e hkey he :=
    h.names st' node o e (isSome_of_removeKeys hkey) (recordAt_of_removeKeys he).1
  complete st' node o e hle he ht := by
    obtain ⟨he, hnot⟩ := recordAt_of_removeKeys he
    have hsame : removeKeys d st gone (.target st' node o) = d (.target st' node o) :=
      removeKeys_of_not (g := .target node o)
        (hnot.imp_right fun hrec hkey ↦ hrec (hw.record_of_target node o hkey))
    rw [hsame]
    exact h.complete st' node o e hle he ht

/-- **A whole removal keeps the laws**, with any low-water mark that no remaining record is below. -/
theorem Layout.remove (h : Layout lwm sigFrom targetFrom next d) (hw : Whole d st gone)
    (hmark : ∀ o e, recordAt d st o = some e → .record o ∉ gone → mark ≤ o) :
    Layout (update lwm st mark) sigFrom targetFrom next (removeKeys d st gone) where
  records := h.records.remove hmark
  sig := h.sig.remove hw
  target := h.target.remove hw
  kv := h.kv.congr fun k hk ↦ by
    rw [removeKeys_apply, if_neg]
    intro hmem
    obtain ⟨g, -, rfl⟩ := mem_map.mp hmem
    cases g <;> cases hk

end Remove

end Colca
