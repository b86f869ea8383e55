import Colca.Store.Fold

/-!
# Grouped appends

Concurrent local appends share a commit. `commitAppends` takes the requests of a group in the order of the
queue and writes them as one batch, with heads and byte counts running ahead of the store. Only the
replication policy of a metric is read from the committed state, from the current-state entry of its
signal; so a metric after a request that writes a signal starts the next batch.

With every batch applied, the group leaves what its requests leave one after another (`grouped_appends`).
The cut knows a signal by its topic, and a topic that does not parse is nobody's: an entry written under one
can still be what a metric of another root reads (`overlong_signal_topic`).
-/

namespace Colca.AppendGroup

open Uns List Function Option Draft Store

/-- What the append path takes from outside the store. -/
structure Env where
  codec : Codec
  /-- The largest payload of a local append, `0` for no bound. -/
  maxRecordBytes : ℕ
  /-- The first segment of the node's topics. -/
  root : String
  /-- The `replication_policy` of a signal payload, the outer `none` when it does not decode. -/
  policyField : Payload → Option (Option String)

/-- Why a request fails. -/
inductive AppendError
  /-- `unknown stream %q` -/
  | unknownStream (name : String)
  /-- `stream %q record %d (%s): %d bytes > %d: record payload exceeds the configured limit` -/
  | tooLarge (stream : String) (record : ℕ) (topic : Topic) (bytes limit : ℕ)
  /-- The payload of the signal does not decode. -/
  | payload
  /-- `invalid signal replication_policy %q` -/
  | policy (policy : String)
  /-- The batch was not applied. -/
  | apply
  deriving DecidableEq

/-- The first and the last offset of a request, or why it failed. -/
abbrev Answer := Except AppendError (ℕ × ℕ)

variable (env : Env)

/-! ### Replication policies -/

/-- `SignalSourceLocalOnly`. -/
def signalSourceLocalOnly (signal : Payload) : Except AppendError Bool :=
  match env.policyField signal with
  | none => .error .payload
  | some none => .ok false
  | some (some policy) =>
    if policy = "replicate_to_parents" then .ok false
    else if policy = "source_local_only" then .ok true
    else .error (.policy policy)

/-- `SignalTopicForMetric`. -/
def signalTopic (node : String) (path : Path) : Topic := env.root :: "v1" :: "_Signal" :: node :: path

/-- `MetricSignalKey`: the entry of the signal a metric is of. -/
def metricSignalKey (t : Topic) : Option KVKey :=
  match parse t with
  | .ok p => if p.contract = "_Metric" then some ⟨p.path, p.nodeID, signalTopic env p.nodeID p.path⟩ else none
  | .error _ => none

/-- `DecidesReplication`: a record at the topic can change how later records replicate. -/
def decidesReplication (t : Topic) : Bool :=
  match parse t with
  | .ok p => p.contract = "_Signal"
  | .error _ => false

/-- Whether a metric stays local. The cache of the code holds answers under the value they came from. -/
def metricSourceLocalOnly (d : Disk) (r : Record) : Except AppendError Bool :=
  match metricSignalKey env r.topic with
  | some k =>
    match entryAt d k with
    | some (.kv entry) => signalSourceLocalOnly env entry.payload
    | _ => .ok false
  | none => .ok false

/-! ### Requests -/

/-- `checkAppend`, with the error of a record over the cap. -/
def checkAppend (d : Disk) (st : Stream) (recs : List Record) : Except AppendError (Option (List Bool)) :=
  checkFlags env.maxRecordBytes
    (fun i r ↦ .tooLarge st.name i r.topic r.payload.length env.maxRecordBytes)
    (metricSourceLocalOnly env d) st recs

/-- The records of a request as they are written, once it has passed its checks. -/
def check (d : Disk) (r : AppendRequest) : Except AppendError (List Record) :=
  if r.stream.isFixed then (checkAppend env d r.stream r.recs).map (writeAppend r.recs)
  else .error (.unknownStream r.stream.name)

/-- The loop of `commitAppendBatch`, with the heads, byte counts and writes so far. -/
def collect (s : Store) : Draft → List AppendRequest → List Answer × Draft
  | b, [] => ([], b)
  | b, r :: rs =>
    match check env s.disk r with
    | .error e => ((.error e) :: (collect s b rs).1, (collect s b rs).2)
    | .ok recs =>
      let b' := b.addAll env.codec (recs.map (r.stream, ·))
      ((.ok (b.next r.stream, b'.next r.stream - 1)) :: (collect s b' rs).1, (collect s b' rs).2)

/-- A request that was to be committed fails. -/
def Answer.failed : Answer → Answer
  | .ok _ => .error .apply
  | .error e => .error e

/-- `commitAppendBatch`; `applied` says whether the batch is applied. -/
def commitAppendBatch (s : Store) (group : List AppendRequest) (applied : Bool) : List Answer × Store :=
  let x := collect env s s.draft group
  if x.1.any (·.isOk) then if applied then (x.1, s.commit x.2) else (x.1.map Answer.failed, s)
  else (x.1, s)

def writesSignal (recs : List Record) : Bool :=
  recs.any fun r ↦ decide (r.kvPath ≠ noPath) && decidesReplication r.topic

/-- The requests of the next batch, and those after it. -/
def takeBatch : Bool → List AppendRequest → List AppendRequest × List AppendRequest
  | _, [] => ([], [])
  | signal, r :: rs =>
    if signal && decide (r.stream = .metrics) then ([], r :: rs)
    else
      let x := takeBatch (signal || writesSignal r.recs) rs
      (r :: x.1, x.2)

theorem takeBatch_append (signal : Bool) (rs : List AppendRequest) :
    (takeBatch signal rs).1 ++ (takeBatch signal rs).2 = rs := by
  induction rs generalizing signal with
  | nil => rfl
  | cons r rs ih =>
    rw [takeBatch]
    split
    · rfl
    · exact congrArg (r :: ·) (ih _)

theorem takeBatch_length (signal : Bool) (rs : List AppendRequest) :
    (takeBatch signal rs).2.length ≤ rs.length := by
  have h := congrArg List.length (takeBatch_append signal rs)
  rw [length_append] at h
  omega

/-- `commitAppends`; `applied` says of each batch whether it is applied. -/
def commitAppends (s : Store) (applied : ℕ → Bool) : List AppendRequest → List Answer × Store
  | [] => ([], s)
  | r :: rs =>
    let cut := takeBatch (writesSignal r.recs) rs
    let x := commitAppendBatch env s (r :: cut.1) (applied 0)
    let y := commitAppends x.2 (fun n ↦ applied (n + 1)) cut.2
    (x.1 ++ y.1, y.2)
  termination_by rs => rs.length
  decreasing_by exact Nat.lt_succ_of_le (takeBatch_length _ _)

/-- Every request in a commit of its own. -/
def commitEach (s : Store) : List AppendRequest → List Answer × Store
  | [] => ([], s)
  | r :: rs =>
    let x := commitAppendBatch env s [r] true
    let y := commitEach x.2 rs
    (x.1 ++ y.1, y.2)

/-! ### The queue -/

/-- How many records one group may have. -/
def maxGroupRecords : ℕ := 4096

/-- The loop of `takeGroup`, with the records so far. -/
def takeWithin : ℕ → List AppendRequest → List AppendRequest × List AppendRequest
  | _, [] => ([], [])
  | n, r :: rs =>
    if n + r.recs.length ≤ maxGroupRecords then
      (r :: (takeWithin (n + r.recs.length) rs).1, (takeWithin (n + r.recs.length) rs).2)
    else ([], r :: rs)

theorem takeWithin_append (n : ℕ) (rs : List AppendRequest) :
    (takeWithin n rs).1 ++ (takeWithin n rs).2 = rs := by
  induction rs generalizing n with
  | nil => rfl
  | cons r rs ih =>
    unfold takeWithin
    split
    · exact congrArg (r :: ·) (ih _)
    · rfl

/-- The leaders of the queue commit what is pending, one group after another. -/
def drain (s : Store) : List AppendRequest → List Answer × Store
  | [] => ([], s)
  | r :: rs =>
    let group := takeWithin r.recs.length rs
    let x := commitAppends env s (fun _ ↦ true) (r :: group.1)
    let y := drain x.2 group.2
    (x.1 ++ y.1, y.2)
  termination_by rs => rs.length
  decreasing_by
    have h := congrArg List.length (takeWithin_append r.recs.length rs)
    simp only [length_append] at h
    exact Nat.lt_succ_of_le (h ▸ Nat.le_add_left _ _)

/-- A record that sets a current-state entry is of the namespace. -/
def TopicsParse (group : List AppendRequest) : Prop :=
  ∀ q ∈ group, ∀ r ∈ q.recs, r.kvPath ≠ noPath → (parse r.topic).isOk = true

instance (group : List AppendRequest) : Decidable (TopicsParse group) :=
  inferInstanceAs (Decidable (∀ q ∈ group, ∀ r ∈ q.recs, _))

/-! ### The batch of a group -/

/-- The parameters of the other write paths. -/
def Env.toWriteEnv : WriteEnv where
  codec := env.codec
  maxRecordBytes := env.maxRecordBytes
  localOnly d r := (metricSourceLocalOnly env d r).toOption

section Admitted

variable {env} {s : Store} {b : Draft}

theorem toOption_mapM {ε : Type} (f : Record → Except ε Bool) (recs : List Record) :
    (recs.mapM f).toOption = recs.mapM fun r ↦ (f r).toOption := by
  induction recs with
  | nil => rfl
  | cons r recs ih =>
    rw [mapM_cons, mapM_cons, ← ih]
    cases f r with
    | error e => rfl
    | ok l => cases recs.mapM f <;> rfl

/-- What the errors say does not matter. -/
theorem checkFlags_toOption {ε : Type} {cap : ℕ} {tooLarge : ℕ → Record → ε} {f : Record → Except ε Bool}
    {g : Record → Except Unit Bool} (h : ∀ r, (g r).toOption = (f r).toOption) (st : Stream)
    (recs : List Record) :
    (checkFlags cap tooLarge f st recs).toOption = (checkFlags cap (fun _ _ ↦ ()) g st recs).toOption := by
  unfold checkFlags
  split
  · rfl
  · split
    · rfl
    · have hmap : (recs.mapM f).toOption = (recs.mapM g).toOption := by
        rw [toOption_mapM, toOption_mapM, funext h]
      cases hf : recs.mapM f <;> cases hg : recs.mapM g <;> rw [hf, hg] at hmap <;> cases hmap <;> rfl

theorem check_toOption (r : AppendRequest) :
    ((check env s.disk r).toOption.getD []).map (r.stream, ·) = r.admitted env.toWriteEnv s := by
  unfold check AppendRequest.admitted
  split
  · refine congrArg (fun x ↦ (Option.getD x []).map (r.stream, ·)) ?_
    rw [Colca.checkAppend, ← checkFlags_toOption (f := metricSourceLocalOnly env s.disk)
      fun x ↦ by cases h : metricSourceLocalOnly env s.disk x <;> simp [Env.toWriteEnv, h] <;> rfl]
    show ((checkAppend env s.disk r.stream r.recs).map _).toOption =
      (checkAppend env s.disk r.stream r.recs).toOption.map _
    cases checkAppend env s.disk r.stream r.recs <;> rfl
  · rfl

/-- A batch adds the records of the requests that pass their checks. -/
theorem collect_draft (group : List AppendRequest) : (collect env s b group).2 =
    b.addAll env.codec (group.flatMap (·.admitted env.toWriteEnv s)) := by
  induction group generalizing b with
  | nil => rfl
  | cons r group ih =>
    rw [flatMap_cons, addAll_append, ← check_toOption, collect]
    cases check env s.disk r <;> exact ih

end Admitted

/-! ### Two commits in one -/

section Commit

variable {c : Codec} {b b' : Draft} {s : Store} {st : Stream}

/-- A draft grows by what is added to it, whatever it is the draft of. -/
theorem addAll_of_eq {w : Batch Key Val} (xs : List (Stream × Record)) (hn : b'.next = b.next)
    (hb : b'.bytes = b.bytes) (hw : b'.batch = w ++ b.batch) :
    (b'.addAll c xs).next = (b.addAll c xs).next ∧ (b'.addAll c xs).bytes = (b.addAll c xs).bytes ∧
      (b'.addAll c xs).batch = w ++ (b.addAll c xs).batch := by
  induction xs generalizing b b' with
  | nil => exact ⟨hn, hb, hw⟩
  | cons x xs ih =>
    by_cases hfix : x.1.isFixed
    · refine ih ?_ ?_ ?_
      · rw [add_next hfix, add_next hfix, hn]
      · rw [add_bytes hfix, add_bytes hfix, hb, hn]
      · rw [add_batch hfix, add_batch hfix, hw, hn, append_assoc]
    · refine ih ?_ ?_ ?_ <;> simpa [add, hfix]

/-- Heads and byte counts only move up. -/
def Grows (s : Store) (b : Draft) : Prop := ∀ st, s.mem.next st ≤ b.next st ∧ s.mem.bytes st ≤ b.bytes st

theorem Grows.addAll (h : Grows s b) (xs : List (Stream × Record)) : Grows s (b.addAll c xs) := by
  induction xs generalizing b with
  | nil => exact h
  | cons x xs ih =>
    refine ih fun st ↦ ?_
    by_cases hfix : x.1.isFixed
    · rw [add_next hfix, add_bytes hfix]
      by_cases hst : st = x.1
      · subst hst
        rw [update_self, update_self]
        exact ⟨(h _).1.trans (Nat.le_succ _), (h _).2.trans (Nat.le_add_right _ _)⟩
      · rw [update_of_ne hst, update_of_ne hst]
        exact h st
    · show s.mem.next st ≤ (b.add c x.1 x.2).next st ∧ s.mem.bytes st ≤ (b.add c x.1 x.2).bytes st
      rw [add, dif_neg hfix]
      exact h st

/-- A counter after two commits is as after one. -/
theorem counter_eq {v : Option Val} {x y z : ℕ} (hxy : x ≤ y) (hyz : y ≤ z) :
    (if z = y then if y = x then v else some (.num y) else some (.num z)) =
      if z = x then v else some (.num z) := by
  split_ifs <;> first | rfl | omega | simp_all

theorem disk_of_not_fixed {k : Key} (hfix : ¬ st.isFixed) (hk : k = .head st ∨ k = .indexed st ∨ k = .bytes st) :
    b.disk s k = s.disk k := by
  refine disk_counter_of_not_mem (by obtain rfl | rfl | rfl := hk <;> rfl) fun w hw heq ↦ ?_
  obtain ⟨st', hst', ⟨-, rfl | rfl⟩ | ⟨-, rfl⟩⟩ := mem_counters.mp hw <;>
    obtain rfl | rfl | rfl := hk <;> cases heq <;> exact hfix hst'

/-- What is drafted after a commit is what would have been drafted without it, less what is written. -/
theorem addAll_commit (s : Store) (b : Draft) (c : Codec) (xs : List (Stream × Record)) :
    (b.addAll c xs).next = ((s.commit b).draft.addAll c xs).next ∧
      (b.addAll c xs).bytes = ((s.commit b).draft.addAll c xs).bytes ∧
      (b.addAll c xs).batch = b.batch ++ ((s.commit b).draft.addAll c xs).batch :=
  addAll_of_eq xs rfl rfl (append_nil _).symm

theorem store_ext {s s' : Store} (hd : s.disk = s'.disk) (hm : s.mem = s'.mem) : s = s' := by
  cases s
  cases s'
  cases hd
  cases hm
  rfl

/-- **Two commits leave what one does.** -/
theorem commit_commit (hg : Grows s b) (xs : List (Stream × Record)) :
    (s.commit b).commit ((s.commit b).draft.addAll c xs) = s.commit (b.addAll c xs) := by
  obtain ⟨hn, hb, hw⟩ := addAll_commit s b c xs
  have hg' : Grows (s.commit b) (b.addAll c xs) := Grows.addAll (fun _ ↦ ⟨le_rfl, le_rfl⟩) xs
  refine store_ext (funext fun k ↦ ?_) (by simp only [commit, hn, hb])
  show ((s.commit b).draft.addAll c xs).disk (s.commit b) k = (b.addAll c xs).disk s k
  by_cases hk : k.isCounter = false
  · rw [disk_of_not_counter hk, disk_of_not_counter hk, hw, Batch.apply_append]
    exact Batch.apply_congr (disk_of_not_counter hk)
  · have hother : ∀ st, ¬ st.isFixed → (k = .head st ∨ k = .indexed st ∨ k = .bytes st) →
        ((s.commit b).draft.addAll c xs).disk (s.commit b) k = (b.addAll c xs).disk s k := fun st hfix hk ↦ by
      rw [disk_of_not_fixed hfix hk, disk_of_not_fixed hfix hk]
      exact disk_of_not_fixed hfix hk
    cases k with
    | head st =>
      by_cases hfix : st.isFixed
      · rw [disk_head hfix, disk_head hfix, ← hn,
          show (s.commit b).disk (.head st) = _ from disk_head hfix]
        exact counter_eq (hg st).1 (hg' st).1
      · exact hother st hfix (.inl rfl)
    | indexed st =>
      by_cases hfix : st.isFixed
      · rw [disk_indexed hfix, disk_indexed hfix, ← hn,
          show (s.commit b).disk (.indexed st) = _ from disk_indexed hfix]
        exact counter_eq (hg st).1 (hg' st).1
      · exact hother st hfix (.inr (.inl rfl))
    | bytes st =>
      by_cases hfix : st.isFixed
      · rw [disk_bytes hfix, disk_bytes hfix, ← hb,
          show (s.commit b).disk (.bytes st) = _ from disk_bytes hfix]
        exact counter_eq (hg st).2 (hg' st).2
      · exact hother st hfix (.inr (.inr rfl))
    | hwm child st =>
      rw [disk_hwm, disk_hwm]
      exact disk_hwm child
    | _ => exact absurd rfl hk

theorem commit_draft (s : Store) : s.commit s.draft = s := by
  have hnone : s.draft.counters s.mem = [] := by simp [counters, draft]
  refine store_ext ?_ rfl
  show Batch.apply s.disk ([] ++ s.draft.counters s.mem) = s.disk
  rw [hnone]
  rfl

end Commit

/-! ### Signals -/

section Signals

variable {env} {c : Codec} {d d' : Disk} {b : Draft} {r : Record} {q : AppendRequest} {recs : List Record}

/-- The entries that metrics read. -/
def SameSignals (env : Env) (d d' : Disk) : Prop := ∀ node path,
  entryAt d ⟨path, node, signalTopic env node path⟩ = entryAt d' ⟨path, node, signalTopic env node path⟩

theorem metricSignalKey_eq {t : Topic} {k : KVKey} (h : metricSignalKey env t = some k) :
    k = ⟨k.path, k.node, signalTopic env k.node k.path⟩ := by
  unfold metricSignalKey at h
  split at h
  · obtain ⟨-, h⟩ := ite_none_right_eq_some.mp h
    cases h
    rfl
  · cases h

theorem metricSourceLocalOnly_congr (h : SameSignals env d d') (r : Record) :
    metricSourceLocalOnly env d r = metricSourceLocalOnly env d' r := by
  unfold metricSourceLocalOnly
  cases hk : metricSignalKey env r.topic with
  | none => rfl
  | some k =>
    have hentry : entryAt d k = entryAt d' k := by
      rw [metricSignalKey_eq hk]
      exact h k.node k.path
    simp only [hentry]

/-- Only the checks of metrics read the store. -/
theorem check_congr (h : q.stream = .metrics → SameSignals env d d') : check env d q = check env d' q := by
  unfold check checkAppend checkFlags
  by_cases hm : q.stream = .metrics
  · rw [funext (metricSourceLocalOnly_congr (h hm))]
  · simp only [if_pos hm]

/-- What is written of a request has the topics and entries of its records. -/
theorem check_recs (h : check env d q = .ok recs) {x : Record} (hx : x ∈ recs) :
    ∃ y ∈ q.recs, x.topic = y.topic ∧ x.kvPath = y.kvPath := by
  unfold check at h
  split at h
  · cases hc : checkAppend env d q.stream q.recs with
    | error e =>
      rw [hc] at h
      cases h
    | ok flags =>
      rw [hc] at h
      cases h
      cases flags with
      | none => exact ⟨x, hx, rfl, rfl⟩
      | some ls =>
        rw [writeAppend, ← map_uncurry_zip_eq_zipWith] at hx
        obtain ⟨y, hy, rfl⟩ := mem_map.mp hx
        exact ⟨y.1, (of_mem_zip hy).1, rfl, rfl⟩
  · cases h

theorem entryAt_addRecord_of_ne {st : Stream} {off : ℕ} {k : KVKey} (h : r.kvPath ≠ noPath → r.kvKey ≠ k) :
    entryAt (Batch.apply d (addRecord c st off r).1) k = entryAt d k := by
  have hrec : entryAt (Batch.apply d (recordWrites c st off r)) k = entryAt d k :=
    apply_recordWrites_of_state rfl
  rw [addRecord_fst, Batch.apply_append]
  unfold kvWrites
  split
  · exact hrec
  · rename_i hp
    split
    · exact (entryAt_deleteKV r.kvKey).trans ((if_neg (h hp)).trans hrec)
    · exact (entryAt_setKV r.kvKey).trans ((if_neg (h hp)).trans hrec)

/-- Records that set no signal's entry leave them. -/
theorem sameSignals_addAll {xs : List (Stream × Record)}
    (h : ∀ x ∈ xs, x.2.kvPath ≠ noPath → ∀ node path, x.2.topic ≠ signalTopic env node path) :
    SameSignals env ((b.addAll c xs).view d) (b.view d) := by
  induction xs generalizing b with
  | nil => exact fun _ _ ↦ rfl
  | cons x xs ih =>
    intro node path
    refine (ih (fun y hy ↦ h y (mem_cons_of_mem _ hy)) node path).trans ?_
    show entryAt ((b.add c x.1 x.2).view d) _ = _
    by_cases hfix : x.1.isFixed
    · rw [view_add hfix]
      exact entryAt_addRecord_of_ne fun hp heq ↦
        h x mem_cons_self hp node path (congrArg KVKey.topic heq)
    · rw [add, dif_neg hfix]

/-- A request that the cut takes for no signal's sets no signal's entry. -/
theorem topic_ne (hparse : ∀ r ∈ q.recs, r.kvPath ≠ noPath → (parse r.topic).isOk = true)
    (hw : writesSignal q.recs = false) (hr : r ∈ q.recs) (hp : r.kvPath ≠ noPath) (node : String)
    (path : Path) : r.topic ≠ signalTopic env node path := by
  intro ht
  have hno : decidesReplication r.topic = false := by
    have h := any_eq_false.mp hw r hr
    simpa [hp] using h
  have hok := hparse r hr hp
  unfold decidesReplication at hno
  cases hpr : parse r.topic with
  | error e =>
    rw [hpr] at hok
    cases hok
  | ok p =>
    have heq := ht.symm.trans (parse_eq_ok hpr).1
    obtain ⟨-, -, hc, -⟩ : env.root = p.root ∧ "v1" = p.version ∧ "_Signal" = p.contract ∧ _ := by
      simpa [signalTopic] using heq
    rw [hpr] at hno
    simp [← hc] at hno

end Signals

/-! ### Batches -/

section Group

variable {env} {s : Store} {b : Draft} {signal : Bool} {r : AppendRequest} {rs : List AppendRequest}

/-- The loop goes on with the draft the first request leaves. -/
theorem collect_cons : collect env s b (r :: rs) = ((collect env s b [r]).1 ++
    (collect env s (collect env s b [r]).2 rs).1, (collect env s (collect env s b [r]).2 rs).2) := by
  rw [collect, collect]
  cases check env s.disk r <;> rfl

/-- A request in a commit of its own, after a commit. -/
theorem commitAppendBatch_singleton (hg : Grows s b)
    (hcheck : check env (s.commit b).disk r = check env s.disk r) :
    commitAppendBatch env (s.commit b) [r] true =
      ((collect env s b [r]).1, s.commit (collect env s b [r]).2) := by
  unfold commitAppendBatch collect
  rw [hcheck]
  cases check env s.disk r with
  | error e => rfl
  | ok recs =>
    obtain ⟨hn, -, -⟩ := addAll_commit s b env.codec (recs.map (r.stream, ·))
    simp only [collect, hn, ← commit_commit (c := env.codec) hg]
    rfl

theorem Grows.collect (hg : Grows s b) : Grows s (collect env s b [r]).2 := by
  rw [AppendGroup.collect]
  cases check env s.disk r with
  | error e => exact hg
  | ok recs => exact hg.addAll _

theorem SameSignals.collect (h : SameSignals env (s.commit b).disk s.disk)
    (hparse : ∀ x ∈ r.recs, x.kvPath ≠ noPath → (parse x.topic).isOk = true)
    (hw : writesSignal r.recs = false) :
    SameSignals env (s.commit (AppendGroup.collect env s b [r]).2).disk s.disk := by
  have hview : ∀ (b : Draft) k, entryAt (s.commit b).disk k = entryAt (b.view s.disk) k :=
    fun _ _ ↦ disk_of_not_counter rfl
  rw [AppendGroup.collect]
  cases hc : check env s.disk r with
  | error e => exact h
  | ok recs =>
    intro node path
    rw [hview, ← h node path, hview]
    refine sameSignals_addAll (fun x hx hp node path ↦ ?_) node path
    obtain ⟨y, hy, rfl⟩ := mem_map.mp hx
    obtain ⟨z, hz, ht, hk⟩ := check_recs hc hy
    exact ht ▸ topic_ne hparse hw hz (hk ▸ hp) node path

/-- **A batch leaves what its requests leave one after another**: no metric in it follows a signal. -/
theorem commitEach_takeBatch (hg : Grows s b)
    (hsig : signal = false → SameSignals env (s.commit b).disk s.disk) (hparse : TopicsParse rs) :
    commitEach env (s.commit b) (takeBatch signal rs).1 = ((collect env s b (takeBatch signal rs).1).1,
      s.commit (collect env s b (takeBatch signal rs).1).2) := by
  induction rs generalizing b signal with
  | nil => rfl
  | cons r rs ih =>
    rw [takeBatch]
    split
    · rfl
    · rename_i hcut
      have hcheck : check env (s.commit b).disk r = check env s.disk r := check_congr fun hm ↦
        hsig (by simpa [hm] using hcut)
      have hnext : commitEach env (s.commit (collect env s b [r]).2)
          (takeBatch (signal || writesSignal r.recs) rs).1 = _ :=
        ih hg.collect (fun hs ↦ ?_) fun q hq ↦ hparse q (mem_cons_of_mem _ hq)
      · have hcons : collect env s b (r :: (takeBatch (signal || writesSignal r.recs) rs).1) = _ := collect_cons
        simp only [commitEach, commitAppendBatch_singleton hg hcheck, hnext, hcons]
      · obtain ⟨hs, hw⟩ := Bool.or_eq_false_iff.mp hs
        exact (hsig hs).collect (hparse r mem_cons_self) hw

theorem commitEach_append (s : Store) (xs ys : List AppendRequest) :
    commitEach env s (xs ++ ys) = ((commitEach env s xs).1 ++ (commitEach env (commitEach env s xs).2 ys).1,
      (commitEach env (commitEach env s xs).2 ys).2) := by
  induction xs generalizing s with
  | nil => rfl
  | cons x xs ih => rw [cons_append, commitEach, commitEach, ih, append_assoc]

/-- A batch in which no request passes its checks leaves the draft of the store. -/
theorem collect_of_errors (h : (collect env s b rs).1.any (·.isOk) = false) : (collect env s b rs).2 = b := by
  induction rs generalizing b with
  | nil => rfl
  | cons r rs ih =>
    rw [collect] at h ⊢
    cases hc : check env s.disk r with
    | error e =>
      rw [hc] at h
      exact ih h
    | ok recs =>
      rw [hc] at h
      cases h

theorem commitAppendBatch_true (group : List AppendRequest) : commitAppendBatch env s group true =
    ((collect env s s.draft group).1, s.commit (collect env s s.draft group).2) := by
  by_cases h : (collect env s s.draft group).1.any (·.isOk) = true
  · simp only [commitAppendBatch, h, if_true]
  · simp only [commitAppendBatch, h, collect_of_errors (Bool.eq_false_iff.mpr h), commit_draft]
    rfl

theorem commitAppends_eq (hparse : TopicsParse rs) :
    commitAppends env s (fun _ ↦ true) rs = commitEach env s rs := by
  induction hn : rs.length using Nat.strong_induction_on generalizing s rs with
  | _ n ih =>
    cases rs with
    | nil => rw [commitAppends, commitEach]
    | cons r rs =>
      have hbatch : commitEach env s (r :: (takeBatch (writesSignal r.recs) rs).1) =
          commitAppendBatch env s (r :: (takeBatch (writesSignal r.recs) rs).1) true := by
        have h : commitEach env (s.commit s.draft) (takeBatch false (r :: rs)).1 = _ := commitEach_takeBatch
          (fun _ ↦ ⟨le_rfl, le_rfl⟩) (fun _ ↦ by rw [commit_draft]; exact fun _ _ ↦ rfl) hparse
        rw [commit_draft] at h
        rw [commitAppendBatch_true]
        exact h
      have hsplit : r :: rs = (r :: (takeBatch (writesSignal r.recs) rs).1) ++
          (takeBatch (writesSignal r.recs) rs).2 := congrArg (r :: ·) (takeBatch_append _ rs).symm
      have hrest : commitAppends env (commitAppendBatch env s
          (r :: (takeBatch (writesSignal r.recs) rs).1) true).2 (fun _ ↦ true)
          (takeBatch (writesSignal r.recs) rs).2 = _ :=
        ih _ (hn ▸ Nat.lt_succ_of_le (takeBatch_length _ _))
          (fun q hq ↦ hparse q (hsplit ▸ mem_append_right _ hq)) rfl
      rw [commitAppends, hrest, hsplit, commitEach_append, hbatch]

theorem drain_eq (hparse : TopicsParse rs) : drain env s rs = commitEach env s rs := by
  induction hn : rs.length using Nat.strong_induction_on generalizing s rs with
  | _ n ih =>
    cases rs with
    | nil => rw [drain, commitEach]
    | cons r rs =>
      have hsplit : r :: rs = (r :: (takeWithin r.recs.length rs).1) ++ (takeWithin r.recs.length rs).2 :=
        congrArg (r :: ·) (takeWithin_append _ rs).symm
      have hlen : (takeWithin r.recs.length rs).2.length < n := by
        have := congrArg List.length hsplit
        simp only [length_append, length_cons] at this hn
        omega
      have hrest := fun s ↦ ih _ hlen (s := s) (fun q hq ↦ hparse q (hsplit ▸ mem_append_right _ hq)) rfl
      rw [drain, commitAppends_eq fun q hq ↦ hparse q (hsplit ▸ mem_append_left _ hq), hrest, hsplit,
        commitEach_append]

end Group

/-- **Grouped appends are sequential appends.** A group whose batches are all applied gives the answers and
leaves the store that its requests give and leave one after another, and so does a queue of requests however
it is cut into groups. A request that fails its checks fails alone and leaves no trace. A batch that is not
applied fails every request and changes nothing. -/
theorem grouped_appends (env : Env) (s : Store) (group : List AppendRequest) (hparse : TopicsParse group) :
    commitAppends env s (fun _ ↦ true) group = commitEach env s group ∧
    drain env s group = commitEach env s group ∧
    (∀ (s : Store) q e applied, check env s.disk q = .error e →
      commitAppendBatch env s [q] applied = ([.error e], s)) ∧
    ∀ (s : Store) batch, (commitAppendBatch env s batch false).2 = s ∧
      ∀ a ∈ (commitAppendBatch env s batch false).1, ∃ e, a = .error e := by
  refine ⟨commitAppends_eq hparse, drain_eq hparse, fun s q e applied he ↦ ?_, fun s batch ↦ ?_⟩
  · simp [commitAppendBatch, collect, he, Except.isOk, Except.toBool]
  · by_cases h : (collect env s s.draft batch).1.any (·.isOk) = true
    · simp only [commitAppendBatch, h, if_true]
      refine ⟨rfl, fun a ha ↦ ?_⟩
      obtain ⟨x, -, rfl⟩ := mem_map.mp ha
      cases x <;> exact ⟨_, rfl⟩
    · simp only [commitAppendBatch, h]
      refine ⟨rfl, fun a ha ↦ ?_⟩
      cases a with
      | error e => exact ⟨e, rfl⟩
      | ok v => exact absurd (List.any_eq_true.mpr ⟨_, ha, rfl⟩) h

/-! ### Signals and metrics -/

/-- Every signal keeps its metrics local. -/
def localEnv (root : String) : Env where
  codec := ⟨fun _ ↦ 0, fun _ ↦ ""⟩
  maxRecordBytes := 0
  root := root
  policyField _ := some (some "source_local_only")

/-- A signal is written, and then a metric. -/
def signalAndMetric (root : String) (path : Path) : List AppendRequest :=
  [⟨.entities, [{ topic := root :: "v1" :: "_Signal" :: "n" :: path, kvPath := path, kvNode := "n" }]⟩,
    ⟨.metrics, [{ topic := "colca" :: "v1" :: "_Metric" :: "n" :: path }]⟩]

/-- Whether the first metric of a store stays local. -/
def firstMetricLocal (s : Store) : Option Bool := (recordAt s.disk .metrics 1).map RecEnc.sourceLocalOnly

theorem grouped_appends_signal :
    firstMetricLocal (commitAppends (localEnv "colca") .empty (fun _ ↦ true)
      (signalAndMetric "colca" ["tank"])).2 = some true ∧
    commitAppends (localEnv "colca") .empty (fun _ ↦ true) (signalAndMetric "colca" ["tank"]) =
      commitEach (localEnv "colca") .empty (signalAndMetric "colca" ["tank"]) := by
  have heq := (grouped_appends (localEnv "colca") .empty (signalAndMetric "colca" ["tank"])
    (by decide +kernel)).1
  exact ⟨by rw [heq]; decide +kernel, heq⟩

/-- A segment of `2 ^ n` letters. -/
def longSegment : ℕ → String
  | 0 => "a"
  | n + 1 => longSegment n ++ longSegment n

theorem size_longSegment (n : ℕ) : (longSegment n).utf8ByteSize = 2 ^ n := by
  induction n with
  | zero => rfl
  | succ n ih => rw [longSegment, String.utf8ByteSize_append, ih, Nat.pow_succ, Nat.mul_two]

/-- A path with which a topic of the root `colca` is within the bound, and one of a root of 64 letters is
not. -/
def longPath : Path := (List.range' 6 10).map longSegment

theorem topicBytes_of_path {root contract : String} {path : Path} (hc : contract.utf8ByteSize = 7)
    (hsum : (path.map String.utf8ByteSize).sum = 65472) (hlen : path.length = 10) :
    topicBytes (root :: "v1" :: contract :: "n" :: path) = root.utf8ByteSize + 65495 := by
  have hv : "v1".utf8ByteSize = 2 := rfl
  have hn : "n".utf8ByteSize = 1 := rfl
  simp only [topicBytes, map_cons, sum_cons, length_cons, hsum, hc, hlen, hv, hn]

theorem topicBytes_longPath (root contract : String) (hc : contract.utf8ByteSize = 7) :
    topicBytes (root :: "v1" :: contract :: "n" :: longPath) = root.utf8ByteSize + 65495 := by
  have hsum : (longPath.map String.utf8ByteSize).sum = 65472 := by
    rw [longPath, List.map_map, show String.utf8ByteSize ∘ longSegment = (2 ^ ·) from funext size_longSegment]
    rfl
  exact topicBytes_of_path hc hsum rfl

theorem parse_longSignal : parse (longSegment 6 :: "v1" :: "_Signal" :: "n" :: longPath) =
    .error (.tooLong 65559) := by
  have hbytes := topicBytes_longPath (longSegment 6) "_Signal" rfl
  rw [size_longSegment] at hbytes
  unfold parse
  rw [hbytes]
  rfl

theorem parse_longMetric : parse ("colca" :: "v1" :: "_Metric" :: "n" :: longPath) =
    .ok ⟨"colca", "v1", "_Metric", "n", longPath⟩ := by
  have hbytes := topicBytes_longPath "colca" "_Metric" rfl
  unfold parse
  rw [hbytes, show "colca".utf8ByteSize = 5 from rfl, if_neg (by decide)]
  rfl

/-- The first metric after a commit. -/
theorem firstMetricLocal_add {s : Store} {b : Draft} {c : Codec} {r : Record} (h : b.next .metrics = 1) :
    firstMetricLocal (s.commit (b.add c .metrics r)) = some r.sourceLocalOnly := by
  have hrec : recordAt (s.commit (b.add c .metrics r)).disk .metrics 1 =
      recordAt ((b.add c .metrics r).view s.disk) .metrics 1 :=
    recordAt_congr (disk_of_not_counter rfl)
  rw [firstMetricLocal, hrec, view_add rfl, recordAt_addRecord, if_pos ⟨rfl, h.symm⟩]
  rfl

/-- A signal that the cut does not know is not seen by a metric of its batch. -/
theorem unseen_signal {root : String} {path : Path} {signal metric : Topic} {e : ParseError}
    (hpath : path ≠ noPath) (htopic : signalTopic (localEnv root) "n" path = signal)
    (hmetric : parse metric = .ok ⟨"colca", "v1", "_Metric", "n", path⟩) (hsignal : parse signal = .error e) :
    firstMetricLocal (commitAppends (localEnv root) .empty (fun _ ↦ true)
      [⟨.entities, [{ topic := signal, kvPath := path, kvNode := "n" }]⟩, ⟨.metrics, [{ topic := metric }]⟩]).2 =
      some false ∧
    firstMetricLocal (commitEach (localEnv root) .empty
      [⟨.entities, [{ topic := signal, kvPath := path, kvNode := "n" }]⟩, ⟨.metrics, [{ topic := metric }]⟩]).2 =
      some true := by
  have hkey : metricSignalKey (localEnv root) metric = some ⟨path, "n", signal⟩ := by
    unfold metricSignalKey
    rw [hmetric, ← htopic]
    rfl
  have hno : decidesReplication signal = false := by
    unfold decidesReplication
    rw [hsignal]
  have hcheck : ∀ d l, metricSourceLocalOnly (localEnv root) d { topic := metric } = .ok l →
      check (localEnv root) d ⟨.metrics, [{ topic := metric }]⟩ =
        .ok [{ topic := metric, sourceLocalOnly := l }] := by
    intro d l hl
    show Except.map _ (Except.map some (List.mapM (metricSourceLocalOnly (localEnv root) d) [_])) = _
    rw [mapM_cons, hl]
    rfl
  have hfirst : ∀ d, check (localEnv root) d ⟨.entities, [{ topic := signal, kvPath := path, kvNode := "n" }]⟩ =
      .ok [{ topic := signal, kvPath := path, kvNode := "n" }] := fun _ ↦ rfl
  constructor
  · have hlocal : metricSourceLocalOnly (localEnv root) empty.disk { topic := metric } = .ok false := by
      simp only [metricSourceLocalOnly, hkey]
      rfl
    simp only [commitAppends, takeBatch, writesSignal, hno, any_cons, any_nil, Bool.and_false,
      Bool.or_false, Bool.false_and, commitAppendBatch_true, if_neg Bool.false_ne_true, collect, hfirst,
      hcheck _ _ hlocal]
    exact firstMetricLocal_add rfl
  · -- the first commit sets the entry
    have hentry : ∃ entry, entryAt (empty.commit (empty.draft.addAll (localEnv root).codec
        [(.entities, { topic := signal, kvPath := path, kvNode := "n" })])).disk ⟨path, "n", signal⟩ =
        some (.kv entry) := by
      have hview : ∀ b : Draft, entryAt (empty.commit b).disk ⟨path, "n", signal⟩ =
          entryAt (b.view empty.disk) ⟨path, "n", signal⟩ := fun _ ↦ disk_of_not_counter rfl
      rw [hview, addAll_singleton, view_add rfl, addRecord_fst, Batch.apply_append, kvWrites, if_neg hpath]
      exact ⟨_, (entryAt_setKV ⟨path, "n", signal⟩).trans (if_pos rfl)⟩
    obtain ⟨entry, hentry⟩ := hentry
    have hlocal : metricSourceLocalOnly (localEnv root) (empty.commit (empty.draft.addAll
        (localEnv root).codec [(.entities, { topic := signal, kvPath := path, kvNode := "n" })])).disk
        { topic := metric } = .ok true := by
      simp only [metricSourceLocalOnly, hkey, hentry]
      rfl
    simp only [commitEach, commitAppendBatch_true, collect, hfirst, map_cons, map_nil, hcheck _ _ hlocal]
    exact firstMetricLocal_add rfl

/-- The topic of the signal is too long to parse, and the topic of the metric, with a shorter root, is not:
the group takes them in one batch, and the metric does not see the signal. -/
theorem overlong_signal_topic :
    commitAppends (localEnv (longSegment 6)) .empty (fun _ ↦ true) (signalAndMetric (longSegment 6) longPath) ≠
      commitEach (localEnv (longSegment 6)) .empty (signalAndMetric (longSegment 6) longPath) := by
  intro heq
  have htopic : signalTopic (localEnv (longSegment 6)) "n" longPath =
      longSegment 6 :: "v1" :: "_Signal" :: "n" :: longPath := rfl
  obtain ⟨hgroup, heach⟩ := unseen_signal (fun h ↦ absurd (congrArg List.length h) (by decide)) htopic
    parse_longMetric parse_longSignal
  rw [signalAndMetric] at heq
  rw [heq, heach] at hgroup
  cases hgroup

end Colca.AppendGroup
