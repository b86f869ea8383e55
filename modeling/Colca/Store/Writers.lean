import Colca.Store.Draft

/-!
# The write paths of a store

Eight ways to append records: group commit of local appends, an append that advances a cursor, group
commit of replicated batches, a guarded append, a move of retained records, and the three registry
operations. Each of them ends in one atomic batch that adds records at the heads of their streams and,
in the registry's case, retires an entry; here each is the draft of that batch, `none` when it writes
nothing.

`Store.Wrote` says what a store is after a draft was written. It is also what a group commit of
replicated batches does (`commitReplicated_wrote`): the group's loop, with its own maps of heads and
marks, leaves the draft of the records its answers report as applied.
-/

namespace Colca

open Uns HighWater List Function Colca.Group Receiver Draft

/-- What the write paths take from outside the store. -/
structure WriteEnv where
  codec : Codec
  /-- The largest payload of a local append, `0` for no bound. -/
  maxRecordBytes : ℕ
  /-- Whether a metric stays local by the policy of its signal's current-state entry; `none` when that
  policy is invalid. -/
  localOnly : Disk → Record → Option Bool

variable (env : WriteEnv) (s : Store)

/-! ### Appends -/

/-- `checkAppend`: the record cap, and the flags of metrics. -/
def checkFlags {ε : Type} (cap : ℕ) (tooLarge : ℕ → Record → ε) (localOnly : Record → Except ε Bool)
    (st : Stream) (recs : List Record) : Except ε (Option (List Bool)) :=
  match recs.zipIdx.find? fun x ↦ decide (0 < cap) && decide (cap < x.1.payload.length) with
  | some (r, i) => .error (tooLarge i r)
  | none => if st ≠ .metrics then .ok none else (recs.mapM localOnly).map some

/-- The records `writeAppend` writes, with the flags of `checkAppend`. -/
def writeAppend (recs : List Record) : Option (List Bool) → List Record
  | none => recs
  | some localOnly => recs.zipWith (fun r l ↦ { r with sourceLocalOnly := l }) localOnly

/-- The records of an append as they are written, `none` when one of them is refused. -/
def checkAppend (st : Stream) (recs : List Record) : Option (List Record) :=
  (checkFlags env.maxRecordBytes (fun _ _ ↦ ()) (fun r ↦ (env.localOnly s.disk r).elim (.error ()) .ok) st
    recs).toOption.map (writeAppend recs)

/-- A queued local append. -/
structure AppendRequest where
  stream : Stream
  recs : List Record
  deriving DecidableEq, Repr

/-- The records a request adds to a batch: none when it fails its checks, which it does alone. -/
def AppendRequest.admitted (r : AppendRequest) : List (Stream × Record) :=
  if r.stream.isFixed then ((checkAppend env s r.stream r.recs).getD []).map (r.stream, ·) else []

/-- `commitAppendBatch`: the requests that pass their checks, in order, in one batch. The policy of
every metric is read from the store before the batch, which is why `commitAppends` starts a new batch
when a metric follows a signal. -/
def commitAppendBatch (group : List AppendRequest) : Option Draft :=
  if group.flatMap (·.admitted env s) = [] then none
  else some (s.draft.addAll env.codec (group.flatMap (·.admitted env s)))

/-- `appendLocked`: an append in a commit of its own. With a cursor to advance this is
`AppendAdvancing`, once the cursor has been found below its target. -/
def appendLocked (st : Stream) (recs : List Record) : Option Draft :=
  if st.isFixed then
    (checkAppend env s st recs).map fun recs ↦ s.draft.addAll env.codec (recs.map (st, ·))
  else none

/-- The local and origin offsets of a current-state entry. -/
def kvOffsets (k : KVKey) : Option (ℕ × ℕ) :=
  match s.disk (.kv k.path k.node k.topic) with
  | some (.kv e) => some (e.offset, if e.originOffset = 0 then e.offset else e.originOffset)
  | _ => none

/-- `AppendIfKVUnchanged`: append only if the entry still stands at the offset the caller saw. -/
def appendIfKVUnchanged (st : Stream) (r : Record) (ifKVOffset : ℕ) : Option Draft :=
  if r.kvPath = noPath then none
  else
    match kvOffsets s r.kvKey with
    | some (cur, origin) =>
      if cur = ifKVOffset then appendLocked env s st [{ r with originOffset := origin }] else none
    | none => none

/-! ### Moves -/

/-- A retained record and the position it moves to. -/
structure RetainedMove where
  node : String
  fromPath : Path
  fromTopic : Topic
  toPath : Path
  toTopic : Topic
  deriving DecidableEq, Repr

/-- The records one move writes: the record restated at its destination unless that is taken, and the
tombstone of its source. -/
def RetainedMove.written (m : RetainedMove) (tomb : Record) : List Record :=
  match s.disk (.kv m.fromPath m.node m.fromTopic) with
  | some (.kv held) =>
    (if (s.disk (.kv m.toPath m.node m.toTopic)).isNone then
      [{ topic := m.toTopic, payload := held.payload, ts := held.ts
         by_ :=
           { writtenBy := held.writtenBy, actorID := held.actorID, actorLabel := held.actorLabel
             actorKind := held.actorKind }
         kvPath := m.toPath, kvNode := m.node }]
      else []) ++
    [{ tomb with
       topic := m.fromTopic, payload := [], kvPath := m.fromPath, kvNode := m.node, delete := true }]
  | _ => []

/-- `MoveRetained`: the moves that have a record at their source, in one batch. -/
def moveRetained (st : Stream) (moves : List RetainedMove) (tomb : Record) : Option Draft :=
  if moves.flatMap (·.written s tomb) = [] then none
  else appendLocked env s st (moves.flatMap (·.written s tomb))

/-! ### The registry -/

/-- `RegistryPut`: the record of an enrolled identity. -/
def registryPut (st : Stream) (r : Record) : Option Draft :=
  if st.isFixed then some (s.draft.addAll env.codec [(st, r)]) else none

/-- The identity's tombstone, which is appended without a projection. -/
def Record.bare (r : Record) : Record := { r with kvPath := noPath, kvNode := "" }

/-- Retire the entry a record names, if it names one. -/
def Draft.retireOf (b : Draft) (r : Record) : Draft :=
  if r.kvPath = noPath then b else b.retire r.kvKey

/-- `RegistryDelete`: the identity's tombstone, the tombstones of the records it authored, and its entry
retired. Its change is noted last, where its entry is deleted. -/
def registryDelete (st : Stream) (r : Record) (also : List Record) : Option Draft :=
  if st.isFixed && also.all (·.delete) then
    some ((s.draft.addAll env.codec ((st, r.bare) :: also.map (st, ·))).retireOf r)
  else none

/-- Put a record into the batch of its stream, after the batches there are. -/
def placeRecord (batches : List (Stream × List Record)) (st : Stream) (r : Record) :
    List (Stream × List Record) :=
  if batches.any fun b ↦ b.1 = st then
    batches.map fun b ↦ if b.1 = st then (b.1, b.2 ++ [r]) else b
  else batches ++ [(st, [r])]

/-- The tombstone of an entry a retirement takes. -/
def tombstone (ts : ℤ) (k : KVKey) : Record :=
  { topic := k.topic, ts := ts, kvPath := k.path, kvNode := k.node, delete := true }

/-- The tombstones of a retirement: of the entries chosen before the lock was taken, those that still
exist; `none` when the policy of a metric is invalid. -/
def retirementTombs (chosen : List (KVKey × Stream)) (ts : ℤ) : Option (List (Stream × Record)) :=
  (chosen.filter fun x ↦ (kvOffsets s x.1).isSome).mapM fun x ↦
    if x.2 = .metrics then
      (env.localOnly s.disk (tombstone ts x.1)).map fun l ↦
        (x.2, { tombstone ts x.1 with sourceLocalOnly := l })
    else some (x.2, tombstone ts x.1)

/-- `RegistryRetire`: `RegistryDelete`, with a tombstone for every chosen entry on the stream chosen
for it. -/
def registryRetire (st : Stream) (r : Record) (also : List Record) (chosen : List (KVKey × Stream))
    (ts : ℤ) : Option Draft :=
  match retirementTombs env s chosen ts with
  | some tombs =>
    let batches := tombs.foldl (fun bs x ↦ placeRecord bs x.1 x.2) [(st, r.bare :: also)]
    if (batches.all fun b ↦ b.1.isFixed) && also.all (·.delete) then
      some ((s.draft.addAll env.codec
        (batches.flatMap fun b ↦ b.2.map fun r ↦ (b.1, r))).retireOf r)
    else none
  | none => none

/-! ### What a commit leaves -/

variable {env} {s} {s' : Store}

/-- The store after a draft was written: its heads, its byte counts and the keys its records and
removals leave. The marks of children are another matter. -/
structure Store.Wrote (s s' : Store) (b : Draft) : Prop where
  next : s'.mem.next = b.next
  bytes : s'.mem.bytes = b.bytes
  disk : ∀ k, k.isCounter = false → s'.disk k = Batch.apply s.disk b.batch k
  indexed : ∀ st, st.isFixed → s'.disk (.indexed st) =
    if b.next st = s.mem.next st then s.disk (.indexed st) else some (.num (b.next st))

theorem Store.commit_wrote (s : Store) (b : Draft) : s.Wrote (s.commit b) b where
  next := rfl
  bytes := rfl
  disk _ hk := disk_of_not_counter hk
  indexed _ hfix := disk_indexed hfix

theorem Store.Wrote.dropMarks {b : Draft} (h : s.Wrote s' b) (child : String) :
    s.Wrote (s'.dropMarks child) b :=
  { h with
    disk k hk := by
      rw [← h.disk k hk]
      cases k <;> first | rfl | cases hk }

/-! ### Replicated batches -/

section Replicated

variable {c : Codec} {b : Draft} {st : Stream} {r : Record}

theorem Draft.addAll_append (xs ys : List (Stream × Record)) :
    b.addAll c (xs ++ ys) = (b.addAll c xs).addAll c ys :=
  foldl_append

theorem Draft.addAll_singleton : b.addAll c [(st, r)] = b.add c st r := rfl

theorem Draft.add_next (hfix : st.isFixed) : (b.add c st r).next = update b.next st (b.next st + 1) := by
  rw [Draft.add, dif_pos hfix]

theorem Draft.add_bytes (hfix : st.isFixed) : (b.add c st r).bytes =
    update b.bytes st (b.bytes st + (addRecord c st (b.next st) r).2) := by
  rw [Draft.add, dif_pos hfix]

theorem Draft.add_batch (hfix : st.isFixed) :
    (b.add c st r).batch = b.batch ++ (addRecord c st (b.next st) r).1 := by
  rw [Draft.add, dif_pos hfix]

theorem Draft.add_changes (hfix : st.isFixed) :
    (b.add c st r).changes = b.changes ++ r.changes (b.next st) := by
  rw [Draft.add, dif_pos hfix]

/-- The records a request's answer reports as applied, skipped ranges apart. -/
def Answer.records (a : Answer) : List Record :=
  (a.applied.filter fun r ↦ r.skipFrom = 0).map ReplRecord.toRecord

/-- The records a group of replicated requests adds, in order. -/
def replicatedRecords (m : Receiver.Marks) : List ReplRequest → List (Stream × Record)
  | [] => []
  | r :: rs =>
    (Receiver.answer m r).records.map (r.stream, ·) ++ replicatedRecords (Receiver.marks m r) rs

/-- What a request was built into is what the draft of its records adds. -/
structure Built.Drafts (c : Codec) (st : Stream) (x x' : Built) (b b' : Draft) : Prop where
  next : b'.next = update b.next st x'.next
  bytes : ∃ n, x'.added = x.added + n ∧ b'.bytes = update b.bytes st (b.bytes st + n)
  batch : ∃ own, x'.own = x.own ++ own ∧ b'.batch = b.batch ++ own

theorem Built.Drafts.refl (x : Built) (h : b.next st = x.next) : Built.Drafts c st x x b b where
  next := by rw [← h, update_eq_self]
  bytes := ⟨0, rfl, by rw [Nat.add_zero, update_eq_self]⟩
  batch := ⟨[], by rw [append_nil], by rw [append_nil]⟩

theorem Built.Drafts.trans {x x' x'' : Built} {b b' b'' : Draft} (h : Built.Drafts c st x x' b b')
    (h' : Built.Drafts c st x' x'' b' b'') : Built.Drafts c st x x'' b b'' where
  next := by rw [h'.next, h.next, update_idem]
  bytes := by
    obtain ⟨n, hn, hb⟩ := h.bytes
    obtain ⟨n', hn', hb'⟩ := h'.bytes
    refine ⟨n + n', by rw [hn', hn, Nat.add_assoc], ?_⟩
    rw [hb', hb, update_idem, update_self, Nat.add_assoc]
  batch := by
    obtain ⟨own, ho, hb⟩ := h.batch
    obtain ⟨own', ho', hb'⟩ := h'.batch
    exact ⟨own ++ own', by rw [ho', ho, append_assoc], by rw [hb', hb, append_assoc]⟩

variable {g : Group} {off live : ℕ} {members : List Member} {x x' : Built}

/-- One turn of the loop that builds a request. -/
theorem buildStep_drafts {rr : ReplRecord} (hfix : st.isFixed)
    (hnext : b.next st = x.next) (h : buildStep c st x rr = .ok x') :
    ∃ rs, x'.applied = x.applied ++ rs ∧ Built.Drafts c st x x' b
      (b.addAll c (((rs.filter fun r ↦ r.skipFrom = 0).map ReplRecord.toRecord).map (st, ·))) := by
  unfold buildStep at h
  split at h
  · cases h
  · split at h
    · cases h
      exact ⟨[], (append_nil _).symm, Built.Drafts.refl x hnext⟩
    · split at h
      · rename_i hskip
        cases h
        refine ⟨[rr.filled], rfl, ?_⟩
        have hnone : ([rr.filled].filter fun r ↦ r.skipFrom = 0) = [] := by simp [hskip]
        rw [hnone]
        exact ⟨by rw [← hnext]; exact (update_eq_self st b.next).symm,
          ⟨0, rfl, by rw [Nat.add_zero]; exact (update_eq_self st b.bytes).symm⟩,
          ⟨[], (append_nil _).symm, (append_nil _).symm⟩⟩
      · rename_i hskip
        cases h
        refine ⟨[rr.filled], rfl, ?_⟩
        have hkept : ([rr.filled].filter fun r ↦ r.skipFrom = 0) = [rr.filled] := by
          simpa using hskip
        rw [hkept]
        show Built.Drafts c st x _ b (b.add c st rr.filled.toRecord)
        rw [← hnext]
        exact ⟨add_next hfix, ⟨_, rfl, add_bytes hfix⟩, ⟨_, rfl, add_batch hfix⟩⟩

/-- The loop over the records of a request. -/
theorem foldlM_buildStep_drafts {recs : List ReplRecord} (hfix : st.isFixed)
    (hnext : b.next st = x.next) (h : recs.foldlM (buildStep c st) x = .ok x') :
    ∃ rs, x'.applied = x.applied ++ rs ∧ Built.Drafts c st x x' b
      (b.addAll c (((rs.filter fun r ↦ r.skipFrom = 0).map ReplRecord.toRecord).map (st, ·))) := by
  induction recs generalizing x b with
  | nil =>
    cases h
    exact ⟨[], (append_nil _).symm, Built.Drafts.refl _ hnext⟩
  | cons rr recs ih =>
    rw [foldlM_cons] at h
    cases hx : buildStep c st x rr with
    | error e =>
      rw [hx] at h
      cases h
    | ok y =>
      rw [hx] at h
      obtain ⟨rs, happ, hd⟩ := buildStep_drafts hfix hnext hx
      have hnext' : (b.addAll c (((rs.filter fun r ↦ r.skipFrom = 0).map
          ReplRecord.toRecord).map (st, ·))).next st = y.next := by
        rw [hd.next, update_self]
      obtain ⟨rs', happ', hd'⟩ := ih hnext' h
      refine ⟨rs ++ rs', by rw [happ', happ, append_assoc], ?_⟩
      rw [filter_append, map_append, map_append, addAll_append]
      exact hd.trans hd'

/-- The local maps of a group and the draft of the records it added agree. -/
structure Group.Drafts (s : Store) (g : Group) (b : Draft) : Prop where
  next : ∀ st, ((g.heads.lookup st).map Prod.fst).getD (s.mem.next st) = b.next st
  bytes : ∀ st, ((g.heads.lookup st).map Prod.snd).getD (s.mem.bytes st) = b.bytes st
  batch : g.batch = b.batch

theorem Group.Drafts.head_eq (h : g.Drafts s b)
    (hhead : g.head s st = some (off, live)) : off = b.next st ∧ live = b.bytes st := by
  have hn := h.next st
  have hb := h.bytes st
  unfold head at hhead
  cases hl : g.heads.lookup st with
  | some p =>
    rw [hl] at hhead hn hb
    cases hhead
    exact ⟨hn, hb⟩
  | none =>
    rw [hl] at hhead hn hb
    simp only at hhead
    split at hhead
    · cases hhead
    · cases hhead
      exact ⟨hn, hb⟩

/-- Setting the local head of a stream follows a draft that does the same. -/
theorem Group.Drafts.insert {b' : Draft}
    {hwms : AList fun _ : HWMKey ↦ ℕ} {batch : Batch Key Val} (h : g.Drafts s b)
    (hn : b'.next = update b.next st off) (hb : b'.bytes = update b.bytes st live)
    (hbatch : batch = b'.batch) : Drafts s ⟨g.heads.insert st (off, live), hwms, batch, members⟩ b' where
  next st' := by
    by_cases hst : st' = st
    · subst hst
      simp [hn]
    · simp only [AList.lookup_insert_ne hst, hn, update_of_ne hst]
      exact h.next st'
  bytes st' := by
    by_cases hst : st' = st
    · subst hst
      simp [hb]
    · simp only [AList.lookup_insert_ne hst, hb, update_of_ne hst]
      exact h.bytes st'
  batch := hbatch

/-- A request that adds nothing leaves the local head where it was. -/
theorem Group.Drafts.insert_same (h : g.Drafts s b) (hhead : g.head s st = some (off, live)) :
    Drafts s { g with heads := g.heads.insert st (off, live), members := members } b := by
  obtain ⟨hoff, hlive⟩ := h.head_eq hhead
  refine h.insert ?_ ?_ h.batch
  · rw [hoff, update_eq_self]
  · rw [hlive, update_eq_self]

/-- **One turn of the group's loop adds the records it reports.** -/
theorem Group.step_drafts {r : ReplRequest} (hg : g.Inv s) (h : g.Drafts s b) :
    (g.step c s r).Drafts s
      (b.addAll c ((answer (g.prev s) r).records.map (r.stream, ·))) := by
  rcases hg.head_spec r.stream with ⟨hfix, hhead⟩ | ⟨hfix, off, live, hhead, -, -⟩
  · have hnone : (answer (g.prev s) r).records = [] := by
      simp [answer, hfix, Answer.records]
    rw [hnone]
    simp only [step, hhead]
    exact { h with }
  · obtain ⟨hoff, hlive⟩ := h.head_eq hhead
    simp only [step, hhead]
    by_cases hv : r.valid
    · obtain ⟨y, hy, hx⟩ := buildReplicated_ok c hv (g.prev s r.key) off
      have hans : answer (g.prev s) r = { applied := y.applied, hwm := y.hwm } := by
        simp [hx.applied_eq, hx.hwm_eq, answer, hfix, hv]
      have hbuild : r.recs.foldlM (buildStep c r.stream) { hwm := g.prev s r.key, next := off } =
          .ok y := hy
      obtain ⟨rs, happ, hd⟩ := foldlM_buildStep_drafts (b := b) hfix hoff.symm hbuild
      have hrs : y.applied = rs := happ
      rw [hy, hans, add]
      split
      · rename_i hempty
        have hnone : Answer.records { applied := y.applied, hwm := y.hwm } = [] := by
          simp [Answer.records, hempty]
        rw [hnone]
        exact h.insert_same hhead
      · rw [← hrs] at hd
        obtain ⟨n, hadded, hbytes⟩ := hd.bytes
        obtain ⟨own, hown, hbatch⟩ := hd.batch
        refine h.insert hd.next ?_ ?_
        · rw [hadded, hlive, Nat.zero_add]
          exact hbytes
        · rw [hown, h.batch]
          exact hbatch.symm
    · have hv : r.valid = false := by simpa using hv
      have hnone : (answer (g.prev s) r).records = [] := by
        simp [answer, hfix, hv, Answer.records]
      rw [buildReplicated_error c hfix hv, add, hnone]
      exact h.insert_same hhead

/-- The whole loop adds the records its answers report. -/
theorem Group.foldl_step_drafts (hg : g.Inv s) (h : g.Drafts s b) (rs : List ReplRequest) :
    (rs.foldl (step c s) g).Drafts s (b.addAll c (replicatedRecords (g.prev s) rs)) := by
  induction rs generalizing g b with
  | nil => exact h
  | cons r rs ih =>
    obtain ⟨hg', -, hprev⟩ := step_spec c hg r
    have hstep := ih hg' (step_drafts hg h)
    rw [hprev, ← addAll_append] at hstep
    exact hstep

/-- A group with nothing to write adds no record. -/
theorem replicatedRecords_eq_nil {m : Marks} {rs : List ReplRequest}
    (h : ∀ x ∈ Receiver.members m rs, x.committed = false) : replicatedRecords m rs = [] := by
  induction rs generalizing m with
  | nil => rfl
  | cons r rs ih =>
    have happ : (answer m r).applied = [] := by
      simpa [member] using h _ mem_cons_self
    rw [replicatedRecords, ih fun x hx ↦ h x (mem_cons_of_mem _ hx), Answer.records, happ]
    rfl

/-- **A group commit writes the draft of the records its answers report as applied.** -/
theorem commitReplicated_wrote (c : Codec) (s : Store) (group : List ReplRequest) :
    s.Wrote (commitReplicated c s group true).2
      (s.draft.addAll c (replicatedRecords s.durableHWM group)) := by
  obtain ⟨hg, hm, -⟩ := run_spec c s group
  have hstart : Drafts s {} s.draft := by
    refine ⟨fun st ↦ ?_, fun st ↦ ?_, rfl⟩ <;> simp [Store.draft]
  have hprev : prev {} s = s.durableHWM := by
    funext k
    simp [Group.prev]
  have hd := foldl_step_drafts (c := c) (inv_empty s) hstart group
  rw [hprev] at hd
  by_cases hany : (run c s group).members.any Member.committed
  · rw [commitReplicated]
    simp only [hany, if_true]
    refine ⟨funext hd.next, funext hd.bytes, fun k hk ↦ ?_, fun st hfix ↦ ?_⟩
    · show (run c s group).disk s k = _
      rw [Group.disk, Batch.apply_append, Batch.apply_eq_of_forall_ne]
      · exact congrArg (fun b ↦ Batch.apply s.disk b k) hd.batch
      · rintro w hw rfl
        obtain ⟨st, h, -, -, rfl | rfl | rfl⟩ | ⟨k', v, -, rfl⟩ := mem_counters.mp hw <;> cases hk
    · show (run c s group).disk s (.indexed st) = _
      have hn := hd.next st
      split
      · rename_i hsame
        refine hg.disk_of_not_mem rfl ?_
        rintro w hw heq
        obtain ⟨st', h, hl, hne, rfl | rfl | rfl⟩ | ⟨k', v, -, rfl⟩ := mem_counters.mp hw <;>
          cases heq
        rw [show (List.foldl (step c s) {} group).heads.lookup st = some h from hl] at hn
        exact hne (hn.trans hsame)
      · rename_i hne
        cases hl : (run c s group).heads.lookup st with
        | none =>
          rw [show (List.foldl (step c s) {} group).heads.lookup st = none from hl] at hn
          exact absurd hn.symm hne
        | some h =>
          rw [show (List.foldl (step c s) {} group).heads.lookup st = some h from hl] at hn
          have hh : h.1 = (s.draft.addAll c (replicatedRecords s.durableHWM group)).next st := hn
          rw [← hh]
          rw [← hh] at hne
          refine disk_of_mem (mem_counters.mpr (.inl ⟨st, h, hl, hne, .inr (.inl rfl)⟩)) ?_
          rintro w hw heq
          obtain ⟨st', h', hl', -, rfl | rfl | rfl⟩ | ⟨k', v, -, rfl⟩ := mem_counters.mp hw <;>
            cases heq
          obtain rfl : h = h' := by simpa [hl] using hl'
          rfl
  · have hnone : replicatedRecords s.durableHWM group = [] := by
      refine replicatedRecords_eq_nil fun x hx ↦ ?_
      simp only [hm, any_eq_true, not_exists, not_and, Bool.not_eq_true] at hany
      exact hany x hx
    rw [hnone, commitReplicated]
    simp only [hany]
    exact ⟨rfl, rfl, fun _ _ ↦ rfl, fun _ _ ↦ (if_pos rfl).symm⟩

end Replicated

end Colca
