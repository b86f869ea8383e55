import Colca.Store.Indexes

/-!
# The byte counter of a stream

A store counts the bytes of the records it retains, per stream. An append adds what it writes; a removal
subtracts what it read, earlier and without the lock. A prune and a compaction find out whether records
were removed since, and scan again or stop. An eviction finds out about prunes only, and per-signal
retention about nothing but the low-water mark: a record that something else removed since they read it
is subtracted twice.

The count is right in every run in which these two find the records they delete still in place
(`byteCount_of_reach`), and two overlapping evictions make it wrong (`overlapping_evictions`).
-/

namespace Colca

open Uns Finset

/-- The bytes of the record at an offset: key and value. -/
def sizeAt (c : Codec) (d : Disk) (st : Stream) (o : ℕ) : ℕ :=
  match recordAt d st o with
  | some e => streamKeyBytes st + c.recSize e
  | none => 0

/-- The bytes of the records of a stream below an offset. -/
def liveBytes (c : Codec) (d : Disk) (st : Stream) (next : ℕ) : ℕ := ∑ o ∈ range next, sizeAt c d st o

section Sums

variable {c : Codec} {d d' : Disk} {st st' : Stream} {next o : ℕ} {r : Record} {gone : List Gone}
  {recs : List (ℕ × RecEnc)}

theorem sizeAt_of_some {e : RecEnc} (h : recordAt d st o = some e) :
    sizeAt c d st o = streamKeyBytes st + c.recSize e := by
  rw [sizeAt, h]

theorem sizeAt_of_none (h : recordAt d st o = none) : sizeAt c d st o = 0 := by
  rw [sizeAt, h]

theorem sizeAt_congr (h : recordAt d' st o = recordAt d st o) : sizeAt c d' st o = sizeAt c d st o := by
  rw [sizeAt, h, ← sizeAt]

theorem liveBytes_congr (h : ∀ o, o < next → recordAt d' st o = recordAt d st o) :
    liveBytes c d' st next = liveBytes c d st next :=
  sum_congr rfl fun o ho ↦ sizeAt_congr (h o (mem_range.mp ho))

/-- A record at the head counts with its key and its value. -/
theorem liveBytes_add : liveBytes c (Batch.apply d (addRecord c st next r).1) st (next + 1) =
    liveBytes c d st next + (addRecord c st next r).2 := by
  rw [liveBytes, sum_range_succ]
  refine congrArg₂ (· + ·) ?_ ?_
  · refine liveBytes_congr fun o ho ↦ ?_
    rw [recordAt_addRecord, if_neg fun h ↦ ho.ne h.2]
  · refine sizeAt_of_some ?_
    rw [recordAt_addRecord, if_pos ⟨rfl, rfl⟩]

/-- The bytes of records that stand are the bytes of their offsets. -/
theorem shedOf_eq_sum (hnodup : (recs.map Prod.fst).Nodup)
    (hstand : ∀ x ∈ recs, recordAt d st x.1 = some x.2) :
    StoreRun.shedOf c st recs = ∑ o ∈ (recs.map Prod.fst).toFinset, sizeAt c d st o := by
  rw [List.sum_toFinset _ hnodup, List.map_map, StoreRun.shedOf]
  refine congrArg List.sum (List.map_congr_left fun x hx ↦ ?_)
  exact (sizeAt_of_some (hstand x hx)).symm

/-- **What a removal sheds.** If it has read every record it removes as it stands, and each once, the
bytes it subtracts are those that go. -/
theorem shedOf_add_liveBytes (hnodup : (recs.map Prod.fst).Nodup)
    (hstand : ∀ x ∈ recs, recordAt d st x.1 = some x.2) (hlt : ∀ x ∈ recs, x.1 < next)
    (hgone : ∀ x ∈ recs, .record x.1 ∈ gone)
    (hall : ∀ o e, .record o ∈ gone → recordAt d st o = some e → (o, e) ∈ recs) :
    StoreRun.shedOf c st recs + liveBytes c (removeKeys d st gone) st next = liveBytes c d st next := by
  have hshed : StoreRun.shedOf c st recs =
      ∑ o ∈ range next with .record o ∈ gone, sizeAt c d st o := by
    rw [shedOf_eq_sum hnodup hstand]
    refine sum_subset (fun o ho ↦ ?_) fun o ho hnot ↦ ?_
    · obtain ⟨x, hx, rfl⟩ := List.mem_map.mp (List.mem_toFinset.mp ho)
      exact mem_filter.mpr ⟨mem_range.mpr (hlt x hx), hgone x hx⟩
    · -- an offset that is named and was not read holds nothing
      refine sizeAt_of_none (Option.eq_none_iff_forall_not_mem.mpr fun e he ↦ hnot ?_)
      exact List.mem_toFinset.mpr (List.mem_map.mpr ⟨(o, e), hall o e (mem_filter.mp ho).2 he, rfl⟩)
  have hlive : liveBytes c (removeKeys d st gone) st next =
      ∑ o ∈ range next with ¬ .record o ∈ gone, sizeAt c d st o := by
    rw [liveBytes, sum_filter]
    refine sum_congr rfl fun o _ ↦ ?_
    split
    · rename_i hnot
      exact sizeAt_congr (recordAt_removeKeys_of_not (.inr hnot))
    · rename_i hmem
      exact sizeAt_of_none (recordAt_removeKeys_of_mem (not_not.mp hmem))
  rw [hshed, hlive, sum_filter_add_sum_filter_not]
  rfl

end Sums

/-- A draft counts what it leaves. -/
def Draft.Counts (c : Codec) (d : Disk) (b : Draft) : Prop :=
  ∀ st, st.isFixed → b.bytes st = liveBytes c (b.view d) st (b.next st)

theorem Draft.Counts.adds {c : Codec} {d : Disk} {b b₀ : Draft} (h : b₀.Counts c d)
    (hadds : b₀.Adds c b) : b.Counts c d := by
  induction hadds with
  | refl => exact h
  | @add b st r _ hfix ih =>
    intro st' hfix'
    rw [Draft.view_add hfix, Draft.add_next hfix, Draft.add_bytes hfix]
    by_cases hst : st' = st
    · subst hst
      rw [Function.update_self, Function.update_self, liveBytes_add, ih st' hfix']
    · rw [Function.update_of_ne hst, Function.update_of_ne hst, ih st' hfix']
      refine (liveBytes_congr fun o _ ↦ ?_).symm
      rw [recordAt_addRecord, if_neg fun h ↦ hst h.1]
  | retire _ _ ih | evict _ _ ih =>
    intro st hfix
    refine (ih st hfix).trans (liveBytes_congr fun o _ ↦ ?_).symm
    exact recordAt_congr (Draft.view_retire_of_not_state rfl)

namespace StoreRun

variable {env : WriteEnv} {s s' : State} {st : Stream} {e : Event}

/-- The byte counter on disk is the sum over the records of the stream. -/
def State.BytesExact (env : WriteEnv) (s : State) : Prop :=
  ∀ st, st.isFixed →
    readU64 s.store.disk (.bytes st) 0 = liveBytes env.codec s.store.disk st (s.next st)

/-- The offsets an eviction or per-signal retention is about to delete, as it read them. -/
def deletesAsRead (s : State) : Event → List (Stream × ℕ)
  | .commitEvict i =>
    match s.scans i with
    | some (.evict st _ lwm (some recs)) => if s.lwm st = lwm then recs.map fun x ↦ (st, x.1) else []
    | _ => []
  | .flushSignals i floor doomed _ =>
    match s.scans i with
    | some (.signals st _ _ _ _ found) =>
      (flushed s st floor (found.filter fun x ↦ doomed x.2.1)).map fun x ↦ (st, x.2.1)
    | _ => []
  | _ => []

/-- The records an eviction or per-signal retention is about to delete are still there. -/
def Standing (s : State) (e : Event) : Prop :=
  ∀ x ∈ deletesAsRead s e, (recordAt s.store.disk x.1 x.2).isSome

instance (s : State) (e : Event) : Decidable (Standing s e) :=
  inferInstanceAs (Decidable (∀ x ∈ deletesAsRead s e, (recordAt s.store.disk x.1 x.2).isSome))

/-- The bytes a removal subtracts are those that go. -/
def Removal.Exact (env : WriteEnv) (s : State) (x : Removal) : Prop :=
  x.shed + liveBytes env.codec (removeKeys s.store.disk x.stream x.gone) x.stream (s.next x.stream) =
    liveBytes env.codec s.store.disk x.stream (s.next x.stream)

theorem Read.stands {recs : List (ℕ × RecEnc)} (h : Read s st recs)
    (hsome : ∀ x ∈ recs, (recordAt s.store.disk st x.1).isSome) :
    ∀ x ∈ recs, recordAt s.store.disk st x.1 = some x.2 := by
  intro x hx
  obtain ⟨e, he⟩ := Option.isSome_iff_exists.mp (hsome x hx)
  rw [he, h.same x hx e he]

/-- Records that stand go with the bytes they have. -/
theorem Read.exact_ {recs : List (ℕ × RecEnc)} {lwm : ℕ} (h : Read s st recs)
    (hsome : ∀ x ∈ recs, (recordAt s.store.disk st x.1).isSome) :
    Removal.Exact env s ⟨st, recs.flatMap goneOf, shedOf env.codec st recs, lwm, true⟩ := by
  refine shedOf_add_liveBytes h.nodup (h.stands hsome) h.lt_next
    (fun x hx ↦ mem_goneOf_record.mpr ⟨x.2, hx⟩) fun o e ho he ↦ ?_
  obtain ⟨e', he'⟩ := mem_goneOf_record.mp ho
  obtain rfl : e = e' := h.same _ he' e he
  exact he'

theorem Inv.exact_ {x : Removal} {gaps : List Record} (hi : Inv s) (hC : Standing s e)
    (h : removalOf env s e = some (x, gaps)) : x.Exact env s := by
  obtain ⟨i, floor, st, lwm, holes, upTo, recs, rfl, hscan, hx⟩ |
    ⟨i, floor, st, next, lwm, holes, recs, rfl, -, hscan, hx⟩ |
    ⟨i, st, next, lwm, recs, rfl, -, hscan, hx⟩ |
    ⟨i, floor, doomed, st, next, lwm, iter, visited, found, rfl, hscan, hx⟩ := removalOf_cases h
  · -- a prune subtracts what stands in its range
    obtain ⟨-, -, hread⟩ := hi.scans i _ hscan
    obtain ⟨-, hnext, -, rfl⟩ := pruneScanned_eq (hread upTo recs rfl).2.2 hx
    have hrecs : Read _ st (recordsIn _ st lwm (min upTo floor)) := read_recordsIn hnext
    refine shedOf_add_liveBytes hrecs.nodup (fun y hy ↦ (mem_recordsIn.mp hy).2.2) hrecs.lt_next
      (fun y hy ↦ ?_) fun o e ho he ↦ ?_
    · obtain ⟨hlo, hhi, -⟩ := mem_recordsIn.mp hy
      exact mem_pruneGone_record.mpr ⟨hlo, hhi⟩
    · obtain ⟨hlo, hhi⟩ := mem_pruneGone_record.mp ho
      exact mem_recordsIn.mpr ⟨hlo, hhi, he⟩
  · -- a compaction has found nothing removed since it read
    obtain ⟨rfl, hholes, rfl⟩ := compactScanned_eq hx
    obtain ⟨-, -, hnext, hread⟩ := hi.scans i _ hscan
    obtain rfl := hread recs rfl rfl hholes
    refine ((read_recordsIn hnext).sublist List.filter_sublist).exact_ fun y hy ↦ ?_
    rw [(mem_recordsIn.mp (List.mem_of_mem_filter hy)).2.2]
    rfl
  · obtain ⟨rfl, rfl⟩ := evictScanned_eq hx
    simp only [Standing, deletesAsRead, hscan, if_true] at hC
    exact ((hi.scans i _ hscan).2 recs rfl).exact_ fun y hy ↦ hC _ (List.mem_map_of_mem hy)
  · rw [signalsScanned_eq hx]
    simp only [Standing, deletesAsRead, hscan] at hC
    obtain ⟨-, -, -, hread⟩ := hi.scans i _ hscan
    have hsub := (flushed_sublist s st floor (found.filter fun y ↦ doomed y.2.1)).trans
      List.filter_sublist
    have hrecs := hread.sublist (hsub.map _)
    refine shedOf_add_liveBytes hrecs.nodup (hrecs.stands fun y hy ↦ ?_) hrecs.lt_next
      (fun y hy ↦ ?_) fun o e ho he ↦ ?_
    · obtain ⟨z, hz, rfl⟩ := List.mem_map.mp hy
      exact hC _ (List.mem_map_of_mem hz)
    · obtain ⟨z, hz, rfl⟩ := List.mem_map.mp hy
      exact List.mem_flatMap.mpr ⟨z, hz, List.mem_cons_self⟩
    · obtain ⟨z, hz, hmem⟩ := List.mem_flatMap.mp ho
      obtain rfl : o = z.2.1 := by simpa using hmem
      obtain rfl : e = z.2.2 := hrecs.same _ (List.mem_map_of_mem hz) e he
      exact List.mem_map_of_mem hz

/-- The draft of an exact removal counts what it leaves. -/
theorem Removal.Exact.counts {x : Removal} (hx : x.Exact env s) (h : s.store.draft.Counts env.codec s.store.disk) :
    (s.store.draft.remove x.stream x.gone x.shed).Counts env.codec s.store.disk := by
  intro st hfix
  show Function.update s.store.mem.bytes x.stream (s.store.mem.bytes x.stream - x.shed) st = _
  rw [Draft.view_remove]
  have hbytes : s.store.mem.bytes st = liveBytes env.codec s.store.disk st (s.next st) := h st hfix
  by_cases hst : st = x.stream
  · subst hst
    rw [Function.update_self, hbytes, ← hx, Nat.add_sub_cancel_left]
    rfl
  · rw [Function.update_of_ne hst, hbytes]
    exact (liveBytes_congr fun o _ ↦ recordAt_removeKeys_of_not (.inl hst)).symm

/-- A counter of records is the counter of the store once its draft is written. -/
theorem Draft.Counts.wrote {b : Draft} {store : Store} (h : b.Counts env.codec s.store.disk)
    (hw : s.store.Wrote store b) : store.draft.Counts env.codec store.disk := by
  intro st hfix
  show store.mem.bytes st = liveBytes env.codec store.disk st (store.mem.next st)
  rw [hw.bytes, hw.next, h st hfix]
  exact (liveBytes_congr fun o _ ↦ recordAt_congr (hw.disk _ rfl)).symm

/-- **A step that meets the condition keeps the count.** -/
theorem Does.counts (hi : Inv s) (hC : Standing s e) (h : Does env s e s')
    (hc : s.store.draft.Counts env.codec s.store.disk) : s'.store.draft.Counts env.codec s'.store.disk := by
  cases h with
  | wrote hb hw => exact Draft.Counts.wrote (hc.adds hb) hw
  | scanned _ => exact hc
  | @removed scans x gaps hx _ =>
    refine Draft.Counts.wrote (s := s) ?_ (s.store.commit_wrote (x.draft env s.store gaps))
    exact ((hi.exact_ hC hx).counts hc).adds (Removal.draft_adds s.store x gaps)
  | reopened _ =>
    intro st hfix
    show s.store.reload.mem.bytes st = liveBytes env.codec s.reopen.store.disk st (s.store.reload.mem.next st)
    rw [s.store.reload_bytes, s.store.reload_next, hi.reopen_disk]
    exact hc st hfix

/-- **The byte counters are exact in every run in which evictions and per-signal retention find the
records they delete in place.** -/
theorem byteCount_of_reach (env : WriteEnv) (s : State)
    (h : (system env .empty).Reach Standing s) : s.BytesExact env := by
  have hboth : Inv s ∧ s.store.draft.Counts env.codec s.store.disk := by
    refine StateMachine.Reach.invariant
      (I := fun s ↦ Inv s ∧ s.store.draft.Counts env.codec s.store.disk)
      ⟨inv_start _, fun st hfix ↦ ?_⟩ (fun s e s' hi hC hs ↦ ?_) h
    · refine (congrFun Store.empty.reload_bytes st).trans (sum_eq_zero fun o _ ↦ ?_).symm
      exact sizeAt_of_none (start_recordAt st o)
    · have hd := hi.1.does hs
      exact ⟨hd.inv hi.1, hd.counts hi.1 hC hi.2⟩
  intro st hfix
  rw [← s.store.agrees.bytes_eq st hfix]
  exact hboth.2 st hfix

/-! ### Two evictions that overlap -/

/-- An eviction of everything reads the stream. -/
def evictAll (i : ℕ) : List Event := [.begin_ i .evict .metrics, .readEvict i 0 10 fun _ ↦ true]

/-- The bytes counted, and the bytes there are. -/
def metricBytes (s : State) : ℕ × ℕ :=
  (readU64 s.store.disk (.bytes .metrics) 0,
    liveBytes sampleEnv.codec s.store.disk .metrics (s.next .metrics))

/-- Two samples are evicted and a third one follows. -/
def oneEviction : List Event :=
  .write (.append [⟨.metrics, [sampleMetric 1, sampleMetric 2]⟩]) true ::
    evictAll 0 ++ [.commitEvict 0, .write (.append [⟨.metrics, [sampleMetric 3]⟩]) true]

theorem byteCount_oneEviction : ∃ s, (system sampleEnv .empty).Reach Standing s ∧
    metricBytes s = (19, 19) ∧ s.BytesExact sampleEnv := by
  obtain ⟨s, hreach, hs⟩ := (system sampleEnv .empty).exists_reach Standing oneEviction
    (fun s ↦ metricBytes s = (19, 19))
  exact ⟨s, hreach, hs, byteCount_of_reach sampleEnv s hreach⟩

/-- A second eviction reads the same samples before the first one commits, and commits after the third
sample is there. -/
def twoEvictions : List Event :=
  .write (.append [⟨.metrics, [sampleMetric 1, sampleMetric 2]⟩]) true ::
    evictAll 0 ++ evictAll 1 ++
    [.commitEvict 0, .write (.append [⟨.metrics, [sampleMetric 3]⟩]) true, .commitEvict 1]

/-- **Overlapping evictions subtract a record twice**: the third sample is there and the counter says
that nothing is. -/
theorem overlapping_evictions : ¬ ∀ s, (system sampleEnv .empty).Reachable s → s.BytesExact sampleEnv := by
  intro hall
  obtain ⟨s, hreach, hs⟩ := (system sampleEnv .empty).exists_reachable twoEvictions
    (fun s ↦ metricBytes s = (0, 19))
  have hbytes : metricBytes s = (0, 19) := hs
  have heq : (metricBytes s).1 = (metricBytes s).2 := hall s hreach .metrics rfl
  rw [hbytes] at heq
  cases heq

end StoreRun

end Colca
