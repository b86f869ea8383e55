import Colca.Store.StoreInv

/-!
# The indexes of a store are exact

Every step of a store in operation keeps its invariant, from the first opening on: a write path adds
whole records at the heads, a removal takes whole records, and a reopen trusts the marks it finds, which
are up to date. `indexes_exact` reads the three indexes off the invariant.

The store it starts from need not be new. Where an older version left records without index entries,
its marks say so, and the coverage of the indexes starts above them.
-/

namespace Colca.StoreRun

open Uns Function

variable {env : WriteEnv} {s s' : State} {st : Stream} {e : Event}

/-! ### The invariant is kept -/

section Kept

variable {b : Draft} {store : Store} {x : Removal} {gaps : List Record} {o : ℕ}

theorem Store.Wrote.recordAt_eq {s₀ s₁ : Store} (hw : s₀.Wrote s₁ b) (st : Stream) (o : ℕ) :
    recordAt s₁.disk st o = recordAt (b.view s₀.disk) st o :=
  recordAt_congr (hw.disk _ rfl)

/-- A draft of additions leaves what stands below the heads. -/
theorem wrote_recordAt (hb : s.store.draft.Adds env.codec b) (hw : s.store.Wrote store b)
    (ho : o < s.next st) : recordAt store.disk st o = recordAt s.store.disk st o := by
  rw [Store.Wrote.recordAt_eq hw, hb.recordAt_view s.store.disk ho]
  rfl

theorem Removal.draft_adds (s : Store) (x : Removal) (gaps : List Record) :
    (s.draft.remove x.stream x.gone x.shed).Adds env.codec (x.draft env s gaps) :=
  Draft.adds_addAll _ _

/-- Below the heads a removal leaves what it does not name. -/
theorem remove_recordAt (ho : o < s.next st) : recordAt (s.remove env x gaps).store.disk st o =
    recordAt (removeKeys s.store.disk x.stream x.gone) st o := by
  have hw := s.store.commit_wrote (x.draft env s.store gaps)
  show recordAt (s.store.commit (x.draft env s.store gaps)).disk st o = _
  rw [Store.Wrote.recordAt_eq hw, (Removal.draft_adds s.store x gaps).recordAt_view s.store.disk ho,
    Draft.view_remove]
  rfl

theorem wrote_later (hb : s.store.draft.Adds env.codec b) (hw : s.store.Wrote store b) :
    Later s (s.wrote store b) where
  next_le st := by
    show s.store.mem.next st ≤ store.mem.next st
    rw [hw.next]
    exact hb.next_le st
  lwm_le _ := le_rfl
  holes_le _ := le_rfl
  kept st o e ho he := (wrote_recordAt hb hw ho).symm.trans he
  same _ _ _ o ho := wrote_recordAt hb hw ho

theorem Removal.Sound.later {scans : ℕ → Option Scan} (hx : x.Sound s) :
    Later s { s.remove env x gaps with scans := scans } where
  next_le := (Removal.draft_adds s.store x gaps).next_le
  lwm_le := (forall_update_iff s.lwm fun st n ↦ s.lwm st ≤ n).mpr ⟨hx.lwm_le, fun _ _ ↦ le_rfl⟩
  holes_le st := by
    show s.holes st ≤ (if x.holes then update s.holes x.stream (s.holes x.stream + 1)
      else s.holes) st
    split
    · exact (forall_update_iff s.holes fun st n ↦ s.holes st ≤ n).mpr
        ⟨Nat.le_succ _, fun _ _ ↦ le_rfl⟩ st
    · exact le_rfl
  kept st o e ho he := (recordAt_of_removeKeys ((remove_recordAt ho).symm.trans he)).1
  same st hlwm hholes o ho := by
    refine (remove_recordAt ho).trans (recordAt_removeKeys_of_not (.inl ?_))
    -- the stream of the removal shows it in one of the two marks
    rintro rfl
    have hlwm : update s.lwm x.stream x.lwm x.stream = s.lwm x.stream := hlwm
    have hholes : (if x.holes then update s.holes x.stream (s.holes x.stream + 1)
      else s.holes) x.stream = s.holes x.stream := hholes
    rw [update_self] at hlwm
    cases hcount : x.holes with
    | true =>
      rw [hcount, if_pos rfl, update_self] at hholes
      exact absurd hholes (Nat.succ_ne_self _)
    | false => exact absurd hlwm (hx.moves hcount).ne'

/-- Apart from a reopen, which ends the scans, a step takes a store forward. -/
theorem Does.later (hi : Inv s) (h : Does env s e s') (hne : e ≠ .reopen) : Later s s' := by
  cases h with
  | wrote hb hw => exact wrote_later hb hw
  | scanned _ => exact .of_scans s _
  | removed hx _ => exact (hi.sound hx).later
  | reopened h => exact absurd h hne

/-- The marks of the indexes move with the heads. -/
theorem Inv.marked_of_wrote (hi : Inv s) (hw : s.store.Wrote store b) (st : Stream)
    (hfix : st.isFixed) : store.disk (.indexed st) = some (.num (store.mem.next st)) := by
  rw [hw.indexed st hfix, hw.next]
  split
  · rename_i hsame
    rw [hsame]
    exact hi.marked st hfix
  · rfl

theorem Inv.wrote (hi : Inv s) (hb : s.store.draft.Adds env.codec b) (hw : s.store.Wrote store b) :
    Inv (s.wrote store b) where
  layout := by
    have hl : Layout s.lwm s.sigFrom s.targetFrom b.next (b.view s.store.disk) :=
      Layout.adds (show Layout _ _ _ s.store.draft.next (s.store.draft.view s.store.disk) from hi.layout)
        hb hi.lwm_le
    show Layout s.lwm s.sigFrom s.targetFrom store.mem.next store.disk
    rw [hw.next]
    exact hl.congr hw.disk
  lwm_le st := (hi.lwm_le st).trans ((wrote_later hb hw).next_le st)
  marked := hi.marked_of_wrote hw
  scans i y hy := (hi.scans i y hy).later (wrote_later hb hw)

theorem Inv.removed {scans : ℕ → Option Scan} (hi : Inv s) (hx : x.Sound s)
    (hscans : ∀ i y, scans i = some y → y.Valid s) : Inv { s.remove env x gaps with scans := scans } := by
  have hle : ∀ st, update s.lwm x.stream x.lwm st ≤ s.next st :=
    (forall_update_iff s.lwm fun st n ↦ n ≤ s.next st).mpr ⟨hx.le_next, fun st _ ↦ hi.lwm_le st⟩
  have hw := s.store.commit_wrote (x.draft env s.store gaps)
  refine ⟨?_, fun st ↦ (hle st).trans ((Removal.draft_adds s.store x gaps).next_le st),
    hi.marked_of_wrote hw, fun i y hy ↦ (hscans i y hy).later hx.later⟩
  have hl : Layout (update s.lwm x.stream x.lwm) s.sigFrom s.targetFrom
      (x.draft env s.store gaps).next ((x.draft env s.store gaps).view s.store.disk) := by
    refine Layout.adds ?_ (Removal.draft_adds s.store x gaps) hle
    rw [Draft.view_remove]
    exact hi.layout.remove hx.whole hx.above
  exact hl.congr hw.disk

/-- A store that keeps its marks is trusted when it is opened again. -/
theorem Inv.trusted (hi : Inv s) (legacy : Bool) (hfix : st.isFixed) :
    indexTrust s.store.reload legacy st = true := by
  have hix : readU64 s.store.reload.disk (.indexed st) 0 = s.next st := readU64_of_num (hi.marked st hfix)
  have hnext : s.store.reload.mem.next st = s.next st := congrFun s.store.reload_next st
  have hpos : s.next st ≠ 0 := (s.store.agrees.next_pos st hfix).ne'
  rw [indexTrust, if_pos (by rw [hix]; exact hpos), hix, hnext]
  exact decide_eq_true rfl

theorem Inv.reopen_disk (hi : Inv s) : s.reopen.store.disk = s.store.disk := by
  have hall : (Stream.all.all fun st ↦ indexTrust s.store.reload false st) = true :=
    List.all_eq_true.mpr fun st hst ↦ hi.trusted false (Stream.mem_all.mp hst)
  show indexedDisk s.store.reload _ = _
  rw [hall]
  funext k
  cases k with
  | indexed st =>
    show (if st.isFixed then some (Val.num (s.store.reload.mem.next st)) else s.store.disk (.indexed st)) = _
    split
    · rename_i hfix
      rw [hi.marked st hfix, s.store.reload_next]
      rfl
    · rfl
  | _ => rfl

theorem State.reopen_next (s : State) : s.reopen.next = s.next := s.store.reload_next

theorem Inv.reopen_from (hi : Inv s) (hfix : st.isFixed) :
    s.reopen.sigFrom st = s.sigFrom st ∧ s.reopen.targetFrom st = s.targetFrom st := by
  have htrusted := hi.trusted false hfix
  exact ⟨if_pos htrusted, if_pos htrusted⟩

theorem Inv.reopen (hi : Inv s) : Inv s.reopen := by
  have hd := hi.reopen_disk
  have hfixed : ∀ {st}, 0 < s.next st → st.isFixed := fun {st} hpos ↦ by
    by_contra hfix
    exact hpos.ne' (s.store.agrees.next_other st hfix)
  refine ⟨?_, fun st ↦ ?_, fun st hfix ↦ ?_, nofun⟩
  · show Layout s.lwm s.reopen.sigFrom s.reopen.targetFrom s.reopen.next s.reopen.store.disk
    rw [hd, s.reopen_next]
    refine ⟨hi.layout.records, ?_, ?_, hi.layout.kv⟩
    · refine .of_below hi.layout.records hi.layout.sig.lt_next hi.layout.sig.names
        fun st hlt id o hle ↦ ?_
      rw [(hi.reopen_from (hfixed (Nat.zero_lt_of_lt hlt))).1] at hle
      exact hi.layout.sig.exact_of_le st id o hle
    · refine .of_below hi.layout.records hi.layout.target.lt_next hi.layout.target.names
        fun st hlt node o e hle ↦ ?_
      rw [(hi.reopen_from (hfixed (Nat.zero_lt_of_lt hlt))).2] at hle
      exact hi.layout.target.complete st node o e hle
  · rw [s.reopen_next]
    exact hi.lwm_le st
  · rw [hd, s.reopen_next]
    exact hi.marked st hfix

/-- **What a step does keeps the invariant.** -/
theorem Does.inv (hi : Inv s) (h : Does env s e s') : Inv s' := by
  cases h with
  | wrote hb hw => exact hi.wrote hb hw
  | scanned hscans =>
    exact ⟨hi.layout, hi.lwm_le, hi.marked, fun i x hx ↦ (hscans i x hx).later (.of_scans s _)⟩
  | removed hx hscans => exact hi.removed (hi.sound hx) hscans
  | reopened _ => exact hi.reopen

end Kept

/-- Every step, a reopen included, hands out offsets and removes records, and does nothing else to
them. -/
structure Forward (s s' : State) : Prop where
  next_le : ∀ st, s.next st ≤ s'.next st
  lwm_le : ∀ st, s.lwm st ≤ s'.lwm st
  kept : ∀ st o e, o < s.next st → recordAt s'.store.disk st o = some e →
    recordAt s.store.disk st o = some e

theorem Does.forward (hi : Inv s) (h : Does env s e s') : Forward s s' := by
  by_cases hne : e = .reopen
  · cases h with
    | wrote hb hw => exact ⟨(wrote_later hb hw).next_le, fun _ ↦ le_rfl, (wrote_later hb hw).kept⟩
    | scanned _ => exact ⟨fun _ ↦ le_rfl, fun _ ↦ le_rfl, fun _ _ _ _ h ↦ h⟩
    | removed hx _ => exact { (hi.sound hx).later with }
    | reopened _ =>
      refine ⟨fun st ↦ (congrFun s.reopen_next st).ge, fun _ ↦ le_rfl, fun st o e _ he ↦ ?_⟩
      rw [hi.reopen_disk] at he
      exact he
  · have hl := h.later hi hne
    exact { hl with }

/-! ### The first opening -/

section Start

variable {f : Found}

theorem kvIndexed_reconcile (d : Disk) : KVIndexed (reconcileKVIndex d) := by
  intro ct path node topic
  show (if _ then _ else _ : Option Val).isSome ↔ (d (.kv path node topic)).isSome ∧ _
  split
  · rename_i h
    exact ⟨fun _ ↦ h, fun _ ↦ rfl⟩
  · rename_i h
    exact ⟨fun hkey ↦ (nomatch hkey), fun hkey ↦ absurd hkey h⟩

theorem indexTrust_reload (s : Store) (legacy : Bool) : indexTrust s.reload legacy = indexTrust s legacy := by
  funext st
  unfold indexTrust
  rw [s.reload_next]
  rfl

theorem start_disk {k : Key} (hk : k.isState = false) (hix : ∀ st, k ≠ .indexed st) :
    (start f).store.disk k = f.store.disk k :=
  indexedDisk_eq hk hix

theorem start_recordAt (st : Stream) (o : ℕ) :
    recordAt (start f).store.disk st o = recordAt f.store.disk st o :=
  recordAt_congr (start_disk rfl fun _ ↦ Key.noConfusion)

theorem start_next : (start f).next = f.store.mem.next := f.store.reload_next

/-- An index that covers anything of a stream was trusted, and covers what its mark says. -/
theorem of_coverage_lt {trust : Bool} {mark : Option ℕ} {next : ℕ}
    (h : (if trust then mark.getD next else next) < next) :
    trust = true ∧ mark = some (if trust then mark.getD next else next) := by
  cases trust with
  | false => exact absurd h (Nat.lt_irrefl _)
  | true =>
    refine ⟨rfl, ?_⟩
    cases mark with
    | none => exact absurd h (Nat.lt_irrefl _)
    | some n => rfl

theorem start_sigFrom (f : Found) : (start f).sigFrom = fun st ↦
    if indexTrust f.store f.legacySig st then (f.sigFrom st).getD (f.store.mem.next st)
    else f.store.mem.next st := by
  rw [← f.store.reload_next, ← indexTrust_reload]
  rfl

theorem start_targetFrom (f : Found) : (start f).targetFrom = fun st ↦
    if indexTrust f.store f.legacySig st then (f.targetFrom st).getD (f.store.mem.next st)
    else f.store.mem.next st := by
  rw [← f.store.reload_next, ← indexTrust_reload]
  rfl

theorem start_kvIndexed (f : Found) : KVIndexed (start f).store.disk := by
  by_cases hall : (Stream.all.all fun st ↦ indexTrust f.store.reload f.legacyKV st) = true
  · refine (f.kv_indexed fun st hfix ↦ ?_).congr fun k hk ↦ ?_
    · rw [← indexTrust_reload]
      exact List.all_eq_true.mp hall st (Stream.mem_all.mpr hfix)
    · show indexedDisk f.store.reload _ k = _
      rw [hall]
      cases k <;> first | rfl | cases hk
  · refine (kvIndexed_reconcile f.store.disk).congr fun k hk ↦ ?_
    show indexedDisk f.store.reload _ k = _
    rw [Bool.eq_false_of_not_eq_true hall]
    cases k <;> first | rfl | cases hk

/-- A store is in order once it is open. -/
theorem inv_start (f : Found) : Inv (start f) := by
  have hsig : ∀ st id o, (start f).store.disk (.sig st id o) = f.store.disk (.sig st id o) :=
    fun st id o ↦ start_disk rfl fun _ ↦ Key.noConfusion
  have htarget : ∀ st node o, (start f).store.disk (.target st node o) = f.store.disk (.target st node o) :=
    fun st node o ↦ start_disk rfl fun _ ↦ Key.noConfusion
  have hrecords : RecordsWithin (start f).lwm (start f).next (start f).store.disk := by
    refine ⟨?_, ?_⟩
    · simp only [start_recordAt]
      exact f.records.lwm_le
    · simpa only [start_recordAt, start_next] using f.records.lt_next
  refine ⟨⟨hrecords, ?_, ?_, start_kvIndexed f⟩, fun st ↦ ?_, fun st hfix ↦ ?_, nofun⟩
  · refine .of_below hrecords ?_ ?_ fun st hlt ↦ ?_
    · simpa only [hsig, start_next] using f.sig_lt
    · simpa only [hsig, start_recordAt] using f.sig_names
    · rw [start_next, start_sigFrom] at hlt
      rw [start_sigFrom]
      obtain ⟨htrust, hfrom⟩ := of_coverage_lt hlt
      simpa only [hsig, start_recordAt] using f.sig_exact st _ htrust hfrom
  · refine .of_below hrecords ?_ ?_ fun st hlt ↦ ?_
    · simpa only [htarget, start_next] using f.target_lt
    · simpa only [htarget, start_recordAt] using f.target_names
    · rw [start_next, start_targetFrom] at hlt
      rw [start_targetFrom]
      obtain ⟨htrust, hfrom⟩ := of_coverage_lt hlt
      simpa only [htarget, start_recordAt] using f.target_complete st _ htrust hfrom
  · rw [start_next]
    exact f.lwm_le st
  · exact if_pos hfix

end Start

/-! ### The indexes -/

theorem inv_of_reachable {f : Found} (h : (system env f).Reachable s) : Inv s :=
  StateMachine.Reachable.invariant (inv_start f) (fun _ _ _ hi hs ↦ (hi.does hs).inv hi) h

/-- The three indexes say what is stored. -/
structure State.IndexesExact (s : State) : Prop where
  /-- The contract index has exactly one key for each entry whose topic names a contract. -/
  contract : ∀ ct path node topic, (s.store.disk (.kvIndex ct path node topic)).isSome ↔
    (s.store.disk (.kv path node topic)).isSome ∧ contractOf topic = some ct
  /-- From its coverage on, the signal index has a key exactly where a record carries the signal. -/
  signal : ∀ st id o, s.sigFrom st ≤ o → ((s.store.disk (.sig st id o)).isSome ↔
    ∃ e, recordAt s.store.disk st o = some e ∧ e.signalID = id ∧ id ≠ "")
  /-- From its coverage on, the target index has the key of every command. -/
  target : ∀ st node o e, s.targetFrom st ≤ o → recordAt s.store.disk st o = some e →
    commandTarget e.topic = some node → (s.store.disk (.target st node o)).isSome
  /-- No key at the offset of a record names another target. -/
  names : ∀ st node o e, (s.store.disk (.target st node o)).isSome →
    recordAt s.store.disk st o = some e → commandTarget e.topic = some node

/-- **The indexes are exact in every state reached.** -/
theorem indexes_exact (env : WriteEnv) (f : Found) (s : State) (h : (system env f).Reachable s) :
    s.IndexesExact := by
  have hi := inv_of_reachable h
  exact ⟨hi.layout.kv, hi.layout.sig.exact_of_le, hi.layout.target.complete, hi.layout.target.names⟩

/-! ### A store with metrics -/

/-- Every metric is of one signal, records cost what their payloads do, and nothing stays local. -/
def sampleEnv : WriteEnv where
  codec := ⟨fun e ↦ e.payload.length, fun _ ↦ "flow"⟩
  maxRecordBytes := 0
  localOnly _ _ := some false

/-- A metric sample. -/
def sampleMetric (v : UInt8) : Record :=
  { topic := ["colca", "v1", "_Metric", "edge", "tank"], payload := [v], kvPath := ["tank"], kvNode := "edge" }

/-- Three samples, and the first pruned. -/
def samplePrune : List Event :=
  [.write (.append [⟨.metrics, [sampleMetric 1, sampleMetric 2, sampleMetric 3]⟩]) true,
    .begin_ 0 .prune .metrics, .readPrune 0 2, .commitPrune 0 4 []]

/-- The two samples that are left are indexed, and the one that is gone is not. -/
def sampleIndexed (s : State) : Bool :=
  (s.store.disk (.sig .metrics "flow" 1)).isNone && (s.store.disk (.sig .metrics "flow" 2)).isSome &&
    (s.store.disk (.sig .metrics "flow" 3)).isSome

theorem indexes_exact_samplePrune : ∃ s, (system sampleEnv .empty).Reachable s ∧
    sampleIndexed s = true ∧ s.IndexesExact := by
  obtain ⟨s, hreach, hs⟩ := (system sampleEnv .empty).exists_reachable samplePrune (sampleIndexed ·)
  exact ⟨s, hreach, hs, indexes_exact sampleEnv .empty s hreach⟩

/-! ### Runs from any state on -/

theorem Forward.trans {t : State} (h : Forward s t) (h' : Forward t s') : Forward s s' where
  next_le st := (h.next_le st).trans (h'.next_le st)
  lwm_le st := (h.lwm_le st).trans (h'.lwm_le st)
  kept st o e ho he := h.kept st o e ho (h'.kept st o e (ho.trans_le (h.next_le st)) he)

/-- **What is stored stays as it is.** Along every run, reopenings included, no mark moves back, and
where a record stands at an offset that was handed out before, it stood there before. -/
theorem records_kept {f : Found} (h : (system env f).Reachable s) {es : List Event}
    (hrun : (system env f).runWithin (fun _ _ ↦ True) s es = some s') : Forward s s' := by
  induction es generalizing s with
  | nil =>
    obtain rfl := Option.some.inj hrun
    exact ⟨fun _ ↦ le_rfl, fun _ ↦ le_rfl, fun _ _ _ _ he ↦ he⟩
  | cons e es ih =>
    rw [StateMachine.runWithin, if_pos trivial] at hrun
    obtain ⟨t, ht, hrun⟩ := Option.bind_eq_some_iff.mp hrun
    exact (((inv_of_reachable h).does ht).forward (inv_of_reachable h)).trans (ih (h.step trivial ht) hrun)

theorem records_kept_samplePrune : ∃ s, 1 < s.lwm .metrics ∧ Forward (start .empty) s := by
  obtain ⟨s, hs, hp⟩ := (Option.any_eq_true _ _).mp (by decide +kernel :
    ((system sampleEnv .empty).runWithin (fun _ _ ↦ True) (start .empty) samplePrune).any (1 < ·.lwm .metrics))
  exact ⟨s, of_decide_eq_true hp, records_kept .start hs⟩

end Colca.StoreRun
