import Colca.Http.Fetch

/-!
# A consumer misses nothing silently

Every page is complete for what stood in the stream when it was read (`readPage_valid`), and no page
starts behind a hole: a fetch starts at the cursor or where a page ended, so everything below was passed
by a page (`Crossed`). What a prune took of the offsets ahead lies below the low-water mark, and the
first page to pass it finds that mark when it looks for a gap.

A page may be returned before a prune takes its records. No gap is reported then, and none is needed:
`overtaken_in_hand` is the run.
-/

namespace Colca.Fetch

open Uns List Function Option StoreRun

variable {env : WriteEnv} {u : Consumer} {s s' : State} {run run' : StoreRun.State} {acked : ℕ}

/-! ### Stored signals -/

/-- A record is written with the signal of its payload. -/
theorem metricSignalID_of_encode {c : Codec} {off : ℕ} {r : Record} (h : (c.encode off r).signalID = "") :
    c.metricSignalID (c.encode off r).topic (c.encode off r).payload = "" := by
  show c.metricSignalID r.topic r.payload = ""
  have h : (if isFetchLogsAck r.topic && c.metricSignalID r.topic r.payload = "" then fetchLogsAckKey
    else c.metricSignalID r.topic r.payload) = "" := h
  split at h
  · exact absurd h (by decide)
  · exact h

variable {e : StoreRun.Event} {pages : List Page} {r : Request} {head : ℕ}

theorem SignalsStored.does (h : SignalsStored env.codec run) (hi : StoreRun.Inv run)
    (hd : Does env run e run') : SignalsStored env.codec run' := by
  intro st o x hfrom hx hnone
  cases hd with
  | @wrote store b hb hw =>
    have hx : recordAt store.disk st o = some x := hx
    rw [StoreRun.Store.Wrote.recordAt_eq hw] at hx
    rcases hb.recordAt_or_encode hx with hold | ⟨off, r, rfl⟩
    · exact h st o x hfrom hold hnone
    · exact metricSignalID_of_encode hnone
  | scanned _ => exact h st o x hfrom hx hnone
  | @removed _ y gaps _ _ =>
    have hw := run.store.commit_wrote (y.draft env run.store gaps)
    have hx : recordAt (run.store.commit (y.draft env run.store gaps)).disk st o = some x := hx
    rw [StoreRun.Store.Wrote.recordAt_eq hw] at hx
    rcases (Removal.draft_adds run.store y gaps).recordAt_or_encode hx with hold | ⟨off, r, rfl⟩
    · rw [Draft.view_remove] at hold
      exact h st o x hfrom (recordAt_of_removeKeys hold).1 hnone
    · exact metricSignalID_of_encode hnone
  | reopened _ =>
    rw [hi.reopen_disk] at hx
    -- a stream that has a record is one of the eight
    have hfix : st.isFixed := by
      by_contra hfix
      exact absurd (hi.layout.records.lt_next st o x hx)
        ((run.store.agrees.next_other st hfix).le.trans (Nat.zero_le _)).not_gt
    rw [(hi.reopen_from hfix).1] at hfrom
    exact h st o x hfrom hx hnone

/-! ### Pages -/

/-- A filter that takes records of the signals only. A record without a signal is of none. -/
def OfSignals (c : Codec) (signals : List String) (accepts : ℕ × RecEnc → Bool) : Prop :=
  ∀ x, accepts x = true → signalOf c x.2 ∈ signals ∧ signalOf c x.2 ≠ ""

/-- The index has an entry for every record of the signals. -/
theorem indexed_of_signals {st : Stream} {signals : List String} {accepts : ℕ × RecEnc → Bool}
    (hi : StoreRun.Inv run) (hsig : SignalsStored env.codec run)
    (hacc : OfSignals env.codec signals accepts) :
    Indexed accepts run.store.disk st signals (run.sigFrom st) (run.lwm st) := by
  intro o e hfrom he h
  obtain ⟨hmem, hname⟩ := hacc (o, e) h
  -- a record that is stored without a signal has none in its payload
  have hne : e.signalID ≠ "" := by
    intro hnone
    rw [signalOf, if_neg (not_not.mpr hnone)] at hname
    exact hname (hsig st o e hfrom he hnone)
  rw [signalOf, if_pos hne] at hmem
  refine ⟨hi.layout.records.lwm_le st o e he, e.signalID, hmem, ?_⟩
  exact (hi.layout.sig.exact_of_le st _ o hfrom).mpr ⟨e, he, rfl, hne⟩

/-- The index has an entry for every record a consumer of signals accepts. -/
theorem indexed_of_inv (hi : StoreRun.Inv run) (hsig : SignalsStored env.codec run) {ids : List String}
    (hids : u.signals = some ids) :
    Indexed (u.accepts env.codec) run.store.disk u.stream ids (run.sigFrom u.stream)
      (run.lwm u.stream) := by
  refine indexed_of_signals hi hsig fun x hx ↦ ?_
  have hall := (Bool.and_eq_true_iff.mp hx).2
  rw [hids] at hall
  have hmem : signalOf env.codec x.2 ∈ ids := of_decide_eq_true hall
  exact ⟨hmem, fun hnone ↦ u.named ids hids (hnone ▸ hmem)⟩

/-- What a fetch reads. -/
theorem reads_out (hi : StoreRun.Inv run) (hsig : SignalsStored env.codec run) (start limit maxScan
    maxBytes : ℕ) (hhead : head ≤ run.next u.stream) :
    Reads (u.accepts env.codec) run.store.disk u.stream start (run.next u.stream)
      (readOut env u run start limit maxScan maxBytes head) := by
  unfold readOut
  split
  · rename_i ids hids
    exact reads_signals _ (indexed_of_inv hi hsig hids) start _
  · have h := reads_recordsBounded ⟨limit, maxScan, maxBytes, env.codec.recSize⟩ (u.accepts env.codec)
      run.store.disk u.stream start head
    exact ⟨h.complete, h.sound, h.increasing, h.start_le, h.next_le.trans (max_le_max le_rfl hhead)⟩

/-- What is known of a page: it lies below the head, and it holds of what was written in its range all
that it has to. -/
structure Page.Valid (env : WriteEnv) (u : Consumer) (written : ℕ → Option RecEnc) (next : ℕ) (p : Page) :
    Prop where
  lt_next : ∀ o, p.start ≤ o → o < p.next → o < next
  complete : ∀ o e, p.start ≤ o → o < p.next → written o = some e →
    (o, e) ∈ p.records ∨ u.accepts env.codec (o, e) = false ∨ p.view o = none
  within : ∀ x ∈ p.records, p.start ≤ x.1 ∧ x.1 < p.next
  increasing : p.records.Pairwise (·.1 < ·.1)

variable {written written' : ℕ → Option RecEnc} {next next' : ℕ} {p q : Page}

/-- What was written stays so. -/
theorem Page.Valid.mono (h : p.Valid env u written next) (hnext : next ≤ next')
    (hw : ∀ o, o < next → written' o = written o) : p.Valid env u written' next' :=
  { h with
    lt_next o hlo hlt := (h.lt_next o hlo hlt).trans_le hnext
    complete o e hlo hlt he := h.complete o e hlo hlt ((hw o (h.lt_next o hlo hlt)).symm.trans he) }

/-- **A page is complete for what stands in the stream as it is read.** -/
theorem readPage_valid (hi : StoreRun.Inv run) (hsig : SignalsStored env.codec run)
    (hw : ∀ o e, recordAt run.store.disk u.stream o = some e → written o = some e)
    (start limit maxScan maxBytes : ℕ) (hhead : head ≤ run.next u.stream) :
    (readPage env u run start limit maxScan maxBytes head).Valid env u written (run.next u.stream) := by
  have hr := reads_out hi hsig start limit maxScan maxBytes hhead
  refine ⟨fun o hlo hlt ↦ ?_, fun o e hlo hlt he ↦ ?_, fun x hx ↦ ?_, hr.increasing⟩
  · exact (lt_max_iff.mp (hlt.trans_le hr.next_le)).resolve_left hlo.not_gt
  · show _ ∨ _ ∨ recordAt run.store.disk u.stream o = none
    cases hview : recordAt run.store.disk u.stream o with
    | none => exact .inr (.inr rfl)
    | some e' =>
      obtain rfl : e' = e := some.inj ((hw o e' hview).symm.trans he)
      cases hacc : u.accepts env.codec (o, e') with
      | false => exact .inr (.inl rfl)
      | true => exact .inl (hr.complete o e' hlo hlt hview hacc)
  · obtain ⟨hlo, hlt, -⟩ := hr.sound x hx
    exact ⟨hlo, hlt⟩

/-- A gap that is found covers what the mark has passed. -/
theorem reports_gapAt {lwm o : ℕ} (hpos : 0 < o) (hstart : p.start ≤ o) (hlwm : o < lwm) :
    ({ p with gap := gapAt lwm p.start } : Page).reports o := by
  have hmax : max p.start 1 ≤ o := max_le hstart hpos
  refine ⟨(max p.start 1, lwm - 1), ?_, hmax, Nat.le_sub_one_of_lt hlwm⟩
  show gapAt lwm p.start = _
  rw [gapAt, if_neg]
  omega

/-! ### The invariant -/

/-- Every offset below `n` that the consumer has not acknowledged before was passed by a page. -/
def Crossed (pages : List Page) (acked n : ℕ) : Prop :=
  ∀ o, acked < o → o < n → ∃ p ∈ pages, p.start ≤ o ∧ o < p.next

theorem Crossed.cons {n : ℕ} (h : Crossed pages acked n) : Crossed (p :: pages) acked n := by
  intro o hgt hlt
  obtain ⟨q, hq, hcross⟩ := h o hgt hlt
  exact ⟨q, mem_cons_of_mem _ hq, hcross⟩

/-- A page that starts where everything below was passed extends what is passed. -/
theorem Crossed.extend (h : Crossed pages acked p.start) (hp : p ∈ pages) : Crossed pages acked p.next := by
  intro o hgt hlt
  by_cases hstart : p.start ≤ o
  · exact ⟨p, hp, hstart, hlt⟩
  · exact h o hgt (Nat.lt_of_not_le hstart)

/-- What is known of a fetch in flight. -/
def Request.Valid (env : WriteEnv) (u : Consumer) (written : ℕ → Option RecEnc) (next : ℕ) : Request → Prop
  | .asked _ => True
  | .read p => p.Valid env u written next

structure Inv (env : WriteEnv) (u : Consumer) (acked : ℕ) (s : State) : Prop where
  store : StoreRun.Inv s.run
  signals : SignalsStored env.codec s.run
  written : ∀ o e, recordAt s.run.store.disk u.stream o = some e → s.written o = some e
  acked_lt : acked < s.cursor
  cursor : Crossed s.pages acked s.cursor
  fetches : ∀ i r, s.fetches i = some r →
    Crossed s.pages acked r.start ∧ r.Valid env u s.written (s.run.next u.stream)
  pages : ∀ p ∈ s.pages, Crossed s.pages acked p.start ∧ p.Valid env u s.written (s.run.next u.stream)
  /-- What a prune took ahead of the consumer lies below the low-water mark. -/
  missed : ∀ o, s.missed o = true → acked < o ∧ o < s.run.lwm u.stream
  /-- Once a page has gone past it, a page has reported it. -/
  reported : ∀ o, s.missed o = true → (∃ p ∈ s.pages, o < p.next) → ∃ p ∈ s.pages, p.reports o

theorem Request.Valid.mono (h : r.Valid env u written next) (hnext : next ≤ next')
    (hw : ∀ o, o < next → written' o = written o) : r.Valid env u written' next' := by
  cases r with
  | asked _ => trivial
  | read p => exact Page.Valid.mono h hnext hw

/-- A step of the store. -/
theorem Inv.moved (hi : Inv env u acked s) (hd : Does env s.run e run)
    {fetches : ℕ → Option Request} (hf : ∀ i r, fetches i = some r → s.fetches i = some r) :
    Inv env u acked (s.moved u.stream run fetches) := by
  have hfwd := hd.forward hi.store
  have hw : ∀ o, o < s.run.next u.stream → (s.moved u.stream run fetches).written o = s.written o :=
    fun o ho ↦ if_pos ho
  have hmissed : ∀ o, (s.moved u.stream run fetches).missed o = true → s.missed o = true ∨
      (prunes s.run run u.stream o = true ∧ s.cursor ≤ o ∧ ∀ p ∈ s.pages, p.next ≤ o) := by
    intro o ho
    simpa [State.moved, and_assoc] using ho
  refine
    { store := hd.inv hi.store
      signals := hi.signals.does hi.store hd
      written := fun o e he ↦ ?_
      acked_lt := hi.acked_lt
      cursor := hi.cursor
      fetches := fun i r hr ↦ ?_
      pages := fun p hp ↦ ⟨(hi.pages p hp).1, (hi.pages p hp).2.mono (hfwd.next_le u.stream) hw⟩
      missed := fun o ho ↦ ?_
      reported := fun o ho hpast ↦ ?_ }
  · by_cases hlt : o < s.run.next u.stream
    · rw [hw o hlt]
      exact hi.written o e (hfwd.kept u.stream o e hlt he)
    · exact (if_neg hlt).trans he
  · obtain ⟨hcross, hvalid⟩ := hi.fetches i r (hf i r hr)
    exact ⟨hcross, hvalid.mono (hfwd.next_le u.stream) hw⟩
  · rcases hmissed o ho with hold | ⟨hpruned, hcur, -⟩
    · exact ⟨(hi.missed o hold).1, (hi.missed o hold).2.trans_le (hfwd.lwm_le u.stream)⟩
    · exact ⟨hi.acked_lt.trans_le hcur, of_decide_eq_true (Bool.and_eq_true_iff.mp hpruned).2⟩
  · rcases hmissed o ho with hold | ⟨-, -, hbelow⟩
    · exact hi.reported o hold hpast
    · obtain ⟨p, hp, hlt⟩ := hpast
      exact absurd hlt (hbelow p hp).not_gt

/-- A fetch goes on. -/
theorem Inv.put (hi : Inv env u acked s) (i : ℕ) {r : Option Request}
    (hr : ∀ x, r = some x → Crossed s.pages acked x.start ∧ x.Valid env u s.written (s.run.next u.stream)) :
    Inv env u acked (s.put i r) := by
  refine { hi with fetches := fun j x hx ↦ ?_ }
  have hx : update s.fetches i r j = some x := hx
  by_cases hj : j = i
  · subst hj
    rw [update_self] at hx
    exact hr x hx
  · rw [update_of_ne hj] at hx
    exact hi.fetches j x hx

/-- **The page is returned.** Were it the first to go past a missed offset, it starts at or below it. -/
theorem Inv.answer (hi : Inv env u acked s) (hcross : Crossed s.pages acked p.start)
    (hp : p.Valid env u s.written (s.run.next u.stream)) :
    Inv env u acked
      { s with pages := { p with gap := gapAt (s.run.lwm u.stream) p.start } :: s.pages } := by
  refine
    { hi with
      cursor := hi.cursor.cons
      fetches := fun i r hr ↦ ⟨(hi.fetches i r hr).1.cons, (hi.fetches i r hr).2⟩
      pages := fun q hq ↦ ?_
      reported := fun o ho hpast ↦ ?_ }
  · rcases mem_cons.mp hq with rfl | hq
    · exact ⟨hcross.cons, { hp with }⟩
    · exact ⟨(hi.pages q hq).1.cons, (hi.pages q hq).2⟩
  · by_cases hold : ∃ q ∈ s.pages, o < q.next
    · obtain ⟨q, hq, hrep⟩ := hi.reported o ho hold
      exact ⟨q, mem_cons_of_mem _ hq, hrep⟩
    · obtain ⟨hgt, hlwm⟩ := hi.missed o ho
      refine ⟨_, mem_cons_self, reports_gapAt (Nat.zero_lt_of_lt hgt) ?_ hlwm⟩
      -- below its start everything was passed by another page
      by_contra hstart
      obtain ⟨q, hq, -, hlt⟩ := hcross o hgt (Nat.lt_of_not_le hstart)
      exact hold ⟨q, hq, hlt⟩

theorem fetchesAfter_eq_some {f : ℕ → Option Request} {i : ℕ}
    (h : fetchesAfter f e i = some r) : f i = some r := by
  cases e with
  | reopen => cases h
  | _ => exact h

theorem Inv.step (hi : Inv env u acked s) {e : Event} (h : step env u s e = some s') :
    Inv env u acked s' := by
  cases e with
  | store e =>
    obtain ⟨run, hrun, rfl⟩ := map_eq_some_iff.mp h
    exact hi.moved (hi.store.does hrun) fun _ _ ↦ fetchesAfter_eq_some
  | ask i ahead =>
    obtain ⟨⟨-, -, hahead⟩, rfl⟩ := ite_none_right_eq_some.mp h |>.imp_right some.inj
    refine hi.put i fun x hx ↦ ?_
    cases hx
    refine ⟨?_, trivial⟩
    show Crossed s.pages acked (max s.cursor (ahead.getD 0))
    cases ahead with
    | none => exact (max_eq_left (Nat.zero_le _)).symm ▸ hi.cursor
    | some n =>
      obtain ⟨p, hp, rfl⟩ := hahead n rfl
      rcases max_choice s.cursor p.next with hmax | hmax
      · exact hmax.symm ▸ hi.cursor
      · exact hmax.symm ▸ (hi.pages p hp).1.extend hp
  | read i limit maxScan maxBytes head =>
    simp only [Fetch.step] at h
    split at h
    · rename_i start hreq
      obtain ⟨⟨-, hhead⟩, rfl⟩ := ite_none_right_eq_some.mp h |>.imp_right some.inj
      refine hi.put i fun x hx ↦ ?_
      cases hx
      exact ⟨(hi.fetches i _ hreq).1, readPage_valid hi.store hi.signals hi.written _ _ _ _ hhead⟩
    · cases h
  | answer i =>
    simp only [Fetch.step] at h
    split at h
    · rename_i p hreq
      obtain rfl := some.inj h
      obtain ⟨hcross, hvalid⟩ := hi.fetches i _ hreq
      exact (hi.put i (r := none) fun _ hx ↦ nomatch hx).answer hcross hvalid
    · cases h
  | drop i =>
    obtain rfl := some.inj h
    exact hi.put i fun _ hx ↦ nomatch hx
  | ack off =>
    obtain ⟨⟨⟨p, hp, hoff⟩, -⟩, rfl⟩ := ite_none_right_eq_some.mp h |>.imp_right some.inj
    refine { hi with acked_lt := hi.acked_lt.trans_le (le_max_left _ _), cursor := ?_ }
    intro o hgt hlt
    rcases lt_max_iff.mp hlt with hlt | hlt
    · exact hi.cursor o hgt hlt
    · exact (hi.pages p hp).1.extend hp o hgt ((Nat.le_of_lt_succ hlt).trans_lt hoff)

theorem inv_start (f : Found) (hf : SignalsStored env.codec (start f)) (acked : ℕ) :
    Inv env u acked (system env u f acked).start where
  store := StoreRun.inv_start f
  signals := hf
  written _ _ he := he
  acked_lt := Nat.lt_succ_self _
  cursor _ hgt hlt := absurd hgt (Nat.le_of_lt_succ hlt).not_gt
  fetches _ _ h := nomatch h
  pages _ h := nomatch h
  missed _ h := nomatch h
  reported _ h := nomatch h

/-! ### What a consumer is told -/

/-- **A consumer misses nothing silently.** -/
theorem informed_of_reachable (env : WriteEnv) (u : Consumer) (f : Found) (acked : ℕ)
    (hf : SignalsStored env.codec (start f)) (s : State)
    (h : (system env u f acked).Reachable s) : s.Informed env u acked := by
  have hi : Inv env u acked s :=
    StateMachine.Reachable.invariant (inv_start f hf acked) (fun _ _ _ hi hs ↦ hi.step hs) h
  refine ⟨fun o e hgt hlt he ↦ ?_, fun o ho hlt ↦ ?_, fun p hp q hq hle x hx y hy ↦ ?_,
    fun p hp ↦ (hi.pages p hp).2.increasing⟩
  · obtain ⟨p, hp, hlo, hhi⟩ := hi.cursor o hgt hlt
    exact ⟨p, hp, hlo, hhi, (hi.pages p hp).2.complete o e hlo hhi he⟩
  · obtain ⟨p, hp, -, hhi⟩ := hi.cursor o (hi.missed o ho).1 hlt
    exact hi.reported o ho ⟨p, hp, hhi⟩
  · have hx := ((hi.pages p hp).2.within x hx).2
    have hy := ((hi.pages q hq).2.within y hy).1
    omega

/-- A consumer of one signal. -/
def flowReader : Consumer where
  stream := .metrics
  signals := some ["flow"]
  named := by
    rintro ids ⟨⟩
    decide

/-- Of two samples the first is pruned; the page that goes past it says so, and is acknowledged. -/
def readAfterPrune : List Event :=
  [.store (.write (.append [⟨.metrics, [sampleMetric 1, sampleMetric 2]⟩]) true),
    .store (.begin_ 0 .prune .metrics), .store (.readPrune 0 2), .ask 0 none,
    .store (.commitPrune 0 2 []), .read 0 10 0 0 3, .answer 0, .ack 2]

def missedFirst (s : State) : Bool :=
  s.missed 1 && decide (s.cursor = 3) && s.pages.any fun p ↦ decide (p.gap = some (1, 1))

theorem informed_readAfterPrune : ∃ s, SignalsStored sampleEnv.codec (start .empty) ∧
    (system sampleEnv flowReader .empty 0).Reachable s ∧ missedFirst s = true ∧
    s.Informed sampleEnv flowReader 0 := by
  obtain ⟨s, hreach, hs⟩ := (system sampleEnv flowReader .empty 0).exists_reachable readAfterPrune
    (missedFirst ·)
  have hf : SignalsStored sampleEnv.codec (start .empty) := by
    intro st o e _ he
    rw [start_recordAt] at he
    cases he
  exact ⟨s, hf, hreach, hs, informed_of_reachable sampleEnv flowReader .empty 0 hf s hreach⟩

/-- The samples are read first and pruned then, before they are acknowledged. -/
def pruneAfterRead : List Event :=
  [.store (.write (.append [⟨.metrics, [sampleMetric 1, sampleMetric 2]⟩]) true),
    .ask 0 none, .read 0 10 0 0 3, .answer 0,
    .store (.begin_ 0 .prune .metrics), .store (.readPrune 0 2), .store (.commitPrune 0 2 []), .ack 2]

def overtakenFirst (s : State) : Bool :=
  s.overtaken 1 && decide (1 < s.cursor) && s.pages.all fun p ↦ p.gap.isNone

/-- **No gap is reported of records the consumer has in hand**: pruned before they are acknowledged, and
the cursor passes them. -/
theorem overtaken_in_hand : ¬ ∀ s, (system sampleEnv flowReader .empty 0).Reachable s →
    ∀ o, s.overtaken o = true → o < s.cursor → ∃ p ∈ s.pages, p.reports o := by
  intro hall
  obtain ⟨s, hreach, hs⟩ := (system sampleEnv flowReader .empty 0).exists_reachable pruneAfterRead
    (overtakenFirst ·)
  obtain ⟨⟨hover, hcur⟩, hnone⟩ : (s.overtaken 1 = true ∧ 1 < s.cursor) ∧
      ∀ p ∈ s.pages, p.gap.isNone = true := by
    simpa [overtakenFirst] using hs
  obtain ⟨p, hp, g, hg, -⟩ := hall s hreach 1 hover hcur
  exact absurd (hnone p hp) (by simp [hg])

end Colca.Fetch
