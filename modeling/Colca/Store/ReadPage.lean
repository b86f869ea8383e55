import Colca.Lib.PageScan
import Colca.Store.Layout

/-!
# Reading a page of a stream

The two readers of `GET /fetch`. `readRecordsBounded` goes through the records of a stream;
`readSignals` does so below the coverage of the signal index and goes through the index from there on,
where it meets only the records of the signals it is asked for.

Both bound a page in the same three ways, and both are described by `Reads`: the page holds every
accepted record between where it starts and its `next`. For `readSignals` this rests on the index
(`SigIndexed`), and on records being stored with their signal (`SignalsStored`): a record the index does
not know is of no signal.
-/

namespace Colca

open Uns PageScan

/-- A page as it is returned: its records, and where the next one starts. -/
abbrev PageOut := List (ℕ × RecEnc) × ℕ

/-- What is put on a page of the records visited. -/
def pickRecord (accepts : ℕ × RecEnc → Bool) (x : ℕ × RecEnc) : Option RecEnc :=
  if accepts x then some x.2 else none

/-- What is put on a page of the index entries visited: an entry its record outlived is passed. -/
def pickEntry (accepts : ℕ × RecEnc → Bool) (x : ℕ × Option RecEnc) : Option RecEnc :=
  x.2.bind fun e ↦ pickRecord accepts (x.1, e)

/-- `ReadRecordsBounded`, with the head it read before its iterator. -/
def readRecordsBounded (L : PageLimits RecEnc) (accepts : ℕ × RecEnc → Bool) (d : Disk) (st : Stream)
    (start head : ℕ) : PageOut :=
  let r := PageScan.run L (pickRecord accepts) { next := start } (recordsIn d st start head)
  (r.out, r.next)

/-- The index entries of the wanted signals in `[lo, hi)`, in order of their offsets, each with the
record it points at. -/
def sigEntries (d : Disk) (st : Stream) (wanted : List String) (lo hi : ℕ) : List (ℕ × Option RecEnc) :=
  (List.range' lo (hi - lo)).filterMap fun o ↦
    if wanted.any fun id ↦ (d (.sig st id o)).isSome then some (o, recordAt d st o) else none

/-- The index half of `ReadSignals`, on a page that may hold records already. The rounds in which it
collects index entries do not show in what it returns. -/
def readIndex (L : PageLimits RecEnc) (accepts : ℕ × RecEnc → Bool) (d : Disk) (st : Stream)
    (wanted : List String) (lwm head : ℕ) (s : PageScan RecEnc) : PageOut :=
  if head ≤ s.next ∨ s.full L then (s.out, s.next)
  else
    let r := PageScan.run L (pickEntry accepts) s (sigEntries d st wanted (max s.next lwm) head)
    (r.out, r.resume head)

/-- `ReadSignals` on a snapshot with its marks: `covered` is where the signal index starts. -/
def readSignals (L : PageLimits RecEnc) (accepts : ℕ × RecEnc → Bool) (d : Disk) (st : Stream)
    (wanted : List String) (covered lwm start head : ℕ) : PageOut :=
  if start < covered then
    let r := PageScan.run L (pickRecord accepts) { next := start }
      (recordsIn d st start (min covered head))
    if r.left ∨ L.limit ≤ r.out.length ∨ head ≤ covered then (r.out, r.next)
    else readIndex L accepts d st wanted lwm head { r with next := covered }
  else readIndex L accepts d st wanted lwm head { next := start }

/-! ### What a page holds -/

/-- A page of the records from `start` on that are accepted: all of them up to its `next`, in order. -/
structure Reads (accepts : ℕ × RecEnc → Bool) (d : Disk) (st : Stream) (start head : ℕ)
    (p : PageOut) : Prop where
  complete : ∀ o e, start ≤ o → o < p.2 → recordAt d st o = some e → accepts (o, e) = true →
    (o, e) ∈ p.1
  sound : ∀ x ∈ p.1, start ≤ x.1 ∧ x.1 < p.2 ∧ recordAt d st x.1 = some x.2 ∧ accepts x = true
  increasing : p.1.Pairwise (·.1 < ·.1)
  start_le : start ≤ p.2
  next_le : p.2 ≤ max start head

variable {L : PageLimits RecEnc} {accepts : ℕ × RecEnc → Bool} {d : Disk} {st : Stream}
  {wanted : List String} {covered lwm next start head o : ℕ} {e : RecEnc} {s : PageScan RecEnc}

theorem pickRecord_eq_some {x : ℕ × RecEnc} : pickRecord accepts x = some e ↔ accepts x = true ∧ x.2 = e := by
  rw [pickRecord]
  split <;> simp_all

theorem ahead_recordsIn (d : Disk) (st : Stream) (start head : ℕ) :
    ({ next := start } : PageScan RecEnc).Ahead (recordsIn d st start head) :=
  ⟨recordsIn_increasing d st start head, fun _ hx ↦ (mem_recordsIn.mp hx).1⟩

/-- The page of a scan of `[start, hi)`. -/
theorem mem_scan_out : (o, e) ∈ (run L (pickRecord accepts) { next := start }
      (recordsIn d st start head)).out ↔
    start ≤ o ∧ o < head ∧ o < (run L (pickRecord accepts) { next := start }
      (recordsIn d st start head)).next ∧ recordAt d st o = some e ∧ accepts (o, e) = true := by
  rw [mem_run_out (ahead_recordsIn d st start head)]
  constructor
  · rintro (h | ⟨e', hmem, hpick, hlt⟩)
    · cases h
    · obtain ⟨hacc, rfl⟩ := pickRecord_eq_some.mp hpick
      obtain ⟨hlo, hhi, he⟩ := mem_recordsIn.mp hmem
      exact ⟨hlo, hhi, hlt, he, hacc⟩
  · rintro ⟨hlo, hhi, hlt, he, hacc⟩
    exact .inr ⟨e, mem_recordsIn.mpr ⟨hlo, hhi, he⟩, pickRecord_eq_some.mpr ⟨hacc, rfl⟩, hlt⟩

theorem scan_next_le : (run L (pickRecord accepts) { next := start }
    (recordsIn d st start head)).next ≤ max start head :=
  run_next_le (le_max_left _ _) fun _ hx ↦ (mem_recordsIn.mp hx).2.1.trans_le (le_max_right _ _)

theorem reads_recordsBounded (L : PageLimits RecEnc) (accepts : ℕ × RecEnc → Bool) (d : Disk)
    (st : Stream) (start head : ℕ) :
    Reads accepts d st start head (readRecordsBounded L accepts d st start head) where
  complete o e hlo hlt he hacc := by
    have hhead : o < head := (lt_max_iff.mp (hlt.trans_le scan_next_le)).resolve_left hlo.not_gt
    exact mem_scan_out.mpr ⟨hlo, hhead, hlt, he, hacc⟩
  sound x hx := by
    obtain ⟨hlo, -, hlt, he, hacc⟩ := mem_scan_out.mp hx
    exact ⟨hlo, hlt, he, hacc⟩
  increasing := ((ordered_start start).run (ahead_recordsIn d st start head)).increasing
  start_le := le_run_next (ahead_recordsIn d st start head)
  next_le := scan_next_le

/-! ### The index half -/

/-- An entry of an index stands at its own offset. -/
theorem entry_found {p : ℕ → Prop} [DecidablePred p] (o : ℕ) (x : ℕ × Option RecEnc)
    (h : (if p o then some (o, recordAt d st o) else none) = some x) : x.1 = o := by
  obtain ⟨-, heq⟩ := Option.ite_none_right_eq_some.mp h
  cases heq
  rfl

theorem mem_sigEntries {lo hi : ℕ} {a : Option RecEnc} : (o, a) ∈ sigEntries d st wanted lo hi ↔
    lo ≤ o ∧ o < hi ∧ (∃ id ∈ wanted, (d (.sig st id o)).isSome) ∧ a = recordAt d st o := by
  rw [sigEntries, OffsetLog.mem_filterMap_range entry_found]
  simp [@eq_comm _ a]

theorem sigEntries_increasing (d : Disk) (st : Stream) (wanted : List String) (lo hi : ℕ) :
    (sigEntries d st wanted lo hi).Pairwise (·.1 < ·.1) :=
  OffsetLog.filterMap_range_increasing entry_found

theorem ahead_sigEntries (d : Disk) (st : Stream) (wanted : List String) (lwm head : ℕ)
    (s : PageScan RecEnc) : s.Ahead (sigEntries d st wanted (max s.next lwm) head) :=
  ⟨sigEntries_increasing d st wanted _ head, fun _ hx ↦ (le_max_left _ _).trans (mem_sigEntries.mp hx).1⟩

/-- From the coverage on, a record that is accepted has an entry under a wanted signal. -/
def Indexed (accepts : ℕ × RecEnc → Bool) (d : Disk) (st : Stream) (wanted : List String)
    (covered lwm : ℕ) : Prop :=
  ∀ o e, covered ≤ o → recordAt d st o = some e → accepts (o, e) = true →
    lwm ≤ o ∧ ∃ id ∈ wanted, (d (.sig st id o)).isSome

/-- A scan of index entries continues a page of what is accepted below it. The entries have to include
those of every accepted record up to `n`, where the page says the next one starts. -/
theorem reads_entries {xs : List (ℕ × Option RecEnc)} {n : ℕ} (ha : s.Ahead xs) (hord : s.Ordered)
    (hxs : ∀ x ∈ xs, x.2 = recordAt d st x.1) (hstart : start ≤ s.next) (hout : ∀ o e, (o, e) ∈ s.out ↔
      start ≤ o ∧ o < s.next ∧ recordAt d st o = some e ∧ accepts (o, e) = true)
    (hall : ∀ o e, s.next ≤ o → o < n → recordAt d st o = some e → accepts (o, e) = true →
      (o, some e) ∈ xs)
    (hnext : (run L (pickEntry accepts) s xs).next ≤ n) (hhead : n ≤ max start head)
    (hpast : ∀ x ∈ xs, x.1 < n → x.1 < (run L (pickEntry accepts) s xs).next) :
    Reads accepts d st start head ((run L (pickEntry accepts) s xs).out, n) := by
  have hle : s.next ≤ (run L (pickEntry accepts) s xs).next := le_run_next ha
  refine ⟨fun o e hlo ho he hacc ↦ ?_, fun x hx ↦ ?_, (hord.run ha).increasing,
    hstart.trans (hle.trans hnext), hhead⟩
  · refine (mem_run_out ha).mpr ?_
    by_cases hold : o < s.next
    · exact .inl ((hout o e).mpr ⟨hlo, hold, he, hacc⟩)
    · -- the index has an entry for the record, and the scan passed it
      have hentry := hall o e (Nat.le_of_not_lt hold) ho he hacc
      exact .inr ⟨some e, hentry, pickRecord_eq_some.mpr ⟨hacc, rfl⟩, hpast _ hentry ho⟩
  · rcases (mem_run_out (o := x.1) (b := x.2) ha).mp hx with hx | ⟨a, hmem, hpick, hlt⟩
    · obtain ⟨hlo, hx', he, hacc⟩ := (hout x.1 x.2).mp hx
      exact ⟨hlo, hx'.trans_le (hle.trans hnext), he, hacc⟩
    · obtain ⟨e, he, hpick⟩ := Option.bind_eq_some_iff.mp hpick
      obtain ⟨hacc, rfl⟩ := pickRecord_eq_some.mp hpick
      exact ⟨hstart.trans (ha.next_le _ hmem), hlt.trans_le hnext, (hxs _ hmem).symm.trans he, hacc⟩

/-- The index half continues a page of what is accepted below it. -/
theorem reads_index (hix : Indexed accepts d st wanted covered lwm) (hs : s.Open) (hord : s.Ordered)
    (hcov : covered ≤ s.next) (hstart : start ≤ s.next) (hhead : s.next ≤ max start head)
    (hout : ∀ o e, (o, e) ∈ s.out ↔
      start ≤ o ∧ o < s.next ∧ recordAt d st o = some e ∧ accepts (o, e) = true) :
    Reads accepts d st start head (readIndex L accepts d st wanted lwm head s) := by
  rw [readIndex]
  split
  · exact ⟨fun o e hlo hlt he hacc ↦ (hout o e).mpr ⟨hlo, hlt, he, hacc⟩, fun x hx ↦ (hout x.1 x.2).mp hx,
      hord.increasing, hstart, hhead⟩
  · rename_i hgo
    push Not at hgo
    have ha := ahead_sigEntries d st wanted lwm head s
    have hlt : ∀ x ∈ sigEntries d st wanted (max s.next lwm) head, x.1 < head :=
      fun x hx ↦ (mem_sigEntries.mp hx).2.1
    have hres : (run L (pickEntry accepts) s
        (sigEntries d st wanted (max s.next lwm) head)).resume head ≤ head :=
      (next_le_resume hs ha hgo.1.le hlt).2
    refine reads_entries ha hord (fun x hx ↦ (mem_sigEntries.mp hx).2.2.2) hstart hout
      (fun o e hold ho he hacc ↦ ?_) (next_le_resume hs ha hgo.1.le hlt).1
      (hres.trans (le_max_right _ _))
      fun x hx hlt ↦ lt_run_next_of_lt_resume hs ha hx hlt
    obtain ⟨hlwm, hkey⟩ := hix o e (hcov.trans hold) he hacc
    exact mem_sigEntries.mpr ⟨max_le hold hlwm, ho.trans_le hres, hkey, he.symm⟩

/-- A scan of the records below the coverage that no bound ended, as the index half finds it. -/
theorem scanned_below (hcov : covered ≤ head) (hleft : (run L (pickRecord accepts) { next := start }
      (recordsIn d st start (min covered head))).left = false)
    (hs : s = { run L (pickRecord accepts) { next := start }
      (recordsIn d st start (min covered head)) with next := covered }) :
    s.Open ∧ s.Ordered ∧ ∀ o e, (o, e) ∈ s.out ↔
      start ≤ o ∧ o < s.next ∧ recordAt d st o = some e ∧ accepts (o, e) = true := by
  subst hs
  have ha := ahead_recordsIn d st start (min covered head)
  have hopen : ({ next := start } : PageScan RecEnc).Open := ⟨rfl, rfl⟩
  refine ⟨⟨(hopen.run hleft).pending, hleft⟩, ⟨?_, fun x hx ↦ ?_⟩, fun o e ↦ ?_⟩
  · exact ((ordered_start start).run ha).increasing
  · exact (mem_scan_out.mp hx).2.1.trans_le (min_le_left _ _)
  · refine mem_scan_out.trans ⟨?_, ?_⟩
    · exact fun ⟨hlo, hhi, _, he, hacc⟩ ↦ ⟨hlo, hhi.trans_le (min_le_left _ _), he, hacc⟩
    · rintro ⟨hlo, hhi, he, hacc⟩
      have hhi : o < min covered head := lt_min hhi (hhi.trans_le hcov)
      have hmem : (o, e) ∈ recordsIn d st start (min covered head) := mem_recordsIn.mpr ⟨hlo, hhi, he⟩
      exact ⟨hlo, hhi, lt_run_next hopen ha hleft hmem, he, hacc⟩

theorem reads_signals (L : PageLimits RecEnc) (hix : Indexed accepts d st wanted covered lwm)
    (start head : ℕ) :
    Reads accepts d st start head (readSignals L accepts d st wanted covered lwm start head) := by
  rw [readSignals]
  split
  · rename_i hbelow
    dsimp only
    split
    · -- a bound ended the page below the coverage, or the coverage starts at the head
      have h := reads_recordsBounded L accepts d st start (min covered head)
      exact ⟨h.complete, h.sound, h.increasing, h.start_le,
        h.next_le.trans (max_le_max le_rfl (min_le_right _ _))⟩
    · rename_i hgo
      push Not at hgo
      obtain ⟨hleft, -, hcov⟩ := hgo
      obtain ⟨hopen, hord, hout⟩ := scanned_below hcov.le (Bool.eq_false_of_not_eq_true hleft) rfl
      exact reads_index hix hopen hord le_rfl hbelow.le (hcov.le.trans (le_max_right _ _)) hout
  · rename_i hcov
    refine reads_index hix ⟨rfl, rfl⟩ (ordered_start start) (Nat.le_of_not_lt hcov) le_rfl
      (le_max_left _ _) fun o e ↦ ?_
    refine ⟨fun h ↦ (nomatch h), fun ⟨hlo, hlt, _⟩ ↦ ?_⟩
    exact absurd hlt hlo.not_gt

end Colca
