import Colca.Store.Pages
import Colca.Store.TargetIndex

/-!
# Reading the commands of one machine, from the disk

`readTarget` over the store's disk, where the commands stream has holes: the acks of log pages are
removed from anywhere in it. Below the coverage of the target index it scans the records of the stream,
from there on it visits the index entries of the target, within one limit and one budget.

It returns the first of the target's commands that the filter keeps (`readTarget_out`), all of them up to
its `next` (`reads_target`). Its `next` moves on if there is a record to scan, if the index covers a part
of the range, or if the low-water mark lies past its start (`lt_readTarget_next`); a range of holes below
the coverage is the one case in which it stands still.
-/

namespace Colca

open Uns PageScan

/-- The bounds of a read of commands: it does not count bytes. -/
def targetLimits (limit maxScan : ℕ) : PageLimits RecEnc := ⟨limit, maxScan, 0, fun _ ↦ 0⟩

/-- The filter of the scan below the index. -/
def forTarget (target : String) (keep : ℕ × RecEnc → Bool) (x : ℕ × RecEnc) : Bool :=
  decide (recordTarget x.2.topic = target) && keep x

/-- The index entries of a target in `[lo, hi)`, each with the record it points at. -/
def targetEntries (d : Disk) (st : Stream) (target : String) (lo hi : ℕ) : List (ℕ × Option RecEnc) :=
  (List.range' lo (hi - lo)).filterMap fun o ↦
    if (d (.target st target o)).isSome then some (o, recordAt d st o) else none

/-- The part of a read that follows the index, on a page that may hold records already. -/
def readTargetIndex (limit maxScan : ℕ) (keep : ℕ × RecEnc → Bool) (d : Disk) (st : Stream)
    (target : String) (upTo : ℕ) (s : PageScan RecEnc) : PageOut :=
  let r := PageScan.run (targetLimits limit maxScan) (pickEntry keep) s
    (targetEntries d st target s.next upTo)
  (r.out, if r.left ∨ limit ≤ r.out.length then r.next else upTo)

/-- `ReadTarget`: up to `limit` commands for `target` in `[start, upTo)` that `keep` selects, and where
the next read starts. The index covers the stream from `covered` on. -/
def readTarget (limit maxScan : ℕ) (keep : ℕ × RecEnc → Bool) (d : Disk) (st : Stream) (target : String)
    (covered lwm head start upTo : ℕ) : PageOut :=
  let upTo := min upTo head
  let start := max start lwm
  if upTo ≤ start then ([], max start upTo)
  else if start < covered then
    let r := PageScan.run (targetLimits limit maxScan) (pickRecord (forTarget target keep))
      { next := start } (recordsIn d st start (min covered upTo))
    if r.left ∨ limit ≤ r.out.length ∨ upTo ≤ covered then (r.out, r.next)
    else readTargetIndex limit maxScan keep d st target upTo { r with next := covered }
  else readTargetIndex limit maxScan keep d st target upTo { next := start }

/-- The entries a read of `[start, upTo)` visits, as far as its bounds allow: the records of the stream
below the coverage, the index entries of the target from there on. -/
def targetVisits (d : Disk) (st : Stream) (target : String) (covered start upTo : ℕ) :
    List (ℕ × Option RecEnc) :=
  (recordsIn d st start (min covered upTo)).map (fun x ↦ (x.1, some x.2)) ++
    targetEntries d st target (max start covered) upTo

variable {limit maxScan : ℕ} {keep : ℕ × RecEnc → Bool} {d : Disk} {st : Stream} {target : String}
  {covered lwm head start upTo lo hi : ℕ} {s : PageScan RecEnc}

/-! ### The entries of a target -/

theorem mem_targetEntries {o : ℕ} {a : Option RecEnc} : (o, a) ∈ targetEntries d st target lo hi ↔
    lo ≤ o ∧ o < hi ∧ (d (.target st target o)).isSome ∧ a = recordAt d st o := by
  rw [targetEntries, OffsetLog.mem_filterMap_range entry_found]
  simp [@eq_comm _ a]

theorem targetEntries_increasing (d : Disk) (st : Stream) (target : String) (lo hi : ℕ) :
    (targetEntries d st target lo hi).Pairwise (·.1 < ·.1) :=
  OffsetLog.filterMap_range_increasing entry_found

theorem ahead_targetEntries (d : Disk) (st : Stream) (target : String) (s : PageScan RecEnc) (hi : ℕ) :
    s.Ahead (targetEntries d st target s.next hi) :=
  ⟨targetEntries_increasing d st target _ hi, fun _ hx ↦ (mem_targetEntries.mp hx).1⟩

theorem recordTarget_eq_iff {t : Topic} (hne : target ≠ "") :
    recordTarget t = target ↔ commandTarget t = some target := by
  rw [recordTarget]
  cases h : commandTarget t with
  | none => simp [hne.symm]
  | some node => simp

/-- What the index says of a target: from its coverage on it has the entries of its commands, and no
entry points at another record. -/
structure TargetIndexed (d : Disk) (st : Stream) (target : String) (covered : ℕ) : Prop where
  complete : ∀ o e, covered ≤ o → recordAt d st o = some e → recordTarget e.topic = target →
    (d (.target st target o)).isSome
  names : ∀ o e, (d (.target st target o)).isSome → recordAt d st o = some e →
    recordTarget e.topic = target

theorem Targeted.indexed {next coveredOf : Stream → ℕ} (h : Targeted coveredOf next d)
    (hne : target ≠ "") : TargetIndexed d st target (coveredOf st) where
  complete o e hle he ht := h.complete st target o e hle he ((recordTarget_eq_iff hne).mp ht)
  names o e hkey he := (recordTarget_eq_iff hne).mpr (h.names st target o e hkey he)

/-- The filter of the index half leaves the target out, since the entries name it. -/
theorem TargetIndexed.pick_eq (h : TargetIndexed d st target covered) {x : ℕ × Option RecEnc}
    (hx : x ∈ targetEntries d st target lo hi) :
    pickEntry keep x = pickEntry (forTarget target keep) x := by
  obtain ⟨o, a⟩ := x
  obtain ⟨-, -, hkey, rfl⟩ := mem_targetEntries.mp hx
  show (recordAt d st o).bind _ = (recordAt d st o).bind _
  cases he : recordAt d st o with
  | none => rfl
  | some e =>
    show pickRecord keep (o, e) = pickRecord (forTarget target keep) (o, e)
    rw [pickRecord, pickRecord, forTarget, h.names o e hkey he, decide_eq_true rfl, Bool.true_and]

theorem TargetIndexed.run_eq (h : TargetIndexed d st target covered) {L : PageLimits RecEnc}
    (s : PageScan RecEnc) : run L (pickEntry keep) s (targetEntries d st target lo hi) =
      run L (pickEntry (forTarget target keep)) s (targetEntries d st target lo hi) :=
  run_congr (fun _ hx ↦ h.pick_eq hx) s

/-! ### What a read returns -/

/-- The index half continues a page of the commands below it. -/
theorem reads_targetIndex (h : TargetIndexed d st target covered) (hs : s.Open) (hord : s.Ordered)
    (hcov : covered ≤ s.next) (hstart : start ≤ s.next) (hup : s.next ≤ upTo)
    (hout : ∀ o e, (o, e) ∈ s.out ↔ start ≤ o ∧ o < s.next ∧ recordAt d st o = some e ∧
      forTarget target keep (o, e) = true) :
    Reads (forTarget target keep) d st start upTo
      (readTargetIndex limit maxScan keep d st target upTo s) := by
  have ha := ahead_targetEntries d st target s upTo
  have hlt : ∀ x ∈ targetEntries d st target s.next upTo, x.1 < upTo :=
    fun x hx ↦ (mem_targetEntries.mp hx).2.1
  rw [readTargetIndex, h.run_eq]
  set r := run (targetLimits limit maxScan) (pickEntry (forTarget target keep)) s
    (targetEntries d st target s.next upTo)
  have hnext : r.next ≤ upTo := run_next_le hup hlt
  refine reads_entries ha hord (fun x hx ↦ (mem_targetEntries.mp hx).2.2.2) hstart hout
    (fun o e hold ho he hacc ↦ ?_) ?_ ?_ fun x hx hxn ↦ ?_
  · have ho : o < upTo := by
      split at ho
      · exact ho.trans_le hnext
      · exact ho
    have ht := of_decide_eq_true (Bool.and_eq_true_iff.mp hacc).1
    exact mem_targetEntries.mpr ⟨hold, ho, h.complete o e (hcov.trans hold) he ht, he.symm⟩
  · split
    · exact le_rfl
    · exact hnext
  · split
    · exact hnext.trans (le_max_right _ _)
    · exact le_max_right _ _
  · split at hxn
    · exact hxn
    · rename_i hend
      push Not at hend
      exact lt_run_next hs ha (Bool.eq_false_of_not_eq_true hend.1) hx

/-- **A read returns the target's commands**: those the filter keeps, all of them up to its `next`. -/
theorem reads_target (h : TargetIndexed d st target covered) :
    Reads (forTarget target keep) d st (max start lwm) (min upTo head)
      (readTarget limit maxScan keep d st target covered lwm head start upTo) := by
  rw [readTarget]
  obtain ⟨b, hb⟩ : ∃ b, b = max start lwm := ⟨_, rfl⟩
  obtain ⟨hi, hhi⟩ : ∃ hi, hi = min upTo head := ⟨_, rfl⟩
  rw [← hb, ← hhi]
  dsimp only
  split
  · rename_i hle
    rw [max_eq_left hle]
    exact .nil b
  · rename_i hlt
    push Not at hlt
    split
    · rename_i hbelow
      split
      · have hr := reads_recordsBounded (targetLimits limit maxScan) (forTarget target keep) d st b
          (min covered hi)
        exact ⟨hr.complete, hr.sound, hr.increasing, hr.start_le,
          hr.next_le.trans (max_le_max le_rfl (min_le_right _ _))⟩
      · rename_i hgo
        push Not at hgo
        obtain ⟨hleft, -, hcov⟩ := hgo
        obtain ⟨hopen, hord, hout⟩ := scanned_below hcov.le (Bool.eq_false_of_not_eq_true hleft) rfl
        exact reads_targetIndex h hopen hord le_rfl hbelow.le hcov.le hout
    · rename_i hcov
      refine reads_targetIndex h ⟨rfl, rfl⟩ (ordered_start b) (Nat.le_of_not_lt hcov) le_rfl
        hlt.le fun o e ↦ ?_
      refine ⟨fun h ↦ (nomatch h), fun ⟨hlo, hlt, _⟩ ↦ ?_⟩
      exact absurd hlt (Nat.not_lt_of_le hlo)

theorem recordsIn_eq_nil (h : hi ≤ lo) : recordsIn d st lo hi = [] := by
  rw [recordsIn, Nat.sub_eq_zero_of_le h]
  rfl

theorem targetEntries_eq_nil (h : hi ≤ lo) : targetEntries d st target lo hi = [] := by
  rw [targetEntries, Nat.sub_eq_zero_of_le h]
  rfl

/-- The scan of the records is a scan of entries that all have their record. -/
theorem run_records_eq {L : PageLimits RecEnc} {accepts : ℕ × RecEnc → Bool} (s : PageScan RecEnc)
    (xs : List (ℕ × RecEnc)) : run L (pickRecord accepts) s xs =
      run L (pickEntry accepts) s (xs.map fun x ↦ (x.1, some x.2)) := by
  rw [run_map (f := fun x ↦ (x.1, some x.2)) fun _ ↦ rfl]
  rfl

/-- **The first of them**: what a read returns are the first `limit` of the target's commands among the
entries its budget lets it visit. -/
theorem readTarget_out (h : TargetIndexed d st target covered) :
    (readTarget limit maxScan keep d st target covered lwm head start upTo).1 =
      firstPicks (targetLimits limit maxScan) (pickEntry (forTarget target keep))
        (targetVisits d st target covered (max start lwm) (min upTo head)) := by
  rw [readTarget, targetVisits]
  obtain ⟨b, hb⟩ : ∃ b, b = max start lwm := ⟨_, rfl⟩
  obtain ⟨hi, hhi⟩ : ∃ hi, hi = min upTo head := ⟨_, rfl⟩
  obtain ⟨L, hL⟩ : ∃ L, L = targetLimits limit maxScan := ⟨_, rfl⟩
  have hbytes : L.maxBytes = 0 := hL ▸ rfl
  have hlimit : L.limit = limit := hL ▸ rfl
  rw [← hb, ← hhi, ← hL, ← run_out_eq_firstPicks hbytes b]
  dsimp only
  split
  · rename_i hle
    rw [recordsIn_eq_nil ((min_le_right _ _).trans hle), targetEntries_eq_nil (hle.trans (le_max_left _ _))]
    rfl
  · split
    · rename_i hbelow
      rw [max_eq_right hbelow.le, run_append rfl, ← run_records_eq]
      generalize run L (pickRecord (forTarget target keep)) { next := b }
        (recordsIn d st b (min covered hi)) = r
      split
      · rename_i hstop
        -- what is left of the entries adds nothing
        cases hleft : r.left with
        | true => rfl
        | false =>
          rw [if_neg Bool.false_ne_true, run_out_eq hbytes r]
          rcases hstop with hl | hl | hl
          · rw [hleft] at hl
            cases hl
          · rw [hlimit, Nat.sub_eq_zero_of_le hl, List.take_zero, List.append_nil]
          · rw [targetEntries_eq_nil hl]
            simp [allowed]
      · rename_i hgo
        push Not at hgo
        rw [if_neg hgo.1, readTargetIndex, h.run_eq, ← hL]
        exact run_out_congr hbytes rfl rfl
    · rename_i hcov
      push Not at hcov
      rw [recordsIn_eq_nil ((min_le_left _ _).trans hcov), List.map_nil, List.nil_append,
        max_eq_left hcov, readTargetIndex, h.run_eq, ← hL]

/-! ### Where a read leads -/

theorem lt_readTargetIndex_next (hlim : 1 ≤ limit) (hup : start < upTo) :
    start < (readTargetIndex limit maxScan keep d st target upTo { next := start }).2 := by
  have hfull : ({ next := start } : PageScan RecEnc).full (targetLimits limit maxScan) = false :=
    full_eq_false.mpr ⟨hlim, Nat.eq_zero_or_pos _⟩
  rw [readTargetIndex]
  dsimp only
  split
  · rename_i hstop
    refine next_lt_run_next (ahead_targetEntries d st target _ upTo) hfull rfl fun hnil ↦ ?_
    rw [hnil] at hstop
    rcases hstop with hstop | hstop
    · cases hstop
    · exact absurd hstop (Nat.not_le_of_lt hlim)
  · exact hup

/-- **A read moves on** if the low-water mark lies past its start, if the index covers a part of its
range, or if there is a record in it. -/
theorem lt_readTarget_next (hix : TargetIndexed d st target covered) (hlim : 1 ≤ limit)
    (hup : start < min upTo head)
    (h : start < lwm ∨ covered < min upTo head ∨ recordsIn d st start (min upTo head) ≠ []) :
    start < (readTarget limit maxScan keep d st target covered lwm head start upTo).2 := by
  by_cases hlwm : start < lwm
  · exact (hlwm.trans_le (le_max_right _ _)).trans_le (reads_target hix).start_le
  have h := h.resolve_left hlwm
  rw [readTarget, max_eq_left (Nat.le_of_not_lt hlwm)]
  dsimp only
  rw [if_neg (Nat.not_le_of_lt hup)]
  split
  · rename_i hbelow
    split
    · rename_i hstop
      refine lt_scan_next hlim fun hnil ↦ ?_
      -- nothing was scanned, so it is the end of the range that ends the read
      rw [hnil] at hstop
      have hcov : min upTo head ≤ covered := by
        rcases hstop with hstop | hstop | hstop
        · cases hstop
        · exact absurd hstop (Nat.not_le_of_lt hlim)
        · exact hstop
      rw [min_eq_right hcov] at hnil
      exact h.elim (fun h ↦ Nat.not_lt_of_le hcov h) fun h ↦ h hnil
    · rename_i hgo
      push Not at hgo
      refine hbelow.trans_le ?_
      rw [readTargetIndex]
      dsimp only
      split
      · exact le_run_next (s := { run (targetLimits limit maxScan)
          (pickRecord (forTarget target keep)) { next := start }
          (recordsIn d st start (min covered (min upTo head))) with next := covered })
          (ahead_targetEntries d st target _ _)
      · exact hgo.2.2.le
  · exact lt_readTargetIndex_next hlim hup

end Colca
