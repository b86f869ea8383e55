import Colca.Lib.BoundedScan
import Colca.Store.Record

/-!
# Reading the commands of one machine

The commands stream carries the commands of every machine, acknowledgements and more. `readTarget`
reads the commands of one identity: from the target index where the index covers the stream, by a scan
of the stream below. The two parts share one limit and one budget.

An index entry is written and removed with its record, so the entries of a target are those records of
the stream that are commands for it.
-/

namespace Colca

open Uns Scan

/-- The identity a record is a command for, empty for a record that is none. -/
def recordTarget (t : Topic) : String := (commandTarget t).getD ""

/-- The commands stream. Retention takes a run at its old end away, and the acks of log pages from
anywhere in it, so it may have holes. -/
structure CommandStream extends OffsetLog RecEnc

namespace CommandStream

/-- A stream that has handed out nothing. -/
def empty : CommandStream := ⟨.empty⟩

/-- Append one record. -/
def append (l : CommandStream) (e : RecEnc) : CommandStream := ⟨l.toOffsetLog.append e⟩

/-- The records at the offsets from `start` up to `upTo`, the end excluded. -/
def range (l : CommandStream) (start upTo : ℕ) : List (ℕ × RecEnc) :=
  l.entries.filter fun x ↦ decide (start ≤ x.1) && decide (x.1 < upTo)

theorem mem_range {l : CommandStream} {start upTo : ℕ} {x : ℕ × RecEnc} :
    x ∈ l.range start upTo ↔ x ∈ l.entries ∧ start ≤ x.1 ∧ x.1 < upTo := by
  simp [range]

theorem range_increasing (l : CommandStream) (start upTo : ℕ) :
    (l.range start upTo).Pairwise (·.1 < ·.1) := l.increasing.filter _

/-- The target index from `start` up to `upTo`. -/
def indexed (l : CommandStream) (target : String) (start upTo : ℕ) : List (ℕ × RecEnc) :=
  (l.range start upTo).filter fun x ↦ recordTarget x.2.topic = target

/-- The part of a read that scans the stream. -/
def scanBelow (l : CommandStream) (covered : ℕ) (target : String) (start upTo limit maxScan : ℕ)
    (keep : ℕ × RecEnc → Bool) : Scan RecEnc :=
  Scan.run limit maxScan (fun x ↦ decide (recordTarget x.2.topic = target) && keep x)
    { next := start } (l.range start (min covered upTo))

/-- The part of a read that follows the index, after a part that ended as `s`. -/
def scanIndex (l : CommandStream) (target : String) (s : Scan RecEnc) (start upTo limit maxScan : ℕ)
    (keep : ℕ × RecEnc → Bool) : List (ℕ × RecEnc) × ℕ :=
  let r := Scan.run limit maxScan keep { s with next := start } (l.indexed target start upTo)
  (r.out, if r.stopped then r.next else upTo)

/-- `ReadTarget`: up to `limit` commands for `target` in `[start, upTo)` that `keep` selects, and
where the next read starts. The index covers the stream from `covered` on. -/
def readTarget (l : CommandStream) (covered : ℕ) (target : String) (start upTo limit maxScan : ℕ)
    (keep : ℕ × RecEnc → Bool) : List (ℕ × RecEnc) × ℕ :=
  let upTo := min upTo l.next
  let start := max start l.lwm
  if upTo ≤ start then ([], max start upTo)
  else if start < covered then
    let below := l.scanBelow covered target start upTo limit maxScan keep
    if below.stopped || decide (upTo ≤ covered) then (below.out, below.next)
    else l.scanIndex target below covered upTo limit maxScan keep
  else l.scanIndex target { next := start } start upTo limit maxScan keep

/-! ### What a read returns -/

variable {l : CommandStream} {covered start upTo limit maxScan : ℕ} {target : String}
  {keep : ℕ × RecEnc → Bool} {s : Scan RecEnc} {x : ℕ × RecEnc}

theorem mem_indexed : x ∈ l.indexed target start upTo ↔
    x ∈ l.entries ∧ (start ≤ x.1 ∧ x.1 < upTo) ∧ recordTarget x.2.topic = target := by
  simp [indexed, mem_range, and_assoc]

theorem indexed_increasing (l : CommandStream) (target : String) (start upTo : ℕ) :
    (l.indexed target start upTo).Pairwise (·.1 < ·.1) := (l.range_increasing _ _).filter _

/-- What was read from `start` on: the commands for the target that `keep` selects, all of them up to
where the next read starts, in order. -/
structure IsRead (l : CommandStream) (target : String) (keep : ℕ × RecEnc → Bool) (start upTo : ℕ)
    (r : List (ℕ × RecEnc) × ℕ) : Prop where
  mem : ∀ x, x ∈ r.1 ↔
    x ∈ l.entries ∧ (start ≤ x.1 ∧ x.1 < r.2) ∧ recordTarget x.2.topic = target ∧ keep x
  increasing : r.1.Pairwise (·.1 < ·.1)
  le_next : start ≤ r.2
  next_le : r.2 ≤ max start upTo

/-- The index continues a scan that read everything below it. -/
theorem scanIndex_isRead (hs : s.Ordered) (hle : s.next ≤ covered) (hcov : start ≤ covered)
    (hup : covered ≤ upTo) (hmem : ∀ x, x ∈ s.out ↔ x ∈ l.entries ∧ (start ≤ x.1 ∧ x.1 < covered) ∧
      recordTarget x.2.topic = target ∧ keep x) :
    l.IsRead target keep start upTo (l.scanIndex target s covered upTo limit maxScan keep) := by
  have hord : Ordered { s with next := covered } :=
    ⟨hs.increasing, fun x hx ↦ (hs.lt_next x hx).trans_le hle⟩
  have hinc := l.indexed_increasing target covered upTo
  have hge : ∀ x ∈ l.indexed target covered upTo, covered ≤ x.1 := fun x hx ↦
    (mem_indexed.mp hx).2.1.1
  have hlt : ∀ x ∈ l.indexed target covered upTo, x.1 < upTo := fun x hx ↦ (mem_indexed.mp hx).2.1.2
  -- the scan, and where the read says the next one starts
  obtain ⟨r, hr⟩ : ∃ r, r = run limit maxScan keep { s with next := covered }
    (l.indexed target covered upTo) := ⟨_, rfl⟩
  have hread : l.scanIndex target s covered upTo limit maxScan keep =
      (r.out, if r.stopped then r.next else upTo) := by rw [hr]; rfl
  have hout : ∀ x, x ∈ r.out ↔ x ∈ s.out ∨
      (x ∈ l.indexed target covered upTo ∧ keep x ∧ x.1 < r.next) := by
    rw [hr]
    exact fun x ↦ mem_run_out hinc hge
  have hlow : covered ≤ r.next := hr ▸ le_run_next (s := { s with next := covered }) hinc hge
  have hhigh : r.next ≤ upTo := hr ▸ run_next_le hup hlt
  -- below where the read says, the index was followed to the end
  have hsame : ∀ x ∈ l.indexed target covered upTo,
      (x.1 < r.next ↔ x.1 < if r.stopped then r.next else upTo) := by
    intro x hx
    cases hstop : r.stopped with
    | true => rfl
    | false => exact iff_of_true (hr ▸ lt_run_next hinc hge (hr ▸ hstop) hx) (hlt x hx)
  rw [hread]
  refine ⟨fun x ↦ ?_, hr ▸ (hord.run hinc hge).increasing, ?_, ?_⟩
  · rw [hout, hmem]
    constructor
    · rintro (⟨hx, ⟨h1, h2⟩, hk⟩ | ⟨hidx, hk, hnext⟩)
      · refine ⟨hx, ⟨h1, ?_⟩, hk⟩
        dsimp only
        split <;> omega
      · obtain ⟨hx, ⟨h1, -⟩, ht⟩ := mem_indexed.mp hidx
        exact ⟨hx, ⟨hcov.trans h1, (hsame x hidx).mp hnext⟩, ht, hk⟩
    · rintro ⟨hx, ⟨h1, h2⟩, ht, hk⟩
      rcases lt_or_ge x.1 covered with h | h
      · exact .inl ⟨hx, ⟨h1, h⟩, ht, hk⟩
      · have hidx : x ∈ l.indexed target covered upTo := by
          refine mem_indexed.mpr ⟨hx, ⟨h, ?_⟩, ht⟩
          dsimp only at h2
          split at h2 <;> omega
        exact .inr ⟨hidx, hk, (hsame x hidx).mpr h2⟩
  · dsimp only
    split <;> omega
  · dsimp only
    split <;> omega

/-- What the scan below the index does. -/
theorem scanBelow_isRead {r : Scan RecEnc}
    (hr : l.scanBelow covered target start upTo limit maxScan keep = r) (hup : start ≤ min covered upTo) :
    l.IsRead target keep start (min covered upTo) (r.out, r.next) ∧ r.Ordered ∧
      (r.stopped = false → ∀ x ∈ l.range start (min covered upTo), x.1 < r.next) := by
  have hinc := l.range_increasing start (min covered upTo)
  have hge : ∀ x ∈ l.range start (min covered upTo), start ≤ x.1 := fun x hx ↦ (mem_range.mp hx).2.1
  have hlt : ∀ x ∈ l.range start (min covered upTo), x.1 < min covered upTo := fun x hx ↦
    (mem_range.mp hx).2.2
  have hord : r.Ordered := hr ▸ (ordered_start start).run hinc hge
  have hlow : start ≤ r.next := hr ▸ le_run_next (s := { next := start }) hinc hge
  have hhigh : r.next ≤ min covered upTo := hr ▸ run_next_le hup hlt
  refine ⟨⟨fun x ↦ ?_, hord.increasing, hlow, hhigh.trans (le_max_right _ _)⟩, hord, ?_⟩
  · have hmem : x ∈ r.out ↔ x ∈ ([] : List (ℕ × RecEnc)) ∨ (x ∈ l.range start (min covered upTo) ∧
        (decide (recordTarget x.2.topic = target) && keep x) ∧ x.1 < r.next) :=
      hr ▸ mem_run_out hinc hge
    rw [hmem, mem_range]
    simp only [List.not_mem_nil, false_or, Bool.and_eq_true, decide_eq_true_eq]
    constructor
    · rintro ⟨⟨hx, h1, -⟩, hk, h2⟩
      exact ⟨hx, ⟨h1, h2⟩, hk⟩
    · rintro ⟨hx, ⟨h1, h2⟩, hk⟩
      exact ⟨⟨hx, h1, h2.trans_le hhigh⟩, hk, h2⟩
  · subst hr
    exact fun hstop x hx ↦ lt_run_next hinc hge hstop hx

/-- **What a read returns.** -/
theorem readTarget_isRead (l : CommandStream) (covered : ℕ) (target : String)
    (start upTo limit maxScan : ℕ) (keep : ℕ × RecEnc → Bool) :
    l.IsRead target keep (max start l.lwm) (min upTo l.next)
      (l.readTarget covered target start upTo limit maxScan keep) := by
  unfold readTarget
  dsimp only
  split
  · refine ⟨fun x ↦ ?_, List.Pairwise.nil, le_max_left _ _, le_rfl⟩
    simp only [List.not_mem_nil, false_iff]
    rintro ⟨hx, ⟨h1, h2⟩, -⟩
    omega
  · rename_i hlt
    push Not at hlt
    split
    · rename_i hcov
      obtain ⟨r, hr⟩ : ∃ r, l.scanBelow covered target (max start l.lwm) (min upTo l.next) limit
        maxScan keep = r := ⟨_, rfl⟩
      obtain ⟨hread, hord, hall⟩ := scanBelow_isRead hr (by omega)
      rw [hr]
      split
      · exact ⟨hread.mem, hread.increasing, hread.le_next, hread.next_le.trans (by omega)⟩
      · rename_i hgo
        simp only [Bool.or_eq_true, decide_eq_true_eq, not_or, Bool.not_eq_true, not_le] at hgo
        have hmin : min covered (min upTo l.next) = covered := by omega
        rw [hmin] at hread hall
        refine scanIndex_isRead hord (hread.next_le.trans (by omega)) hcov.le hgo.2.le fun x ↦ ?_
        rw [hread.mem]
        -- the scan was not stopped, so it visited everything below the index
        constructor
        · rintro ⟨hx, ⟨h1, h2⟩, hk⟩
          exact ⟨hx, ⟨h1, h2.trans_le (hread.next_le.trans (by omega))⟩, hk⟩
        · rintro ⟨hx, ⟨h1, h2⟩, hk⟩
          exact ⟨hx, ⟨h1, hall hgo.1 x (mem_range.mpr ⟨hx, h1, h2⟩)⟩, hk⟩
    · refine scanIndex_isRead (ordered_start _) le_rfl le_rfl hlt.le fun x ↦ ?_
      simp only [List.not_mem_nil, false_iff]
      rintro ⟨-, ⟨h1, h2⟩, -⟩
      omega

/-! ### A check that finds nothing -/

/-- The records a read of `[start, upTo)` visits when nothing stops it. -/
def visited (l : CommandStream) (covered : ℕ) (target : String) (start upTo : ℕ) :
    List (ℕ × RecEnc) :=
  l.range start (min covered upTo) ++ l.indexed target (max start covered) upTo

theorem mem_of_mem_visited (h : x ∈ l.visited covered target start upTo) :
    x ∈ l.entries ∧ start ≤ x.1 ∧ x.1 < upTo := by
  rcases List.mem_append.mp h with h | h
  · obtain ⟨hx, h1, h2⟩ := mem_range.mp h
    exact ⟨hx, h1, h2.trans_le (min_le_right _ _)⟩
  · obtain ⟨hx, ⟨h1, h2⟩, -⟩ := mem_indexed.mp h
    exact ⟨hx, (le_max_left _ _).trans h1, h2⟩

/-- A command for the target in the range of a read is among the records it visits. -/
theorem mem_visited (hx : x ∈ l.entries) (hle : start ≤ x.1) (hlt : x.1 < upTo)
    (ht : recordTarget x.2.topic = target) : x ∈ l.visited covered target start upTo := by
  rcases lt_or_ge x.1 covered with h | h
  · exact List.mem_append_left _ (mem_range.mpr ⟨hx, hle, lt_min h hlt⟩)
  · exact List.mem_append_right _ (mem_indexed.mpr ⟨hx, ⟨max_le hle h, hlt⟩, ht⟩)

theorem forall_visited_iff :
    (∀ x ∈ l.visited covered target start upTo, recordTarget x.2.topic = target → keep x = false) ↔
      (∀ x ∈ l.range start (min covered upTo),
        (decide (recordTarget x.2.topic = target) && keep x) = false) ∧
      ∀ x ∈ l.indexed target (max start covered) upTo, keep x = false := by
  simp only [visited, List.forall_mem_append, Bool.and_eq_false_iff, decide_eq_false_iff_not]
  refine and_congr (forall₂_congr fun x _ ↦ imp_iff_not_or) (forall₂_congr fun x hx ↦ ?_)
  simp [(mem_indexed.mp hx).2.2]

theorem range_eq_nil (h : upTo ≤ start) : l.range start upTo = [] := by
  refine List.eq_nil_iff_forall_not_mem.mpr fun x hx ↦ ?_
  have := mem_range.mp hx
  omega

theorem indexed_eq_nil (h : upTo ≤ start) : l.indexed target start upTo = [] := by
  rw [indexed, range_eq_nil h, List.filter_nil]

theorem scanIndex_eq_nil_iff (hs : s.out = []) (hpos : 0 < maxScan) (hscanned : s.scanned ≤ maxScan) :
    ((l.scanIndex target s start upTo 1 maxScan keep).1 = [] ∧
      upTo ≤ (l.scanIndex target s start upTo 1 maxScan keep).2) ↔
    (∀ x ∈ l.indexed target start upTo, keep x = false) ∧
      s.scanned + (l.indexed target start upTo).length ≤ maxScan := by
  have hinc := l.indexed_increasing target start upTo
  have hge : ∀ x ∈ l.indexed target start upTo, start ≤ x.1 := fun x hx ↦ (mem_indexed.mp hx).2.1.1
  have hlt : ∀ x ∈ l.indexed target start upTo, x.1 < upTo := fun x hx ↦ (mem_indexed.mp hx).2.1.2
  rw [← run_one_stopped_eq_false_iff (s := { s with next := start }) hs hpos hscanned]
  dsimp only [scanIndex]
  constructor
  · rintro ⟨hout, hnext⟩
    by_contra hstop
    rw [Bool.not_eq_false] at hstop
    rw [if_pos hstop] at hnext
    exact absurd hnext (run_one_next_lt hge hinc hlt hstop hout).not_ge
  · intro hstop
    exact ⟨run_one_out_eq_nil hstop, by simp [hstop]⟩

/-- **A check for one command finds none**, and knows so up to `upTo`, exactly when there is none, the
budget is enough for the records it visits, and a read that does not reach the index ends at a record. -/
theorem readTarget_eq_nil_iff (hup : upTo ≤ l.next) (hpos : 0 < maxScan) :
    ((l.readTarget covered target start upTo 1 maxScan keep).1 = [] ∧
      upTo ≤ (l.readTarget covered target start upTo 1 maxScan keep).2) ↔
    (∀ x ∈ l.visited covered target (max start l.lwm) upTo,
      recordTarget x.2.topic = target → keep x = false) ∧
      (l.visited covered target (max start l.lwm) upTo).length ≤ maxScan ∧
      (upTo ≤ covered → max start l.lwm < upTo → ∃ e, (upTo - 1, e) ∈ l.entries) := by
  have hmin : min upTo l.next = upTo := min_eq_left hup
  obtain ⟨b, hb⟩ : ∃ b, max start l.lwm = b := ⟨_, rfl⟩
  have hlwm : l.lwm ≤ b := hb ▸ le_max_right _ _
  rw [forall_visited_iff, visited, List.length_append]
  simp only [readTarget, hmin, hb]
  split
  · rename_i hle
    rw [range_eq_nil (by omega), indexed_eq_nil (by omega)]
    simp [hle]
  · rename_i hlt
    push Not at hlt
    split
    · rename_i hcov
      rw [max_eq_right hcov.le]
      have hinc := l.range_increasing b (min covered upTo)
      have hge : ∀ x ∈ l.range b (min covered upTo), b ≤ x.1 := fun x hx ↦ (mem_range.mp hx).2.1
      have hlt' : ∀ x ∈ l.range b (min covered upTo), x.1 < min covered upTo := fun x hx ↦
        (mem_range.mp hx).2.2
      obtain ⟨r, hr⟩ : ∃ r, l.scanBelow covered target b upTo 1 maxScan keep = r := ⟨_, rfl⟩
      have hiff : r.stopped = false ↔ (∀ x ∈ l.range b (min covered upTo),
          (decide (recordTarget x.2.topic = target) && keep x) = false) ∧
          0 + (l.range b (min covered upTo)).length ≤ maxScan :=
        hr ▸ run_one_stopped_eq_false_iff rfl hpos (Nat.zero_le _)
      rw [hr]
      cases hstop : r.stopped with
      | true =>
        -- the scan of the stream found a command, or used up the budget before the end
        rw [Bool.true_or, if_pos rfl]
        refine iff_of_false (fun ⟨hout, hnext⟩ ↦ ?_) fun ⟨⟨hkeep, _⟩, hlen⟩ ↦ ?_
        · subst hr
          have := run_one_next_lt hge hinc hlt' hstop hout
          dsimp only [scanBelow] at hnext
          omega
        · have := hiff.mpr ⟨hkeep, by omega⟩
          rw [hstop] at this
          cases this
      | false =>
        obtain ⟨hkeep, hlen⟩ := hiff.mp hstop
        have hout : r.out = [] := by
          subst hr
          exact run_one_out_eq_nil hstop
        rw [Bool.false_or]
        split
        · rename_i hle
          have hle := of_decide_eq_true hle
          rw [indexed_eq_nil hle]
          constructor
          · -- the scan got there, so it visited a record right before `upTo`
            rintro ⟨-, hnext⟩
            refine ⟨⟨hkeep, fun x hx ↦ nomatch hx⟩, by simpa using hlen, fun _ _ ↦ ?_⟩
            have hat : r.next = b ∨ ∃ x ∈ l.range b (min covered upTo), r.next = x.1 + 1 := by
              subst hr
              exact run_next_eq
            rcases hat with heq | ⟨x, hx, heq⟩
            · omega
            · obtain ⟨hent, -, hlt⟩ := mem_range.mp hx
              have hx1 : x.1 = upTo - 1 := by omega
              exact ⟨x.2, hx1 ▸ hent⟩
          · rintro ⟨-, -, hlast⟩
            obtain ⟨e, he⟩ := hlast hle hlt
            have hmem : (upTo - 1, e) ∈ l.range b (min covered upTo) :=
              mem_range.mpr ⟨he, by dsimp only; omega, by dsimp only; omega⟩
            have hnext : upTo - 1 < r.next := by
              subst hr
              exact lt_run_next hinc hge hstop hmem
            exact ⟨hout, by omega⟩
        · rename_i hle
          have hlast : upTo ≤ covered → b < upTo → ∃ e, (upTo - 1, e) ∈ l.entries := fun h ↦
            absurd (decide_eq_true h) hle
          have hscanned : r.scanned = 0 + (l.range b (min covered upTo)).length := by
            subst hr
            exact scanned_of_not_stopped hstop
          rw [scanIndex_eq_nil_iff hout hpos (hscanned ▸ hlen), hscanned, Nat.zero_add, and_iff_left hlast]
          exact and_congr_left' (and_iff_right hkeep).symm
    · rename_i hcov
      push Not at hcov
      have hlast : upTo ≤ covered → b < upTo → ∃ e, (upTo - 1, e) ∈ l.entries := fun h ↦ by omega
      rw [scanIndex_eq_nil_iff rfl hpos (Nat.zero_le _), max_eq_left hcov,
        range_eq_nil (by omega), List.length_nil, and_iff_left hlast]
      exact and_congr_left' (and_iff_right fun x hx ↦ by cases hx).symm

end CommandStream

end Colca
