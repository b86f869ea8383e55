import Colca.Lib.OffsetLog
import Colca.Lib.PageScan

/-!
# Bounded scans

The loop of a bounded reader: visit entries in offset order, keep those a filter selects, and stop
before an entry once `limit` entries are kept or `maxScan` were visited (`0` sets no bound). `next` is
where the next read starts. It follows the last entry visited, whether it was kept or not, so a reader
that continues from it has skipped nothing it wanted (`mem_run_out`).

A scan continues where another one ended: its counts carry over, and only `next` may be moved forward.

It is a page scan that does not count bytes (`run_eq_page`).
-/

/-- What a scan has done so far. -/
structure Scan (α : Type*) where
  /-- The entries kept. -/
  out : List (ℕ × α) := []
  /-- Where the next read starts. -/
  next : ℕ
  /-- How many entries were visited. -/
  scanned : ℕ := 0
  /-- A bound ended the scan. -/
  stopped : Bool := false

namespace Scan

open List

variable {α : Type*}

/-- A bound is reached: no further entry is visited. -/
def full (limit maxScan : ℕ) (s : Scan α) : Bool :=
  decide (limit ≤ s.out.length) || (decide (0 < maxScan) && decide (maxScan ≤ s.scanned))

/-- Visit one entry. -/
def visit (keep : ℕ × α → Bool) (s : Scan α) (x : ℕ × α) : Scan α where
  out := if keep x then s.out ++ [x] else s.out
  next := x.1 + 1
  scanned := s.scanned + 1

/-- Visit the entries in turn, as far as the bounds allow. -/
def run (limit maxScan : ℕ) (keep : ℕ × α → Bool) : Scan α → List (ℕ × α) → Scan α
  | s, [] => { s with stopped := decide (limit ≤ s.out.length) }
  | s, x :: xs =>
    if s.full limit maxScan then { s with stopped := true }
    else run limit maxScan keep (s.visit keep x) xs

/-- What a scan has kept lies below where it stands, in order. -/
structure Ordered (s : Scan α) : Prop where
  increasing : s.out.Pairwise (·.1 < ·.1)
  lt_next : ∀ x ∈ s.out, x.1 < s.next

theorem ordered_start (next : ℕ) : Ordered (α := α) { next := next } :=
  ⟨List.Pairwise.nil, fun _ hx ↦ by cases hx⟩

variable {limit maxScan bound : ℕ} {keep : ℕ × α → Bool} {s : Scan α} {x y : ℕ × α}
  {xs : List (ℕ × α)}

/-- The entries after a visited one lie past it. -/
theorem visit_next_le (hinc : (x :: xs).Pairwise (·.1 < ·.1)) (hy : y ∈ xs) :
    (s.visit keep x).next ≤ y.1 := (pairwise_cons.mp hinc).1 y hy

/-! ### Scans as page scans -/

/-- The bounds, on a page whose bytes do not count. -/
def limits (limit maxScan : ℕ) : PageLimits α := ⟨limit, maxScan, 0, fun _ ↦ 0⟩

/-- What the filter puts on a page. -/
def pick (keep : ℕ × α → Bool) (x : ℕ × α) : Option α := if keep x then some x.2 else none

/-- A scan as the page it fills. -/
def page (s : Scan α) : PageScan α := { out := s.out, next := s.next, scanned := s.scanned }

/-- **A scan is a page scan**, and stopped also by a page that is full at its end. -/
theorem run_eq_page : run limit maxScan keep s xs =
    let r := PageScan.run (limits limit maxScan) (pick keep) s.page xs
    ⟨r.out, r.next, r.scanned, r.left || decide (limit ≤ r.out.length)⟩ := by
  induction xs generalizing s with
  | nil => rfl
  | cons x xs ih =>
    rw [run]
    cases hfull : s.full limit maxScan with
    | true =>
      rw [PageScan.run_of_full (L := limits limit maxScan) (s := s.page) hfull (cons_ne_nil _ _)]
      rfl
    | false =>
      rw [if_neg Bool.false_ne_true, ih]
      cases hk : keep x with
      | true =>
        rw [PageScan.run_cons_take (L := limits limit maxScan) (s := s.page) (b := x.2) hfull
          (if_pos hk) (PageScan.fits_of_unbounded rfl)]
        simp only [visit, page, hk, if_true]
        rfl
      | false =>
        rw [PageScan.run_cons_pass (L := limits limit maxScan) (s := s.page) hfull
          (if_neg (Bool.eq_false_iff.mp hk))]
        simp only [visit, page, hk]
        rfl

theorem le_run_next (hinc : xs.Pairwise (·.1 < ·.1)) (hle : ∀ x ∈ xs, s.next ≤ x.1) :
    s.next ≤ (run limit maxScan keep s xs).next := by
  rw [run_eq_page]
  exact PageScan.le_run_next (s := s.page) ⟨hinc, hle⟩

theorem run_next_le (hs : s.next ≤ bound) (hlt : ∀ x ∈ xs, x.1 < bound) :
    (run limit maxScan keep s xs).next ≤ bound := by
  rw [run_eq_page]
  exact PageScan.run_next_le (s := s.page) hs hlt

/-- **A scan keeps what it passes**: exactly the entries selected below where it ended. -/
theorem mem_run_out (hinc : xs.Pairwise (·.1 < ·.1)) (hle : ∀ x ∈ xs, s.next ≤ x.1) :
    y ∈ (run limit maxScan keep s xs).out ↔
      y ∈ s.out ∨ (y ∈ xs ∧ keep y ∧ y.1 < (run limit maxScan keep s xs).next) := by
  rw [run_eq_page]
  refine (PageScan.mem_run_out (s := s.page) (o := y.1) (b := y.2) ⟨hinc, hle⟩).trans
    (or_congr_right ⟨?_, ?_⟩)
  · rintro ⟨a, ha, hpick, hlt⟩
    obtain ⟨hk, rfl⟩ : keep (y.1, a) = true ∧ a = y.2 := by simpa [pick] using hpick
    exact ⟨ha, hk, hlt⟩
  · rintro ⟨hy, hk, hlt⟩
    exact ⟨y.2, hy, if_pos hk, hlt⟩

theorem Ordered.run (h : s.Ordered) (hinc : xs.Pairwise (·.1 < ·.1))
    (hle : ∀ x ∈ xs, s.next ≤ x.1) : (run limit maxScan keep s xs).Ordered := by
  have hpage : s.page.Ordered := ⟨h.increasing, h.lt_next⟩
  rw [run_eq_page]
  have hrun := @PageScan.Ordered.run _ _ (limits limit maxScan) (pick keep) _ _ hpage ⟨hinc, hle⟩
  exact ⟨hrun.increasing, hrun.lt_next⟩

/-- A scan that no bound ended visited every entry. -/
theorem lt_run_next (hinc : xs.Pairwise (·.1 < ·.1)) (hle : ∀ x ∈ xs, s.next ≤ x.1)
    (hstop : (run limit maxScan keep s xs).stopped = false) (hx : x ∈ xs) :
    x.1 < (run limit maxScan keep s xs).next := by
  rw [run_eq_page] at hstop ⊢
  exact PageScan.lt_run_next (s := s.page) ⟨rfl, rfl⟩ ⟨hinc, hle⟩ (Bool.or_eq_false_iff.mp hstop).1 hx

/-- A scan stands where it began, or right after an entry. -/
theorem run_next_eq : (run limit maxScan keep s xs).next = s.next ∨
    ∃ x ∈ xs, (run limit maxScan keep s xs).next = x.1 + 1 := by
  induction xs generalizing s with
  | nil => exact .inl rfl
  | cons x xs ih =>
    rw [run]
    split
    · exact .inl rfl
    · rcases ih (s := s.visit keep x) with hnext | ⟨y, hy, hnext⟩
      · exact .inr ⟨x, mem_cons_self, hnext⟩
      · exact .inr ⟨y, mem_cons_of_mem _ hy, hnext⟩

/-- A scan that its budget ended left an entry unvisited. -/
theorem exists_next_le_of_stopped (hle : ∀ x ∈ xs, s.next ≤ x.1)
    (hinc : xs.Pairwise (·.1 < ·.1)) (hstop : (run limit maxScan keep s xs).stopped = true)
    (hlimit : (run limit maxScan keep s xs).out.length < limit) :
    ∃ x ∈ xs, (run limit maxScan keep s xs).next ≤ x.1 := by
  induction xs generalizing s with
  | nil => exact absurd (of_decide_eq_true hstop) hlimit.not_ge
  | cons z xs ih =>
    rw [run] at hstop hlimit ⊢
    split at hstop
    · rename_i hfull
      rw [if_pos hfull]
      exact ⟨z, mem_cons_self, hle z mem_cons_self⟩
    · rename_i hfull
      rw [if_neg hfull] at hlimit ⊢
      obtain ⟨x, hx, hnext⟩ :=
        ih (fun y hy ↦ visit_next_le hinc hy) hinc.of_cons hstop hlimit
      exact ⟨x, mem_cons_of_mem _ hx, hnext⟩

theorem scanned_of_not_stopped (hstop : (run limit maxScan keep s xs).stopped = false) :
    (run limit maxScan keep s xs).scanned = s.scanned + xs.length := by
  induction xs generalizing s with
  | nil => rfl
  | cons x xs ih =>
    rw [run] at hstop ⊢
    split at hstop
    · cases hstop
    · rename_i hfull
      rw [if_neg hfull, ih hstop, length_cons]
      show s.scanned + 1 + xs.length = s.scanned + (xs.length + 1)
      omega

/-! ### Looking for one entry -/

/-- A scan that already has what it looks for is stopped. -/
theorem run_stopped_of_length_le (h : limit ≤ s.out.length) :
    run limit maxScan keep s xs = { s with stopped := true } := by
  cases xs with
  | nil => simp [run, h]
  | cons x xs => simp [run, full, h]

/-- **A scan for one entry ends by no bound** exactly when there is none and the budget is enough to
know it. -/
theorem run_one_stopped_eq_false_iff (hout : s.out = []) (hpos : 0 < maxScan)
    (hscanned : s.scanned ≤ maxScan) :
    (run 1 maxScan keep s xs).stopped = false ↔
      (∀ x ∈ xs, keep x = false) ∧ s.scanned + xs.length ≤ maxScan := by
  induction xs generalizing s with
  | nil => simp [run, hout, hscanned]
  | cons x xs ih =>
    rcases hscanned.eq_or_lt with heq | hlt
    · have hfull : s.full 1 maxScan = true := by simp [full, heq, hpos]
      simp only [run, hfull, if_true, Bool.true_eq_false, length_cons, false_iff, not_and]
      omega
    · have hfull : s.full 1 maxScan = false := by simp [full, hout, hlt]
      rw [run, hfull, if_neg (by simp), length_cons, forall_mem_cons]
      cases hk : keep x with
      | true =>
        have hlen : 1 ≤ (s.visit keep x).out.length := by simp [visit, hk]
        simp [run_stopped_of_length_le hlen]
      | false =>
        have hvisit : (s.visit keep x).out = [] := by simp [visit, hk, hout]
        have hnum : (s.visit keep x).scanned = s.scanned + 1 := rfl
        rw [ih hvisit (by omega), hnum]
        simp only [true_and]
        refine and_congr_right fun _ ↦ ?_
        omega

theorem run_one_out_eq_nil (hstop : (run 1 maxScan keep s xs).stopped = false) :
    (run 1 maxScan keep s xs).out = [] := by
  rw [run_eq_page] at hstop ⊢
  simpa using (Bool.or_eq_false_iff.mp hstop).2

/-- A scan for one entry that a bound ended before it found one stands below the entries left. -/
theorem run_one_next_lt (hle : ∀ x ∈ xs, s.next ≤ x.1) (hinc : xs.Pairwise (·.1 < ·.1))
    (hlt : ∀ x ∈ xs, x.1 < bound) (hstop : (run 1 maxScan keep s xs).stopped = true)
    (hout : (run 1 maxScan keep s xs).out = []) : (run 1 maxScan keep s xs).next < bound := by
  obtain ⟨x, hx, hnext⟩ := exists_next_le_of_stopped hle hinc hstop (by simp [hout])
  exact hnext.trans_lt (hlt x hx)

end Scan

/-! ### Reading a log -/

namespace OffsetLog

open List

variable {α : Type*} (l : OffsetLog α) (start limit : ℕ) (keep : ℕ × α → Bool)

/-- Up to `limit` entries from `start` on that `keep` selects, and where the next read starts. -/
def read : List (ℕ × α) × ℕ :=
  let r := Scan.run limit 0 keep { next := start } (l.entries.filter fun x ↦ start ≤ x.1)
  (r.out, r.next)

variable {l start limit keep} {x : ℕ × α}

private theorem range_read (l : OffsetLog α) (start : ℕ) :
    (l.entries.filter fun x ↦ decide (start ≤ x.1)).Pairwise (·.1 < ·.1) ∧
      ∀ x ∈ l.entries.filter fun x ↦ decide (start ≤ x.1), start ≤ x.1 :=
  ⟨l.increasing.filter _, fun _ hx ↦ of_decide_eq_true (mem_filter.mp hx).2⟩

/-- **A read skips nothing it selects**: what it returns is what is selected up to its end. -/
theorem mem_read : x ∈ (l.read start limit keep).1 ↔
    x ∈ l.entries ∧ start ≤ x.1 ∧ x.1 < (l.read start limit keep).2 ∧ keep x := by
  obtain ⟨hinc, hle⟩ := range_read l start
  refine (Scan.mem_run_out hinc hle).trans ?_
  simp only [not_mem_nil, false_or, mem_filter, decide_eq_true_eq]
  constructor
  · rintro ⟨⟨hx, hs⟩, hk, hlt⟩
    exact ⟨hx, hs, hlt, hk⟩
  · rintro ⟨hx, hs, hlt, hk⟩
    exact ⟨⟨hx, hs⟩, hk, hlt⟩

theorem read_increasing (l : OffsetLog α) (start limit : ℕ) (keep : ℕ × α → Bool) :
    (l.read start limit keep).1.Pairwise (·.1 < ·.1) :=
  ((Scan.ordered_start start).run (range_read l start).1 (range_read l start).2).increasing

theorem le_read_next (l : OffsetLog α) (start limit : ℕ) (keep : ℕ × α → Bool) :
    start ≤ (l.read start limit keep).2 :=
  Scan.le_run_next (s := { next := start }) (range_read l start).1 (range_read l start).2

theorem read_next_le (h : start ≤ l.next) : (l.read start limit keep).2 ≤ l.next :=
  Scan.run_next_le h fun x hx ↦ (l.bounds x (mem_filter.mp hx).1).2

/-- A read gets on when there is something to visit. -/
theorem lt_read_next (hx : x ∈ l.entries) (hle : start ≤ x.1) (hlimit : 1 ≤ limit) :
    start < (l.read start limit keep).2 := by
  have hmem : x ∈ l.entries.filter fun x ↦ decide (start ≤ x.1) :=
    mem_filter.mpr ⟨hx, decide_eq_true hle⟩
  obtain ⟨hinc, hfrom⟩ := range_read l start
  show start < (Scan.run limit 0 keep { next := start } _).next
  rw [Scan.run_eq_page]
  have hfull : ({ next := start } : PageScan α).full (Scan.limits limit 0) = false :=
    PageScan.full_eq_false.mpr ⟨hlimit, .inl rfl⟩
  exact PageScan.next_lt_run_next ⟨hinc, hfrom⟩ hfull rfl (ne_nil_of_mem hmem)

end OffsetLog
