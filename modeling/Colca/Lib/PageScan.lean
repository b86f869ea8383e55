import Mathlib.Data.List.Basic
import Mathlib.Order.Nat

/-!
# Page scans

The loop of a reader that fills a page: visit entries in offset order, put those a filter picks on the
page, and stop before an entry once the page holds `limit` of them, once `maxScan` entries were visited,
or at an entry that would take the page past `maxBytes` (`0` sets no bound). A page takes its first
entry, however large.

`next` follows the last entry that was passed, on the page or not. A reader that continues from there
has skipped nothing it wanted (`mem_run_out`). A reader whose entries are not all there is, such as one
that goes through an index, knows more: it may continue at the entry that did not fit, and at the end of
its range when no entry is left (`resume`).
-/

/-- The bounds of a page. -/
structure PageLimits (β : Type*) where
  limit : ℕ
  maxScan : ℕ
  maxBytes : ℕ
  size : β → ℕ

/-- What a page scan has done so far. -/
structure PageScan (β : Type*) where
  /-- The page. -/
  out : List (ℕ × β) := []
  next : ℕ
  /-- How many entries were visited. -/
  scanned : ℕ := 0
  /-- The bytes on the page. -/
  used : ℕ := 0
  /-- The entry that did not fit. -/
  pending : Option ℕ := none
  /-- A bound ended the scan before an entry. -/
  left : Bool := false

namespace PageScan

open List

variable {α β : Type*}

/-- No further entry is visited. -/
def full (L : PageLimits β) (s : PageScan β) : Bool :=
  decide (L.limit ≤ s.out.length) || (decide (0 < L.maxScan) && decide (L.maxScan ≤ s.scanned))

/-- The entry still belongs on the page. -/
def fits (L : PageLimits β) (s : PageScan β) (b : β) : Bool :=
  decide (L.maxBytes = 0) || s.out.isEmpty || decide (s.used + L.size b ≤ L.maxBytes)

/-- Pass an entry that was not picked. -/
def pass (s : PageScan β) (o : ℕ) : PageScan β :=
  { s with next := o + 1, scanned := s.scanned + 1 }

/-- Put an entry on the page. -/
def take (L : PageLimits β) (s : PageScan β) (o : ℕ) (b : β) : PageScan β :=
  { s with out := s.out ++ [(o, b)], next := o + 1, scanned := s.scanned + 1, used := s.used + L.size b }

/-- Visit the entries in turn, as far as the bounds allow. -/
def run (L : PageLimits β) (pick : ℕ × α → Option β) : PageScan β → List (ℕ × α) → PageScan β
  | s, [] => s
  | s, x :: xs =>
    if s.full L then { s with left := true }
    else
      match pick x with
      | none => run L pick (s.pass x.1) xs
      | some b =>
        if s.fits L b then run L pick (s.take L x.1 b) xs
        else { s with scanned := s.scanned + 1, pending := some x.1, left := true }

/-- Where a reader over an index of the range up to `head` continues. -/
def resume (head : ℕ) (s : PageScan β) : ℕ :=
  match s.pending with
  | some o => o
  | none => if s.left then s.next else head

/-- The page lies below where the scan stands, in order. -/
structure Ordered (s : PageScan β) : Prop where
  increasing : s.out.Pairwise (·.1 < ·.1)
  lt_next : ∀ x ∈ s.out, x.1 < s.next

theorem ordered_start (next : ℕ) : Ordered (β := β) { next := next } :=
  ⟨List.Pairwise.nil, fun _ hx ↦ nomatch hx⟩

variable {L : PageLimits β} {pick : ℕ × α → Option β} {s : PageScan β} {x : ℕ × α} {xs : List (ℕ × α)}
  {o bound : ℕ} {b : β}

theorem Ordered.take (h : s.Ordered) (ho : s.next ≤ o) : (s.take L o b).Ordered where
  increasing := by
    refine pairwise_append.mpr ⟨h.increasing, pairwise_singleton _ _, fun y hy z hz ↦ ?_⟩
    rw [mem_singleton.mp hz]
    exact (h.lt_next y hy).trans_le ho
  lt_next y hy := by
    show y.1 < o + 1
    rcases mem_append.mp hy with hy | hy
    · exact Nat.lt_succ_of_le ((h.lt_next y hy).le.trans ho)
    · rw [mem_singleton.mp hy]
      exact Nat.lt_succ_self _

theorem Ordered.pass (h : s.Ordered) (ho : s.next ≤ o) : (s.pass o).Ordered :=
  ⟨h.increasing, fun y hy ↦ Nat.lt_succ_of_le ((h.lt_next y hy).le.trans ho)⟩

/-- The entries still to come lie in order, past the scan. -/
structure Ahead (s : PageScan β) (xs : List (ℕ × α)) : Prop where
  increasing : xs.Pairwise (·.1 < ·.1)
  next_le : ∀ x ∈ xs, s.next ≤ x.1

theorem Ahead.pass (h : s.Ahead (x :: xs)) : (s.pass x.1).Ahead xs :=
  ⟨h.increasing.of_cons, (pairwise_cons.mp h.increasing).1⟩

theorem Ahead.take (h : s.Ahead (x :: xs)) : (s.take L x.1 b).Ahead xs :=
  ⟨h.increasing.of_cons, (pairwise_cons.mp h.increasing).1⟩

/-- **The rule of page scans.** -/
theorem run_induction {P : PageScan β → List (ℕ × α) → PageScan β → Prop} (nil : ∀ s, P s [] s)
    (full : ∀ s x xs, P s (x :: xs) { s with left := true })
    (pass : ∀ s x xs, pick x = none → P (s.pass x.1) xs (run L pick (s.pass x.1) xs) →
      P s (x :: xs) (run L pick (s.pass x.1) xs))
    (take : ∀ s x xs b, pick x = some b → P (s.take L x.1 b) xs (run L pick (s.take L x.1 b) xs) →
      P s (x :: xs) (run L pick (s.take L x.1 b) xs))
    (stop : ∀ s x xs, P s (x :: xs) { s with scanned := s.scanned + 1, pending := some x.1, left := true })
    (s : PageScan β) (xs : List (ℕ × α)) : P s xs (run L pick s xs) := by
  induction xs generalizing s with
  | nil => exact nil s
  | cons x xs ih =>
    rw [run]
    split
    · exact full s x xs
    · split
      · rename_i hpick
        exact pass s x xs hpick (ih _)
      · rename_i b hpick
        split
        · exact take s x xs b hpick (ih _)
        · exact stop s x xs

theorem full_eq_false : s.full L = false ↔
    s.out.length < L.limit ∧ (L.maxScan = 0 ∨ s.scanned < L.maxScan) := by
  simp only [full, Bool.or_eq_false_iff, Bool.and_eq_false_iff, decide_eq_false_iff_not, not_le, not_lt,
    Nat.le_zero]

theorem run_cons_pass (hfull : s.full L = false) (hpick : pick x = none) :
    run L pick s (x :: xs) = run L pick (s.pass x.1) xs := by
  rw [run, if_neg (Bool.eq_false_iff.mp hfull), hpick]

theorem run_cons_take (hfull : s.full L = false) (hpick : pick x = some b) (hfits : s.fits L b = true) :
    run L pick s (x :: xs) = run L pick (s.take L x.1 b) xs := by
  rw [run, if_neg (Bool.eq_false_iff.mp hfull), hpick]
  exact if_pos hfits

theorem run_cons_stop (hfull : s.full L = false) (hpick : pick x = some b) (hfits : ¬ s.fits L b = true) :
    run L pick s (x :: xs) =
      { s with scanned := s.scanned + 1, pending := some x.1, left := true } := by
  rw [run, if_neg (Bool.eq_false_iff.mp hfull), hpick]
  exact if_neg hfits

/-- A full page is left at the first entry. -/
theorem run_of_full (hfull : s.full L = true) (hxs : xs ≠ []) :
    run L pick s xs = { s with left := true } := by
  obtain ⟨x, xs, rfl⟩ := exists_cons_of_ne_nil hxs
  rw [run, if_pos hfull]

theorem le_run_next (h : s.Ahead xs) : s.next ≤ (run L pick s xs).next := by
  revert h
  refine run_induction (P := fun s xs r ↦ s.Ahead xs → s.next ≤ r.next) (fun _ _ ↦ le_rfl)
    (fun _ _ _ _ ↦ le_rfl) ?_ ?_ (fun _ _ _ _ ↦ le_rfl) s xs
  · intro s x xs _ ih h
    exact ((h.next_le x mem_cons_self).trans (Nat.le_succ _)).trans (ih h.pass)
  · intro s x xs b _ ih h
    exact ((h.next_le x mem_cons_self).trans (Nat.le_succ _)).trans (ih h.take)

theorem run_next_le (hs : s.next ≤ bound) (hlt : ∀ x ∈ xs, x.1 < bound) :
    (run L pick s xs).next ≤ bound := by
  revert hs hlt
  refine run_induction (P := fun s xs r ↦ s.next ≤ bound → (∀ x ∈ xs, x.1 < bound) → r.next ≤ bound)
    (fun _ hs _ ↦ hs) (fun _ _ _ hs _ ↦ hs) ?_ ?_ (fun _ _ _ hs _ ↦ hs) s xs
  · intro s x xs _ ih _ hlt
    exact ih (hlt x mem_cons_self) fun y hy ↦ hlt y (mem_cons_of_mem _ hy)
  · intro s x xs b _ ih _ hlt
    exact ih (hlt x mem_cons_self) fun y hy ↦ hlt y (mem_cons_of_mem _ hy)

theorem Ordered.run (hs : s.Ordered) (h : s.Ahead xs) : (run L pick s xs).Ordered := by
  revert hs h
  refine run_induction (P := fun s xs r ↦ s.Ordered → s.Ahead xs → r.Ordered) (fun _ hs _ ↦ hs)
    (fun _ _ _ hs _ ↦ ⟨hs.increasing, hs.lt_next⟩) ?_ ?_
    (fun _ _ _ hs _ ↦ ⟨hs.increasing, hs.lt_next⟩) s xs
  · intro s x xs _ ih hs h
    exact ih (hs.pass (h.next_le x mem_cons_self)) h.pass
  · intro s x xs b _ ih hs h
    exact ih (hs.take (h.next_le x mem_cons_self)) h.take

/-- **A page holds what its scan passed**: exactly the entries picked below where it ended. -/
theorem mem_run_out (h : s.Ahead xs) : (o, b) ∈ (run L pick s xs).out ↔
    (o, b) ∈ s.out ∨ ∃ a, (o, a) ∈ xs ∧ pick (o, a) = some b ∧ o < (run L pick s xs).next := by
  revert h
  refine run_induction (P := fun s xs r ↦ s.Ahead xs → ((o, b) ∈ r.out ↔
    (o, b) ∈ s.out ∨ ∃ a, (o, a) ∈ xs ∧ pick (o, a) = some b ∧ o < r.next)) ?_ ?_ ?_ ?_ ?_ s xs
  · intro s _
    simp
  · -- every entry left lies past the scan
    intro s x xs h
    refine ⟨.inl, fun hmem ↦ hmem.resolve_right fun ⟨a, ha, _, hlt⟩ ↦ ?_⟩
    exact (h.next_le (o, a) ha).not_gt hlt
  · intro s x xs hnone ih h
    refine (ih h.pass).trans (or_congr_right ⟨?_, ?_⟩)
    · exact fun ⟨a, ha, hp⟩ ↦ ⟨a, mem_cons_of_mem _ ha, hp⟩
    · rintro ⟨a, ha, hpick, hlt⟩
      rcases mem_cons.mp ha with rfl | ha
      · cases hnone.symm.trans hpick
      · exact ⟨a, ha, hpick, hlt⟩
  · intro s x xs b' hsome ih h
    refine (ih h.take).trans ?_
    show (o, b) ∈ s.out ++ [(x.1, b')] ∨ _ ↔ _
    rw [mem_append, mem_singleton]
    constructor
    · rintro ((hmem | heq) | ⟨a, ha, hp⟩)
      · exact .inl hmem
      · cases heq
        exact .inr ⟨x.2, mem_cons_self, hsome, le_run_next h.take⟩
      · exact .inr ⟨a, mem_cons_of_mem _ ha, hp⟩
    · rintro (hmem | ⟨a, ha, hpick, hlt⟩)
      · exact .inl (.inl hmem)
      · rcases mem_cons.mp ha with rfl | ha
        · cases hsome.symm.trans hpick
          exact .inl (.inr rfl)
        · exact .inr ⟨a, ha, hpick, hlt⟩
  · intro s x xs h
    refine ⟨.inl, fun hmem ↦ hmem.resolve_right fun ⟨a, ha, _, hlt⟩ ↦ ?_⟩
    exact (h.next_le (o, a) ha).not_gt hlt

/-! ### Where to continue -/

/-- The scan has not ended. -/
structure Open (s : PageScan β) : Prop where
  pending : s.pending = none
  left : s.left = false

/-- A reader over an index may continue at `resume`: the entries below are those the scan passed. -/
theorem lt_run_next_of_lt_resume (hs : s.Open) (h : s.Ahead xs) (hx : x ∈ xs)
    (hlt : x.1 < (run L pick s xs).resume bound) : x.1 < (run L pick s xs).next := by
  revert hs h hx hlt
  refine run_induction (P := fun s xs r ↦ s.Open → s.Ahead xs → x ∈ xs → x.1 < r.resume bound →
    x.1 < r.next) ?_ ?_ ?_ ?_ ?_ s xs
  · exact fun _ _ _ hx ↦ nomatch hx
  · intro s y xs hs _ _ hlt
    rw [resume, hs.pending] at hlt
    exact hlt
  · intro s y xs _ ih hs h hx hlt
    rcases mem_cons.mp hx with rfl | hx
    · exact le_run_next h.pass
    · exact ih ⟨hs.pending, hs.left⟩ h.pass hx hlt
  · intro s y xs b _ ih hs h hx hlt
    rcases mem_cons.mp hx with rfl | hx
    · exact le_run_next h.take
    · exact ih ⟨hs.pending, hs.left⟩ h.take hx hlt
  · -- the entry that did not fit is the first one left
    intro s y xs hs h hx hlt
    have hlt : x.1 < y.1 := hlt
    rcases mem_cons.mp hx with rfl | hx
    · exact absurd hlt (Nat.lt_irrefl _)
    · exact absurd ((pairwise_cons.mp h.increasing).1 x hx) (Nat.lt_asymm hlt)

theorem next_le_resume (hs : s.Open) (h : s.Ahead xs) (hle : s.next ≤ bound) (hlt : ∀ x ∈ xs, x.1 < bound) :
    (run L pick s xs).next ≤ (run L pick s xs).resume bound ∧ (run L pick s xs).resume bound ≤ bound := by
  revert hs h hle hlt
  refine run_induction (P := fun s xs r ↦ s.Open → s.Ahead xs → s.next ≤ bound →
    (∀ x ∈ xs, x.1 < bound) → r.next ≤ r.resume bound ∧ r.resume bound ≤ bound) ?_ ?_ ?_ ?_ ?_ s xs
  · intro s hs _ hle _
    rw [resume, hs.pending, hs.left]
    exact ⟨hle, le_rfl⟩
  · intro s x xs hs _ hle _
    rw [resume, hs.pending]
    exact ⟨le_rfl, hle⟩
  · intro s x xs _ ih hs h _ hlt
    exact ih ⟨hs.pending, hs.left⟩ h.pass (hlt x mem_cons_self)
      fun y hy ↦ hlt y (mem_cons_of_mem _ hy)
  · intro s x xs b _ ih hs h _ hlt
    exact ih ⟨hs.pending, hs.left⟩ h.take (hlt x mem_cons_self)
      fun y hy ↦ hlt y (mem_cons_of_mem _ hy)
  · intro s x xs _ h _ hlt
    exact ⟨h.next_le x mem_cons_self, (hlt x mem_cons_self).le⟩

theorem Open.run (hs : s.Open) (hleft : (run L pick s xs).left = false) : (run L pick s xs).Open := by
  revert hs hleft
  refine run_induction (P := fun s _ r ↦ s.Open → r.left = false → r.Open) (fun _ hs _ ↦ hs)
    (fun _ _ _ _ hleft ↦ nomatch hleft) ?_ ?_ (fun _ _ _ _ hleft ↦ nomatch hleft) s xs
  · exact fun s x xs _ ih hs hleft ↦ ih ⟨hs.pending, hs.left⟩ hleft
  · exact fun s x xs b _ ih hs hleft ↦ ih ⟨hs.pending, hs.left⟩ hleft

/-- A scan that no bound ended passed every entry. -/
theorem lt_run_next (hs : s.Open) (h : s.Ahead xs) (hleft : (run L pick s xs).left = false)
    (hx : x ∈ xs) : x.1 < (run L pick s xs).next := by
  have hopen : (run L pick s xs).Open := hs.run hleft
  have hend : (run L pick s xs).resume (x.1 + 1) = x.1 + 1 := by
    rw [resume, hopen.pending, hopen.left]
    rfl
  exact lt_run_next_of_lt_resume hs h hx ((Nat.lt_succ_self x.1).trans_eq hend.symm)

/-- An empty page goes past an entry, whether it picks it or not. -/
theorem next_lt_run_next (h : s.Ahead xs) (hfull : s.full L = false) (hout : s.out = []) (hxs : xs ≠ []) :
    s.next < (run L pick s xs).next := by
  obtain ⟨x, xs, rfl⟩ := exists_cons_of_ne_nil hxs
  have hle : s.next ≤ x.1 := h.next_le x mem_cons_self
  cases hpick : pick x with
  | none =>
    rw [run_cons_pass hfull hpick]
    exact (Nat.lt_succ_of_le hle).trans_le (le_run_next h.pass)
  | some b =>
    have hfits : s.fits L b = true := by
      rw [fits, hout]
      simp
    rw [run_cons_take hfull hpick hfits]
    exact (Nat.lt_succ_of_le hle).trans_le (le_run_next h.take)

/-! ### Scans in parts, without a bound on the bytes -/

/-- The entries a budget allows, of which some is used up. -/
def allowed (maxScan scanned : ℕ) (xs : List (ℕ × α)) : List (ℕ × α) :=
  if maxScan = 0 then xs else xs.take (maxScan - scanned)

/-- What a page holds of the entries: the first `limit` of those it picks within its budget. -/
def firstPicks (L : PageLimits β) (pick : ℕ × α → Option β) (xs : List (ℕ × α)) : List (ℕ × β) :=
  ((allowed L.maxScan 0 xs).filterMap fun x ↦ (pick x).map (x.1, ·)).take L.limit

theorem allowed_cons {maxScan scanned : ℕ} (h : maxScan = 0 ∨ scanned < maxScan) (x : ℕ × α)
    (xs : List (ℕ × α)) : allowed maxScan scanned (x :: xs) = x :: allowed maxScan (scanned + 1) xs := by
  unfold allowed
  split
  · rfl
  · rename_i hne
    have hlt : scanned < maxScan := h.resolve_left hne
    have hsub : maxScan - scanned = maxScan - (scanned + 1) + 1 := by omega
    rw [hsub, take_succ_cons]

theorem fits_of_unbounded (hbytes : L.maxBytes = 0) : s.fits L b = true := by
  rw [fits, hbytes]
  rfl

theorem run_out_eq (hbytes : L.maxBytes = 0) (s : PageScan β) (xs : List (ℕ × α)) :
    (run L pick s xs).out = s.out ++ ((allowed L.maxScan s.scanned xs).filterMap fun x ↦
      (pick x).map (x.1, ·)).take (L.limit - s.out.length) := by
  induction xs generalizing s with
  | nil => simp [run, allowed]
  | cons x xs ih =>
    cases hfull : s.full L with
    | true =>
      rw [run_of_full hfull (cons_ne_nil _ _)]
      simp only [full, Bool.or_eq_true, Bool.and_eq_true, decide_eq_true_eq] at hfull
      rcases hfull with hlim | ⟨hpos, hscan⟩
      · rw [Nat.sub_eq_zero_of_le hlim, take_zero, append_nil]
      · rw [allowed, if_neg hpos.ne', Nat.sub_eq_zero_of_le hscan, take_zero, filterMap_nil,
          take_nil, append_nil]
    | false =>
      obtain ⟨hlt, hscan⟩ := full_eq_false.mp hfull
      rw [allowed_cons hscan]
      cases hpick : pick x with
      | none =>
        rw [run_cons_pass hfull hpick, ih, filterMap_cons, hpick]
        rfl
      | some b =>
        have hlen : (s.take L x.1 b).out.length = s.out.length + 1 := length_append
        have hsub : L.limit - s.out.length = L.limit - (s.out.length + 1) + 1 := by omega
        rw [run_cons_take hfull hpick (fits_of_unbounded hbytes), ih, hlen, filterMap_cons, hpick,
          hsub, Option.map_some, take_succ_cons]
        exact append_assoc _ _ _

/-- **What a page holds**, as a list. -/
theorem run_out_eq_firstPicks (hbytes : L.maxBytes = 0) (next : ℕ) :
    (run L pick { next := next } xs).out = firstPicks L pick xs :=
  run_out_eq hbytes _ xs

/-- Where a scan stands does not bear on what it takes. -/
theorem run_out_congr (hbytes : L.maxBytes = 0) {t : PageScan β} (hout : s.out = t.out)
    (hscan : s.scanned = t.scanned) : (run L pick s xs).out = (run L pick t xs).out := by
  rw [run_out_eq hbytes, run_out_eq hbytes, hout, hscan]

/-- A scan that no bound ended goes on with more entries. -/
theorem run_append (hs : s.left = false) (ys : List (ℕ × α)) : run L pick s (xs ++ ys) =
    if (run L pick s xs).left then run L pick s xs else run L pick (run L pick s xs) ys := by
  induction xs generalizing s with
  | nil =>
    rw [run, hs]
    rfl
  | cons x xs ih =>
    rw [cons_append]
    cases hfull : s.full L with
    | true =>
      rw [run_of_full hfull (cons_ne_nil _ _), run_of_full hfull (cons_ne_nil _ _)]
      rfl
    | false =>
      cases hpick : pick x with
      | none =>
        rw [run_cons_pass hfull hpick, run_cons_pass hfull hpick]
        exact ih hs
      | some b =>
        by_cases hfits : s.fits L b = true
        · rw [run_cons_take hfull hpick hfits, run_cons_take hfull hpick hfits]
          exact ih hs
        · rw [run_cons_stop hfull hpick hfits, run_cons_stop hfull hpick hfits]
          rfl

theorem run_congr {pick' : ℕ × α → Option β} (h : ∀ x ∈ xs, pick x = pick' x) (s : PageScan β) :
    run L pick s xs = run L pick' s xs := by
  induction xs generalizing s with
  | nil => rfl
  | cons x xs ih =>
    have htail := ih fun y hy ↦ h y (mem_cons_of_mem _ hy)
    rw [run, run, h x mem_cons_self]
    simp only [htail]

theorem run_map {γ : Type*} {f : ℕ × γ → ℕ × α} (hf : ∀ x, (f x).1 = x.1) (s : PageScan β)
    (xs : List (ℕ × γ)) : run L pick s (xs.map f) = run L (fun x ↦ pick (f x)) s xs := by
  induction xs generalizing s with
  | nil => rfl
  | cons x xs ih =>
    rw [map_cons, run, run, hf x]
    simp only [ih]

end PageScan
