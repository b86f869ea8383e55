import Mathlib.Data.List.Basic
import Mathlib.Data.List.Nodup
import Mathlib.Data.List.Pairwise
import Mathlib.Data.Nat.Basic
import Mathlib.Order.MinMax

/-!
# Logs addressed by offsets

An append-only log hands out offsets `1, 2, 3, …` and never reuses one. Entries leave it again in
two ways: a **prune** removes a whole run at the old end and raises the low-water mark, and a
**removal** takes out entries anywhere, leaving holes. So the entries of a log are those of its
history that are still retained, in offset order.

An `OffsetLog` carries its well-formedness: the entries are in strictly increasing offset order,
below `next` and not below `lwm`.

## Evolution

`a.Evolves b` says what every one of these operations does and no more: nothing comes back. An entry
of `b` was an entry of `a`, or has an offset `a` had not handed out. A reader that reasoned about
the entries of a log below some offset keeps its conclusions when the log evolves, which is how
facts about a page in hand, or about a request on the way, survive what the log does meanwhile.

## Pages

A reader takes a page: the first `limit` entries from a position on. `pageNext` is where the next
page starts, and `mem_page_of_lt` says that the page skipped nothing before it.
-/

/-- A log addressed by offsets. -/
structure OffsetLog (α : Type*) where
  /-- The next offset to hand out. -/
  next : ℕ
  /-- The low-water mark: nothing below it is retained. -/
  lwm : ℕ
  /-- The retained entries with their offsets. -/
  entries : List (ℕ × α)
  one_le_lwm : 1 ≤ lwm
  lwm_le_next : lwm ≤ next
  increasing : entries.Pairwise (·.1 < ·.1)
  bounds : ∀ x ∈ entries, lwm ≤ x.1 ∧ x.1 < next

namespace OffsetLog

open List

variable {α : Type*}

/-- The log that has handed out nothing. -/
def empty : OffsetLog α where
  next := 1
  lwm := 1
  entries := []
  one_le_lwm := le_rfl
  lwm_le_next := le_rfl
  increasing := List.Pairwise.nil
  bounds _ h := by cases h

variable (l : OffsetLog α)

instance [DecidableEq α] (x : ℕ × α) : Decidable (x ∈ l.entries) := inferInstance

/-- Append one entry at the next offset. -/
def append (a : α) : OffsetLog α where
  next := l.next + 1
  lwm := l.lwm
  entries := l.entries ++ [(l.next, a)]
  one_le_lwm := l.one_le_lwm
  lwm_le_next := Nat.le_succ_of_le l.lwm_le_next
  increasing := by
    refine pairwise_append.mpr ⟨l.increasing, pairwise_singleton _ _, ?_⟩
    intro x hx y hy
    rw [mem_singleton.mp hy]
    exact (l.bounds x hx).2
  bounds x hx := by
    rcases mem_append.mp hx with hx | hx
    · exact ⟨(l.bounds x hx).1, Nat.lt_succ_of_lt (l.bounds x hx).2⟩
    · rw [mem_singleton.mp hx]
      exact ⟨l.lwm_le_next, Nat.lt_succ_self _⟩

/-- Remove the entries below `upTo` and raise the low-water mark to it, at most to the head. -/
def prune (upTo : ℕ) : OffsetLog α where
  next := l.next
  lwm := max l.lwm (min upTo l.next)
  entries := l.entries.filter fun x ↦ max l.lwm (min upTo l.next) ≤ x.1
  one_le_lwm := l.one_le_lwm.trans (le_max_left _ _)
  lwm_le_next := max_le l.lwm_le_next (min_le_right _ _)
  increasing := l.increasing.filter _
  bounds x hx := by
    obtain ⟨hx, hle⟩ := mem_filter.mp hx
    exact ⟨of_decide_eq_true hle, (l.bounds x hx).2⟩

/-- Remove the entries at the offsets `p` selects, wherever they are. -/
def remove (p : ℕ → Bool) : OffsetLog α where
  next := l.next
  lwm := l.lwm
  entries := l.entries.filter fun x ↦ !p x.1
  one_le_lwm := l.one_le_lwm
  lwm_le_next := l.lwm_le_next
  increasing := l.increasing.filter _
  bounds x hx := l.bounds x (mem_filter.mp hx).1

@[simp] theorem append_next (a : α) : (l.append a).next = l.next + 1 := rfl
@[simp] theorem append_entries (a : α) : (l.append a).entries = l.entries ++ [(l.next, a)] := rfl
@[simp] theorem prune_next (upTo : ℕ) : (l.prune upTo).next = l.next := rfl

variable {l}

variable {x : ℕ × α}

/-- In a list in offset order an offset names at most one entry. -/
theorem eq_of_offset_eq {xs : List (ℕ × α)} (hinc : xs.Pairwise (·.1 < ·.1)) {y : ℕ × α}
    (hx : x ∈ xs) (hy : y ∈ xs) (h : x.1 = y.1) : x = y :=
  inj_on_of_nodup_map ((pairwise_map.mpr hinc).imp ne_of_lt) hx hy h

section Range

variable {f : ℕ → Option (ℕ × α)} (hf : ∀ o x, f o = some x → x.1 = o) {lo hi : ℕ}

include hf

/-- What is found at the offsets of a range, looked up one by one. -/
theorem mem_filterMap_range : x ∈ (List.range' lo (hi - lo)).filterMap f ↔
    lo ≤ x.1 ∧ x.1 < hi ∧ f x.1 = some x := by
  rw [mem_filterMap]
  constructor
  · rintro ⟨o, ho, h⟩
    obtain ⟨hlo, hhi⟩ := mem_range'_1.mp ho
    obtain rfl := hf o x h
    exact ⟨hlo, by omega, h⟩
  · rintro ⟨hlo, hhi, h⟩
    exact ⟨x.1, mem_range'_1.mpr ⟨hlo, by omega⟩, h⟩

theorem filterMap_range_increasing : ((List.range' lo (hi - lo)).filterMap f).Pairwise (·.1 < ·.1) := by
  refine List.Pairwise.filterMap _ ?_ (pairwise_lt_range' (s := lo) (n := hi - lo))
  intro o o' hlt x hx y hy
  rw [hf o x hx, hf o' y hy]
  exact hlt

end Range

/-! ### Evolution -/

/-- Nothing comes back: an entry of `b` was one of `a`, or is at an offset `a` had not handed
out. -/
structure Evolves (a b : OffsetLog α) : Prop where
  next_le : a.next ≤ b.next
  retained : ∀ x ∈ b.entries, x ∈ a.entries ∨ a.next ≤ x.1

theorem Evolves.refl (a : OffsetLog α) : a.Evolves a := ⟨le_rfl, fun _ hx ↦ .inl hx⟩

theorem evolves_append (l : OffsetLog α) (a : α) : l.Evolves (l.append a) where
  next_le := Nat.le_succ _
  retained x hx := by
    rcases mem_append.mp hx with hx | hx
    · exact .inl hx
    · rw [mem_singleton.mp hx]
      exact .inr le_rfl

theorem evolves_prune (l : OffsetLog α) (upTo : ℕ) : l.Evolves (l.prune upTo) :=
  ⟨le_rfl, fun _ hx ↦ .inl (mem_filter.mp hx).1⟩

theorem evolves_remove (l : OffsetLog α) (p : ℕ → Bool) : l.Evolves (l.remove p) :=
  ⟨le_rfl, fun _ hx ↦ .inl (mem_filter.mp hx).1⟩

/-- Below what `a` had handed out, an evolved log has only entries of `a`. -/
theorem Evolves.mem_of_lt {a b : OffsetLog α} (h : a.Evolves b) (hx : x ∈ b.entries)
    (hlt : x.1 < a.next) : x ∈ a.entries :=
  (h.retained x hx).resolve_right hlt.not_ge

/-! ### Pages -/

/-- At most `limit` entries from `start` on. -/
def page (l : OffsetLog α) (start limit : ℕ) : List (ℕ × α) :=
  (l.entries.filter fun x ↦ start ≤ x.1).take limit

/-- Where the page after this one starts: past its last entry, or where it started. -/
def pageNext (l : OffsetLog α) (start limit : ℕ) : ℕ :=
  match (l.page start limit).getLast? with
  | some x => x.1 + 1
  | none => start

variable {start limit : ℕ}

theorem mem_of_mem_page (hx : x ∈ l.page start limit) : x ∈ l.entries ∧ start ≤ x.1 := by
  obtain ⟨hx, hle⟩ := mem_filter.mp (mem_of_mem_take hx)
  exact ⟨hx, of_decide_eq_true hle⟩

theorem page_increasing (l : OffsetLog α) (start limit : ℕ) : (l.page start limit).Pairwise (·.1 < ·.1) :=
  (l.increasing.filter _).sublist (take_sublist _ _)

theorem lt_pageNext (hx : x ∈ l.page start limit) : x.1 < l.pageNext start limit := by
  unfold pageNext
  cases hlast : (l.page start limit).getLast? with
  | none => simp [getLast?_eq_none_iff.mp hlast] at hx
  | some y =>
    obtain ⟨pre, hpre⟩ := getLast?_eq_some_iff.mp hlast
    have hinc := l.page_increasing start limit
    rw [hpre] at hx hinc
    rcases mem_append.mp hx with hx | hx
    · exact Nat.lt_succ_of_lt ((pairwise_append.mp hinc).2.2 x hx y (by simp))
    · rw [mem_singleton.mp hx]
      exact Nat.lt_succ_self _

theorem pageNext_le_next (h : start ≤ l.next) : l.pageNext start limit ≤ l.next := by
  unfold pageNext
  cases hlast : (l.page start limit).getLast? with
  | none => exact h
  | some y => exact (l.bounds y (mem_of_mem_page (mem_of_getLast? hlast)).1).2

/-- A page gets on when there is something to read. -/
theorem lt_pageNext_of_mem (hx : x ∈ l.entries) (hle : start ≤ x.1) (hlimit : 1 ≤ limit) :
    start < l.pageNext start limit := by
  have hmem : x ∈ l.entries.filter fun x ↦ start ≤ x.1 :=
    mem_filter.mpr ⟨hx, by simpa using hle⟩
  have hne : l.page start limit ≠ [] := by
    intro hnil
    rcases take_eq_nil_iff.mp hnil with h | h
    · omega
    · rw [h] at hmem
      cases hmem
  obtain ⟨y, hy⟩ := exists_mem_of_ne_nil _ hne
  exact (mem_of_mem_page hy).2.trans_lt (lt_pageNext hy)

/-- **A page skips nothing**: what lies between its start and its end is in it. -/
theorem mem_page_of_lt (hx : x ∈ l.entries) (hle : start ≤ x.1)
    (hlt : x.1 < l.pageNext start limit) : x ∈ l.page start limit := by
  unfold pageNext at hlt
  have hmem : x ∈ l.entries.filter fun x ↦ start ≤ x.1 :=
    mem_filter.mpr ⟨hx, by simpa using hle⟩
  have hinc : (l.entries.filter fun x ↦ start ≤ x.1).Pairwise (·.1 < ·.1) := l.increasing.filter _
  rw [← take_append_drop limit (l.entries.filter fun x ↦ start ≤ x.1)] at hmem hinc
  rcases mem_append.mp hmem with h | h
  · exact h
  · -- past the page every offset is above the last one of the page
    cases hlast : (l.page start limit).getLast? with
    | none =>
      rw [hlast] at hlt
      exact absurd hlt hle.not_gt
    | some y =>
      rw [hlast] at hlt
      have hxy : x.1 < y.1 + 1 := hlt
      have hy := (pairwise_append.mp hinc).2.2 y (mem_of_getLast? hlast) x h
      omega

end OffsetLog
