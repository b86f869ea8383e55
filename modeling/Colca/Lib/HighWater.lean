import Mathlib.Data.List.Basic
import Mathlib.Data.List.Pairwise
import Mathlib.Order.MinMax
import Mathlib.Data.Nat.Basic

/-!
# Receiving by a high-water mark

A receiver that is sent numbered items, some of them more than once, keeps one number: the highest
offset it took. It takes an item only when the item's offset is above the mark, and the mark is then
that offset.

* `accept` is the receiver's loop over one batch, written as the loop is: items in order, the mark
  moving with each item taken.
* `highest` is the maximum of the mark before and all offsets of the batch, whatever the order of the
  batch.
* On a batch with increasing offsets the items taken are exactly those above the mark before it
  (`accept_fst_of_increasing`); this is what makes a repeated batch harmless.
-/

namespace HighWater

variable {α : Type*} (off : α → ℕ)

/-- The items taken from a batch at a mark, and the mark after it. -/
def accept : ℕ → List α → List α × ℕ
  | mark, [] => ([], mark)
  | mark, x :: xs =>
    if off x ≤ mark then accept mark xs
    else (x :: (accept (off x) xs).1, (accept (off x) xs).2)

/-- The highest of a mark and the offsets of a batch. -/
def highest (mark : ℕ) (xs : List α) : ℕ := xs.foldl (fun h x ↦ max h (off x)) mark

variable {off} {mark n : ℕ} {x : α} {xs : List α}

@[simp] theorem highest_nil : highest off mark [] = mark := rfl

@[simp] theorem highest_cons : highest off mark (x :: xs) = highest off (max mark (off x)) xs := rfl

/-- The highest offset is the least bound of the mark and the batch. -/
theorem highest_le_iff : highest off mark xs ≤ n ↔ mark ≤ n ∧ ∀ x ∈ xs, off x ≤ n := by
  induction xs generalizing mark with
  | nil => simp
  | cons x xs ih => simp [ih, and_assoc]

theorem le_highest : mark ≤ highest off mark xs := (highest_le_iff.mp le_rfl).1

theorem off_le_highest (h : x ∈ xs) : off x ≤ highest off mark xs :=
  (highest_le_iff.mp le_rfl).2 x h

/-- The highest offset passes `n` only by the mark or by an item of the batch. -/
theorem lt_highest_iff : n < highest off mark xs ↔ n < mark ∨ ∃ x ∈ xs, n < off x := by
  rw [← not_le, highest_le_iff]
  constructor
  · intro h
    by_cases hm : n < mark
    · exact .inl hm
    · push Not at h
      exact .inr (h (by omega))
  · rintro (h | ⟨x, hx, h⟩) ⟨hm, hall⟩
    · omega
    · exact absurd (hall x hx) (by omega)

/-- Nothing is taken exactly when the batch brings no offset above the mark. -/
theorem accept_fst_eq_nil_iff : (accept off mark xs).1 = [] ↔ ∀ x ∈ xs, off x ≤ mark := by
  induction xs generalizing mark with
  | nil => simp [accept]
  | cons x xs ih =>
    rw [accept]
    split
    · rename_i h
      simp [ih, h]
    · rename_i h
      simp [h]

/-- A batch that brings nothing new leaves the mark alone. -/
theorem highest_eq_of_forall_le (h : ∀ x ∈ xs, off x ≤ mark) : highest off mark xs = mark :=
  le_antisymm (highest_le_iff.mpr ⟨le_rfl, h⟩) le_highest

/-- **A batch with increasing offsets** is taken exactly above the mark. -/
theorem accept_fst_of_increasing (h : xs.Pairwise (off · < off ·)) :
    (accept off mark xs).1 = xs.filter (fun x ↦ mark < off x) := by
  induction xs generalizing mark with
  | nil => rfl
  | cons x xs ih =>
    obtain ⟨hx, hxs⟩ := List.pairwise_cons.mp h
    rw [accept]
    split
    · rename_i hle
      rw [ih hxs, List.filter_cons_of_neg (by simpa using hle)]
    · rename_i hle
      rw [List.filter_cons_of_pos (by simpa using hle), ih hxs]
      -- everything after `x` is above `x`, hence above the mark before it too
      have hall : ∀ y ∈ xs, decide (off x < off y) = decide (mark < off y) := by
        intro y hy
        have := hx y hy
        simp only [decide_eq_decide]
        omega
      rw [List.filter_congr hall]

end HighWater
