import Mathlib.Data.List.Basic
import Mathlib.Data.Nat.Basic
import Mathlib.Order.Basic

/-!
# A memory of the last items

A bounded memory keeps the last `limit` items that went into a log, and an item goes into the log only
when the memory does not hold it. So two equal items of the log have at least `limit` others between
them (`Remembers.apart`).
-/

namespace SeenWindow

variable {α : Type*}

/-- Take an item into the memory, which forgets its oldest one when it is over the limit. -/
def push (limit : ℕ) (order : List α) (a : α) : List α :=
  if limit < (order ++ [a]).length then (order ++ [a]).tail else order ++ [a]

/-- The memory holds the end of the log, and equal items of the log lie apart. -/
structure Remembers (limit : ℕ) (log order : List α) : Prop where
  order_eq : order = log.drop (log.length - limit)
  apart : ∀ (i j : ℕ) (a : α), i < j → log[i]? = some a → log[j]? = some a → i + limit < j

theorem remembers_nil (limit : ℕ) : Remembers limit ([] : List α) [] :=
  ⟨by simp, by simp⟩

variable {limit : ℕ} {log order : List α} {a : α}

theorem Remembers.length_order (h : Remembers limit log order) : order.length = min log.length limit := by
  rw [h.order_eq, List.length_drop]
  omega

theorem Remembers.push_eq (h : Remembers limit log order) (a : α) :
    push limit order a = (log ++ [a]).drop ((log ++ [a]).length - limit) := by
  have hlen := h.length_order
  have happend : order ++ [a] = (log ++ [a]).drop (log.length - limit) := by
    rw [List.drop_append_of_le_length (Nat.sub_le _ _), ← h.order_eq]
  unfold push
  simp only [List.length_append, List.length_singleton]
  split
  · rw [happend, ← List.drop_one, List.drop_drop]
    congr 1
    omega
  · rw [happend]
    congr 1
    omega

/-- **An item that is not remembered may be taken.** -/
theorem Remembers.push (h : Remembers limit log order) (ha : a ∉ order) :
    Remembers limit (log ++ [a]) (push limit order a) where
  order_eq := h.push_eq a
  apart i j b hij hi hj := by
    rcases lt_or_ge j log.length with hlt | hge
    · rw [List.getElem?_append_left (hij.trans hlt)] at hi
      rw [List.getElem?_append_left hlt] at hj
      exact h.apart i j b hij hi hj
    · -- the later one is the item just taken, and the memory would hold the earlier one
      have hj' : j = log.length := by
        have := (List.getElem?_eq_some_iff.mp hj).1
        simp only [List.length_append, List.length_singleton] at this
        omega
      subst hj'
      rw [List.getElem?_append_right le_rfl, Nat.sub_self] at hj
      obtain rfl : a = b := by simpa using hj
      rw [List.getElem?_append_left hij] at hi
      by_contra hnear
      refine ha ?_
      rw [h.order_eq]
      refine List.mem_of_getElem? (i := i - (log.length - limit)) ?_
      rw [List.getElem?_drop, ← hi]
      congr 1
      omega

theorem Remembers.mem_of_mem_order (h : Remembers limit log order) (ha : a ∈ order) : a ∈ log := by
  rw [h.order_eq] at ha
  exact List.mem_of_mem_drop ha

end SeenWindow
