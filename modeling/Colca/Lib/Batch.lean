import Mathlib.Logic.Function.Basic
import Mathlib.Data.List.Basic

/-!
# Key-value stores written by atomic batches

A store is a partial map from keys to values. A batch is a list of writes, applied in order and as a
whole: it is the unit of atomicity, so there is no state in which a part of it is visible. A key
holds what the **last** write to it in the batch says (`apply_append`), and a
batch that does not write a key leaves it alone (`apply_eq_of_forall_ne`).
-/

/-- A key-value store. -/
abbrev KeyStore (κ ν : Type*) := κ → Option ν

/-- One write of a batch. -/
inductive Write (κ ν : Type*)
  /-- Store a value under a key. -/
  | set (k : κ) (v : ν)
  /-- Remove a key; a no-op when it is absent. -/
  | delete (k : κ)

namespace Write

variable {κ ν : Type*}

/-- The key a write is about. -/
def key : Write κ ν → κ
  | set k _ => k
  | delete k => k

/-- What a write leaves under its key. -/
def value : Write κ ν → Option ν
  | set _ v => some v
  | delete _ => none

@[simp] theorem key_set (k : κ) (v : ν) : (set k v).key = k := rfl
@[simp] theorem value_set (k : κ) (v : ν) : (set k v).value = some v := rfl
@[simp] theorem key_delete (k : κ) : (delete k : Write κ ν).key = k := rfl

end Write

/-- An atomic batch of writes. -/
abbrev Batch (κ ν : Type*) := List (Write κ ν)

namespace Batch

open List Function

variable {κ ν : Type*} [DecidableEq κ]

/-- Apply a batch to a store. -/
def apply (d : KeyStore κ ν) (b : Batch κ ν) : KeyStore κ ν :=
  b.foldl (fun d w ↦ update d w.key w.value) d

@[simp] theorem apply_nil (d : KeyStore κ ν) : apply d [] = d := rfl

theorem apply_append (d : KeyStore κ ν) (b b' : Batch κ ν) : apply d (b ++ b') = apply (apply d b) b' :=
  foldl_append

theorem apply_cons (d : KeyStore κ ν) (w : Write κ ν) (b : Batch κ ν) :
    apply d (w :: b) = apply (update d w.key w.value) b :=
  rfl

variable {b : Batch κ ν} {d : KeyStore κ ν} {k : κ} {v : ν}

/-- A batch leaves a key it does not write alone. -/
theorem apply_eq_of_forall_ne (h : ∀ w ∈ b, w.key ≠ k) : apply d b k = d k := by
  induction b generalizing d with
  | nil => rfl
  | cons w b ih =>
    rw [apply_cons, ih fun w' hw' ↦ h w' (mem_cons_of_mem _ hw')]
    exact update_of_ne (h w mem_cons_self).symm _ _

/-- What a batch leaves under a key depends on that key alone. -/
theorem apply_congr {d d' : KeyStore κ ν} (h : d k = d' k) : apply d b k = apply d' b k := by
  induction b generalizing d d' with
  | nil => exact h
  | cons w b ih =>
    rw [apply_cons, apply_cons]
    refine ih ?_
    by_cases hk : k = w.key
    · rw [hk, update_self, update_self]
    · rw [update_of_ne hk, update_of_ne hk, h]

/-- The value written under a key that the rest of the batch does not write. -/
theorem apply_of_mem (hmem : Write.set k v ∈ b) (honly : ∀ w ∈ b, w.key = k → w = .set k v) :
    apply d b k = some v := by
  induction b generalizing d with
  | nil => exact absurd hmem not_mem_nil
  | cons w b ih =>
    rw [apply_cons]
    have htail : ∀ w' ∈ b, w'.key = k → w' = .set k v :=
      fun w' hw' ↦ honly w' (mem_cons_of_mem _ hw')
    by_cases hb : Write.set k v ∈ b
    · exact ih hb htail
    · -- no later write is about `k`, so the head write stands
      have hw : w = .set k v := by
        rcases mem_cons.mp hmem with h | h
        · exact h.symm
        · exact absurd h hb
      rw [apply_eq_of_forall_ne fun w' hw' hk ↦ hb (htail w' hw' hk ▸ hw'), hw]
      exact update_self k (some v) d

/-- A key that one write of a batch is about, and that under a condition. -/
theorem apply_eq_ite {P : Prop} [Decidable P]
    (hmem : P → Write.set k v ∈ b) (honly : ∀ w ∈ b, w.key = k → w = .set k v ∧ P) :
    apply d b k = if P then some v else d k := by
  split
  · rename_i h
    exact apply_of_mem (hmem h) fun w hw hk ↦ (honly w hw hk).1
  · rename_i h
    exact apply_eq_of_forall_ne fun w hw hk ↦ h (honly w hw hk).2

/-- A batch of deletions. -/
theorem apply_deletes (d : KeyStore κ ν) (ks : List κ) (k : κ) :
    apply d (ks.map Write.delete) k = if k ∈ ks then none else d k := by
  induction ks generalizing d with
  | nil => rfl
  | cons k' ks ih =>
    rw [map_cons, apply_cons, ih]
    by_cases hks : k ∈ ks
    · rw [if_pos hks, if_pos (mem_cons_of_mem _ hks)]
    · rw [if_neg hks]
      by_cases heq : k = k'
      · subst heq
        rw [if_pos mem_cons_self]
        exact update_self k none d
      · rw [if_neg (not_mem_cons_of_ne_of_not_mem heq hks)]
        exact update_of_ne heq _ _

end Batch
