import Mathlib.Data.List.Perm.Basic
import Mathlib.Data.Nat.Basic
import Mathlib.Logic.Function.Basic
import Mathlib.Order.Basic

/-!
# Mirrors updated after the fact

A map changes by numbered commits, and a **mirror** of it is brought up to date by effects that are
carried out later, one for each commit, by whoever gets to it. `Follows` says how far such a mirror
can be behind: of the effects still pending for a key the newest one carries the current value, and a
key with no effect pending is up to date.

## What keeps a mirror right

* `Follows.commit`: a commit may add its effect at any time.
* `Follows.perform`: an effect may be carried out when it is the **oldest** of those pending for its
  key. This is the only rule with a condition; an effect that overtakes an older one of the same key
  is undone when the older one is carried out.
* `Follows.settled` at no pending effects is the conclusion: the mirror is the map.

The keys a mirror is about are those of a predicate `P`; nothing is said about the others.
-/

/-- One update of a mirror: the number of its commit, the key and the value committed. -/
structure Effect (κ ν : Type*) where
  seq : ℕ
  key : κ
  val : ν

variable {κ ν : Type*}

/-- No effect pending for the key of `e` is older than `e`. -/
def Effect.Oldest (e : Effect κ ν) (pending : List (Effect κ ν)) : Prop :=
  ∀ f ∈ pending, f.key = e.key → e.seq ≤ f.seq

/-- The mirror follows the current map, with the given effects pending; `next` is the number of the
next commit. -/
structure Follows (P : κ → Prop) (next : ℕ) (current mirror : κ → ν) (pending : List (Effect κ ν)) :
    Prop where
  /-- Effects are of commits made. -/
  seq_lt : ∀ e ∈ pending, e.seq < next
  /-- The newest effect pending for a key carries its current value. -/
  newest : ∀ e ∈ pending, P e.key → (∀ f ∈ pending, f.key = e.key → f.seq ≤ e.seq) →
    e.val = current e.key
  /-- A key with nothing pending is up to date. -/
  settled : ∀ k, P k → (∀ e ∈ pending, e.key ≠ k) → mirror k = current k

namespace Follows

variable {P : κ → Prop} {next : ℕ} {current current' mirror mirror' : κ → ν}
  {pending pending' : List (Effect κ ν)}

/-- The order in which pending effects are listed says nothing. -/
theorem perm (h : Follows P next current mirror pending) (hp : pending.Perm pending') :
    Follows P next current mirror pending' where
  seq_lt e he := h.seq_lt e (hp.mem_iff.mpr he)
  newest e he hP hmax :=
    h.newest e (hp.mem_iff.mpr he) hP fun f hf hk ↦ hmax f (hp.mem_iff.mp hf) hk
  settled k hk hnone := h.settled k hk fun e he ↦ hnone e (hp.mem_iff.mp he)

/-- Maps and mirrors that agree on the keys in question are interchangeable, and so is a later number
of the next commit. -/
theorem congr {next' : ℕ} (h : Follows P next current mirror pending) (hn : next ≤ next')
    (hc : ∀ k, P k → current' k = current k) (hm : ∀ k, P k → mirror' k = mirror k) :
    Follows P next' current' mirror' pending where
  seq_lt e he := (h.seq_lt e he).trans_le hn
  newest e he hP hmax := (h.newest e he hP hmax).trans (hc _ hP).symm
  settled k hk hnone := (hm k hk).trans ((h.settled k hk hnone).trans (hc k hk).symm)

/-- A mirror that is up to date follows, whatever is pending. -/
theorem refresh (h : Follows P next current mirror pending)
    (hm : ∀ k, P k → mirror' k = current k) : Follows P next current mirror' pending :=
  { h with settled := fun k hk _ ↦ hm k hk }

theorem of_eq (hm : ∀ k, P k → mirror k = current k) : Follows P next current mirror [] where
  seq_lt _ he := absurd he List.not_mem_nil
  newest _ he := absurd he List.not_mem_nil
  settled k hk _ := hm k hk

/-- With nothing pending the mirror is the map. -/
theorem eq_of_nil (h : Follows P next current mirror []) {k : κ} (hk : P k) : mirror k = current k :=
  h.settled k hk fun _ he ↦ absurd he List.not_mem_nil

/-- A commit adds its effect. -/
theorem commit {k : κ} {v : ν} (h : Follows P next current mirror pending)
    (hself : P k → current' k = v) (hother : ∀ k', P k' → k' ≠ k → current' k' = current k') :
    Follows P (next + 1) current' mirror (pending ++ [⟨next, k, v⟩]) where
  seq_lt e he := by
    rcases List.mem_append.mp he with he | he
    · exact (h.seq_lt e he).trans (Nat.lt_succ_self next)
    · rw [List.mem_singleton.mp he]
      exact Nat.lt_succ_self next
  newest e he hP hmax := by
    rcases List.mem_append.mp he with he | he
    · -- an older effect of the committed key is no longer the newest
      have hne : e.key ≠ k := by
        intro hk
        have hle : next ≤ e.seq := hmax ⟨next, k, v⟩ (by simp) hk.symm
        exact absurd (h.seq_lt e he) (Nat.not_lt.mpr hle)
      rw [hother e.key hP hne]
      exact h.newest e he hP fun f hf hk ↦ hmax f (List.mem_append_left _ hf) hk
    · obtain rfl := List.mem_singleton.mp he
      exact (hself hP).symm
  settled k' hk' hnone := by
    have hne : k' ≠ k := fun hk ↦ hnone ⟨next, k, v⟩ (by simp) hk.symm
    rw [hother k' hk' hne]
    exact h.settled k' hk' fun e he ↦ hnone e (List.mem_append_left _ he)

/-- **The oldest effect of a key may be carried out.** -/
theorem perform {e : Effect κ ν} (h : Follows P next current mirror pending)
    (hp : pending.Perm (e :: pending')) (hold : P e.key → e.Oldest pending)
    (hself : P e.key → mirror' e.key = e.val) (hother : ∀ k, P k → k ≠ e.key → mirror' k = mirror k) :
    Follows P next current mirror' pending' where
  seq_lt f hf := h.seq_lt f (hp.mem_iff.mpr (List.mem_cons_of_mem e hf))
  newest f hf hP hmax := by
    refine h.newest f (hp.mem_iff.mpr (List.mem_cons_of_mem e hf)) hP fun g hg hk ↦ ?_
    rcases List.mem_cons.mp (hp.mem_iff.mp hg) with rfl | hg'
    · exact hold (hk ▸ hP) f (hp.mem_iff.mpr (List.mem_cons_of_mem _ hf)) hk.symm
    · exact hmax g hg' hk
  settled k hk hnone := by
    by_cases hke : k = e.key
    · -- nothing else is pending for the key, so `e` is also its newest effect
      subst hke
      rw [hself hk]
      refine h.newest e (hp.mem_iff.mpr List.mem_cons_self) hk fun f hf hkf ↦ ?_
      rcases List.mem_cons.mp (hp.mem_iff.mp hf) with rfl | hf'
      · exact le_rfl
      · exact absurd hkf (hnone f hf')
    · rw [hother k hk hke]
      refine h.settled k hk fun f hf ↦ ?_
      rcases List.mem_cons.mp (hp.mem_iff.mp hf) with rfl | hf'
      · exact fun heq ↦ hke heq.symm
      · exact hnone f hf'

end Follows
