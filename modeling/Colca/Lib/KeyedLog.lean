import Colca.Lib.OffsetLog
import Mathlib.Logic.Function.Basic

/-!
# Logs whose value is the last entry of each key

A log of keyed entries some of which are **dead**: they retract what was written for their key. Its
value is the last entry of each key, so an entry with a later one for its key may go at any time, and a
dead entry may go once nobody needs to learn of it. Compaction works on records it read earlier, up to
some offset; what was appended since can only supersede more.

`last` is the last entry written for each key, whether it is still there or not. Compaction keeps
`KeyedLog.Inv`: the last entry of a key is there unless it is dead, and when it is not there nothing
for its key is.
-/

/-- A log of keyed entries, with the last entry written for each key. -/
structure KeyedLog (α κ : Type*) where
  log : OffsetLog α := .empty
  last : κ → Option (ℕ × α) := fun _ ↦ none

namespace KeyedLog

open List Function

variable {α κ : Type*} [DecidableEq κ] (key : α → κ) (dead : α → Bool)

/-- Append an entry. -/
def write (l : KeyedLog α κ) (a : α) : KeyedLog α κ where
  log := l.log.append a
  last := update l.last (key a) (some (l.log.next, a))

/-- The latest offset of a key among records. -/
def latest (records : List (ℕ × α)) (k : κ) : ℕ :=
  ((records.filter fun x ↦ key x.2 = k).getLast?.map Prod.fst).getD 0

/-- Compaction drops a record: it is superseded among the records, or dead and below the floor. -/
def drops (records : List (ℕ × α)) (floor : ℕ) (x : ℕ × α) : Bool :=
  decide (x.1 < latest key records (key x.2)) || (dead x.2 && decide (x.1 < floor))

/-- Drop what may go of the records. -/
def compact (l : KeyedLog α κ) (records : List (ℕ × α)) (floor : ℕ) : KeyedLog α κ :=
  { l with
    log := l.log.remove fun o ↦ ((records.filter (drops key dead records floor)).map Prod.fst).contains o }

/-- The last entry of a key is there unless it is dead, and when it is not there nothing for its key
is. -/
structure Inv (l : KeyedLog α κ) : Prop where
  le_last : ∀ x ∈ l.log.entries, ∃ y, l.last (key x.2) = some y ∧ x.1 ≤ y.1
  last_key : ∀ k y, l.last k = some y → key y.2 = k ∧ y.1 < l.log.next
  last_mem : ∀ k y, l.last k = some y → dead y.2 = false → y ∈ l.log.entries
  last_gone : ∀ k y, l.last k = some y → y ∉ l.log.entries → ∀ x ∈ l.log.entries, key x.2 ≠ k

variable {key dead} {l : KeyedLog α κ} {records : List (ℕ × α)} {floor bound : ℕ} {k : κ}
  {x y : ℕ × α}

omit [DecidableEq κ] in
theorem inv_empty : Inv key dead ({} : KeyedLog α κ) where
  le_last _ hx := by cases hx
  last_key _ _ h := by cases h
  last_mem _ _ h := by cases h
  last_gone _ _ h := by cases h

omit [DecidableEq κ] in
/-- An entry at the offset of the last one of its key is that one. -/
theorem Inv.eq_last (h : Inv key dead l) (hx : x ∈ l.log.entries) (hy : l.last (key x.2) = some y)
    (heq : x.1 = y.1) : x = y := by
  by_cases hmem : y ∈ l.log.entries
  · exact OffsetLog.eq_of_offset_eq l.log.increasing hx hmem heq
  · exact absurd rfl (h.last_gone _ _ hy hmem x hx)

theorem write_last_of_ne (a : α) (hne : k ≠ key a) : (l.write key a).last k = l.last k :=
  update_of_ne hne _ _

/-- After a write, what is known of a key is about the new entry, or as before. -/
theorem last_write {a : α} (hy : (l.write key a).last k = some y) :
    (k = key a ∧ y = (l.log.next, a)) ∨ (k ≠ key a ∧ l.last k = some y) := by
  rcases eq_or_ne k (key a) with rfl | hne
  · have hself : (l.write key a).last (key a) = some (l.log.next, a) := update_self _ _ _
    exact .inl ⟨rfl, Option.some.inj (hy.symm.trans hself)⟩
  · exact .inr ⟨hne, (write_last_of_ne a hne).symm.trans hy⟩

theorem Inv.write (h : Inv key dead l) (a : α) : Inv key dead (l.write key a) := by
  have hnew : (l.log.next, a) ∈ (l.write key a).log.entries :=
    mem_append_right _ (mem_singleton_self _)
  refine ⟨fun x hx ↦ ?_, fun k y hy ↦ ?_, fun k y hy hd ↦ ?_, fun k y hy hgone x hx ↦ ?_⟩
  · change ∃ y, update l.last (key a) _ (key x.2) = some y ∧ x.1 ≤ y.1
    rcases eq_or_ne (key x.2) (key a) with heq | hne
    · rw [heq, update_self]
      refine ⟨_, rfl, ?_⟩
      have := ((l.log.append a).bounds x hx).2
      exact Nat.le_of_lt_succ this
    · rw [update_of_ne hne]
      rcases mem_append.mp hx with hx | hx
      · exact h.le_last x hx
      · exact absurd (congrArg (key ·.2) (mem_singleton.mp hx)) hne
  · rcases last_write hy with ⟨rfl, rfl⟩ | ⟨-, hy⟩
    · exact ⟨rfl, Nat.lt_succ_self _⟩
    · exact ⟨(h.last_key k y hy).1, Nat.lt_succ_of_lt (h.last_key k y hy).2⟩
  · rcases last_write hy with ⟨rfl, rfl⟩ | ⟨-, hy⟩
    · exact hnew
    · exact mem_append_left _ (h.last_mem k y hy hd)
  · rcases last_write hy with ⟨rfl, rfl⟩ | ⟨hne, hy⟩
    · exact absurd hnew hgone
    · rcases mem_append.mp hx with hx | hx
      · exact h.last_gone k y hy (fun hm ↦ hgone (mem_append_left _ hm)) x hx
      · rw [mem_singleton.mp hx]
        exact hne.symm

/-! ### Compaction -/

theorem le_latest (hinc : records.Pairwise (·.1 < ·.1)) (hx : x ∈ records) :
    x.1 ≤ latest key records (key x.2) := by
  have hmem : x ∈ records.filter fun y ↦ key y.2 = key x.2 := mem_filter.mpr ⟨hx, by simp⟩
  unfold latest
  cases hlast : (records.filter fun y ↦ key y.2 = key x.2).getLast? with
  | none => simp [getLast?_eq_none_iff.mp hlast] at hmem
  | some z =>
    obtain ⟨pre, hpre⟩ := getLast?_eq_some_iff.mp hlast
    have hinc' := hinc.filter fun y ↦ decide (key y.2 = key x.2)
    rw [hpre] at hmem hinc'
    show x.1 ≤ z.1
    rcases mem_append.mp hmem with hmem | hmem
    · exact ((pairwise_append.mp hinc').2.2 x hmem z (by simp)).le
    · rw [mem_singleton.mp hmem]

/-- The latest offset of a key is that of a record. -/
theorem exists_latest (hpos : 0 < latest key records k) :
    ∃ z ∈ records, key z.2 = k ∧ z.1 = latest key records k := by
  unfold latest at hpos ⊢
  cases hlast : (records.filter fun y ↦ key y.2 = k).getLast? with
  | none =>
    rw [hlast] at hpos
    exact absurd hpos (Nat.lt_irrefl 0)
  | some z =>
    obtain ⟨hz, hk⟩ := mem_filter.mp (mem_of_getLast? hlast)
    exact ⟨z, hz, of_decide_eq_true hk, rfl⟩

theorem mem_compact (hrec : ∀ x ∈ records, x ∈ l.log.entries) :
    x ∈ (l.compact key dead records floor).log.entries ↔
      x ∈ l.log.entries ∧ ¬ (x ∈ records ∧ drops key dead records floor x) := by
  simp only [compact, OffsetLog.remove, mem_filter, Bool.not_eq_true', contains_eq_mem,
    decide_eq_false_iff_not, mem_map]
  refine and_congr_right fun hx ↦ not_congr ⟨?_, fun ⟨h1, h2⟩ ↦ ⟨x, ⟨h1, h2⟩, rfl⟩⟩
  rintro ⟨z, ⟨hz, hd⟩, heq⟩
  have hzx := OffsetLog.eq_of_offset_eq l.log.increasing (hrec z hz) hx heq
  exact ⟨hzx ▸ hz, hzx ▸ hd⟩

section Compact

variable (hi : Inv key dead l) (hinc : records.Pairwise (·.1 < ·.1))
  (hrec : ∀ x, x ∈ records ↔ x ∈ l.log.entries ∧ x.1 < bound)

include hi hrec

/-- Nothing supersedes the last entry of a key. -/
theorem not_lt_latest (hy : l.last k = some y) : ¬ y.1 < latest key records k := by
  intro hlt
  obtain ⟨z, hz, hk, heq⟩ := exists_latest (Nat.zero_lt_of_lt hlt)
  obtain ⟨y', hy', hle⟩ := hi.le_last z ((hrec z).mp hz).1
  rw [hk, hy, Option.some.injEq] at hy'
  subst hy'
  omega

/-- **The last entry of a key is dropped only dead, and below the floor.** -/
theorem dead_of_dropped (hy : l.last k = some y) (hmem : y ∈ l.log.entries)
    (hgone : y ∉ (l.compact key dead records floor).log.entries) :
    y ∈ records ∧ dead y.2 = true ∧ y.1 < floor := by
  rw [mem_compact fun x hx ↦ ((hrec x).mp hx).1] at hgone
  obtain ⟨hin, hdrop⟩ : y ∈ records ∧ drops key dead records floor y := by
    by_contra h
    exact hgone ⟨hmem, h⟩
  have hkey := (hi.last_key k y hy).1
  simp only [drops, hkey, Bool.or_eq_true, decide_eq_true_eq, Bool.and_eq_true] at hdrop
  exact ⟨hin, hdrop.resolve_left (not_lt_latest hi hrec hy)⟩

include hinc

/-- Compaction keeps the value of the log. -/
theorem Inv.compact : Inv key dead (l.compact key dead records floor) := by
  have hsub : ∀ x ∈ records, x ∈ l.log.entries := fun x hx ↦ ((hrec x).mp hx).1
  have hold : ∀ x ∈ (l.compact key dead records floor).log.entries, x ∈ l.log.entries := fun x hx ↦
    ((mem_compact hsub).mp hx).1
  refine ⟨fun x hx ↦ hi.le_last x (hold x hx), hi.last_key, fun k y hy hd ↦ ?_,
    fun k y (hy : l.last k = some y) hgone x hx hk ↦ ?_⟩
  · by_contra hgone
    have := (dead_of_dropped hi hrec hy (hi.last_mem k y hy hd) hgone).2.1
    rw [hd] at this
    cases this
  · by_cases hmem : y ∈ l.log.entries
    · -- an earlier entry of the key was among the records too, and is superseded
      obtain ⟨hin, -, -⟩ := dead_of_dropped hi hrec hy hmem hgone
      obtain ⟨y', hy', hle⟩ := hi.le_last x (hold x hx)
      rw [hk, hy, Option.some.injEq] at hy'
      subst hy'
      have hxin : x ∈ records := (hrec x).mpr ⟨hold x hx, hle.trans_lt ((hrec y).mp hin).2⟩
      have hlt : x.1 < y.1 := lt_of_le_of_ne hle fun heq ↦
        hgone (hi.eq_last (hold x hx) (hk ▸ hy) heq ▸ hx)
      have hlate : y.1 ≤ latest key records (key y.2) := le_latest hinc hin
      rw [(hi.last_key k y hy).1] at hlate
      refine ((mem_compact hsub).mp hx).2 ⟨hxin, ?_⟩
      have hsup : x.1 < latest key records (key x.2) := by
        rw [hk]
        omega
      simp [drops, hsup]
    · exact hi.last_gone k y hy hmem x (hold x hx) hk

end Compact

end KeyedLog
