import Mathlib.Data.List.Dedup
import Mathlib.Data.List.Perm.Subperm
import Mathlib.Data.Nat.Notation

/-!
# The recent end of a log

Work items begin one after another, each under a key, and some of them leave an entry in a log before the
next one begins. Only the last `limit` entries are kept. An entry whose key has been followed by fewer than
`limit` other keys since it first began is among them (`Recent.mem_kept`), however often keys begin again:
what counts is how many different keys lie in between.
-/

namespace RecentLog

open List

variable {α κ : Type*} [DecidableEq κ]

/-- The other keys that began since a key first did. -/
def others (begun : List κ) (k : κ) : List κ := ((begun.dropWhile (· ≠ k)).filter (· ≠ k)).dedup

/-- The kept entries are the last ones of the log, which has one entry per key, in the order in which the keys
began. -/
structure Recent (key : α → κ) (limit : ℕ) (begun : List κ) (log kept : List α) : Prop where
  suffix : ∃ gone, log = gone ++ kept ∧ (gone ≠ [] → kept.length = limit)
  bounded : kept.length ≤ limit
  nodup : (log.map key).Nodup
  known : ∀ a ∈ log, key a ∈ begun
  order : log.Pairwise fun a b ↦ key b ∈ begun.dropWhile (· ≠ key a)

variable {key : α → κ} {limit : ℕ} {begun : List κ} {log kept : List α} {k : κ} {a : α}

omit [DecidableEq κ] in
theorem mem_dropWhile_append {p : κ → Bool} {l m : List κ} (h : k ∈ l.dropWhile p) :
    k ∈ (l ++ m).dropWhile p := by
  rw [dropWhile_append]
  split
  · rename_i hempty
    rw [isEmpty_iff.mp hempty] at h
    cases h
  · exact mem_append_left m h

/-- What comes after a member of a list is not dropped before it. -/
theorem mem_dropWhile_of_mem {l : List κ} {x : κ} (h : x ∈ l) : k ∈ (l ++ [k]).dropWhile (· ≠ x) := by
  induction l with
  | nil => cases h
  | cons y l ih =>
    rw [cons_append]
    by_cases hy : y = x
    · rw [dropWhile_cons_of_neg (by simpa using hy)]
      simp
    · rw [dropWhile_cons_of_pos (by simpa using hy)]
      exact ih ((mem_cons.mp h).resolve_left (Ne.symm hy))

theorem Recent.empty : Recent key limit [] [] [] where
  suffix := ⟨[], rfl, fun h ↦ absurd rfl h⟩
  bounded := Nat.zero_le _
  nodup := nodup_nil
  known := by simp
  order := List.Pairwise.nil

/-- Another key begins. -/
theorem Recent.next (h : Recent key limit begun log kept) (k : κ) :
    Recent key limit (begun ++ [k]) log kept :=
  { h with
    known := fun a ha ↦ mem_append_left _ (h.known a ha)
    order := h.order.imp mem_dropWhile_append }

/-- The key that began last leaves its entry, and the oldest entry goes if there are too many. -/
theorem Recent.append (h : Recent key limit begun log kept) (hlast : ∃ pre, begun = pre ++ [key a])
    (hnew : ∀ b ∈ log, key b ≠ key a) (hpos : 0 < limit) :
    Recent key limit begun (log ++ [a]) (kept.drop (kept.length + 1 - limit) ++ [a]) where
  suffix := by
    obtain ⟨gone, rfl, hfull⟩ := h.suffix
    refine ⟨gone ++ kept.take (kept.length + 1 - limit), ?_, fun hne ↦ ?_⟩
    · rw [append_assoc gone (List.take _ _), ← append_assoc (List.take _ _), take_append_drop, append_assoc]
    · -- something is gone only if there were as many as are kept
      have hlen : kept.length = limit := by
        by_cases hgone : gone = []
        · have htake : kept.take (kept.length + 1 - limit) ≠ [] := by simpa [hgone] using hne
          have hpos : 0 < kept.length + 1 - limit := by
            refine Nat.pos_of_ne_zero fun hzero ↦ htake ?_
            rw [hzero, take_zero]
          have hbound := h.bounded
          omega
        · exact hfull hgone
      simp only [length_append, length_drop, length_singleton]
      omega
  bounded := by
    have hbound := h.bounded
    simp only [length_append, length_drop, length_singleton]
    omega
  nodup := by
    rw [map_append, map_singleton, nodup_append]
    refine ⟨h.nodup, nodup_singleton _, fun x hx y hy ↦ ?_⟩
    obtain ⟨b, hb, rfl⟩ := mem_map.mp hx
    rw [mem_singleton.mp hy]
    exact hnew b hb
  known := fun b hb ↦ by
    rcases mem_append.mp hb with hb | hb
    · exact h.known b hb
    · obtain ⟨pre, rfl⟩ := hlast
      rw [mem_singleton.mp hb]
      simp
  order := by
    rw [pairwise_append]
    refine ⟨h.order, pairwise_singleton _ _, fun x hx y hy ↦ ?_⟩
    obtain ⟨pre, rfl⟩ := hlast
    rw [mem_singleton.mp hy]
    have hmem : key x ∈ pre := by
      have hin := h.known x hx
      rw [mem_append, mem_singleton] at hin
      exact hin.resolve_right (hnew x hx)
    exact mem_dropWhile_of_mem hmem

/-- **An entry with few other keys after it is kept.** -/
theorem Recent.mem_kept (h : Recent key limit begun log kept) (ha : a ∈ log)
    (hfew : (others begun (key a)).length < limit) : a ∈ kept := by
  obtain ⟨gone, rfl, hfull⟩ := h.suffix
  rcases mem_append.mp ha with hgone | hkept
  · -- all kept entries came after it, each under a key of its own
    have hlen := hfull (ne_nil_of_mem hgone)
    have hnodup := h.nodup
    rw [map_append, nodup_append] at hnodup
    have hsub : kept.map key ⊆ others begun (key a) := by
      intro k hk
      obtain ⟨b, hb, rfl⟩ := mem_map.mp hk
      have horder := (pairwise_append.mp h.order).2.2 a hgone b hb
      have hne : key b ≠ key a := fun heq ↦
        hnodup.2.2 _ (mem_map_of_mem hgone) _ (mem_map_of_mem hb) heq.symm
      simpa [others, hne] using horder
    have hle := (hnodup.2.1.subperm hsub).length_le
    rw [length_map] at hle
    omega
  · exact hkept

end RecentLog
