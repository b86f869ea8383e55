import Colca.Lib.KeyedLog
import Colca.Store.Record

/-!
# Compaction

The definitions stream counts by the latest record of each topic. `Compact` reads the heads of its
records without the store's lock (`scan`), and then, under the lock, drops what the stream no longer
needs of them (`commit`): a superseded record at once, a retraction once every cursor on the stream has
passed it. A removal of records since the scan makes it stop.
-/

namespace Colca

open Uns

/-- The record retracts its topic. -/
def isRetraction (e : RecEnc) : Bool := e.payload.isEmpty

/-- A stream whose value is the latest record of each topic. -/
structure LatestStream where
  keyed : KeyedLog RecEnc Topic := {}
  /-- How often records were removed other than at the old end. -/
  holes : ℕ := 0

/-- What a compaction read. -/
structure CompactScan where
  records : List (ℕ × RecEnc)
  next : ℕ
  lwm : ℕ
  holes : ℕ

/-- The lowest position of any cursor on a stream, or its head when there is none. -/
def cursorFloor (cursors : List ℕ) (next : ℕ) : ℕ := cursors.foldr min next

theorem cursorFloor_le {cursors : List ℕ} {next c : ℕ} (h : c ∈ next :: cursors) :
    cursorFloor cursors next ≤ c := by
  induction cursors with
  | nil => exact (List.mem_singleton.mp h).ge
  | cons d cursors ih =>
    rcases List.mem_cons.mp h with rfl | h
    · exact (min_le_right _ _).trans (ih List.mem_cons_self)
    · rcases List.mem_cons.mp h with rfl | h
      · exact min_le_left _ _
      · exact (min_le_right _ _).trans (ih (List.mem_cons_of_mem _ h))

namespace LatestStream

variable (s : LatestStream)

abbrev log : OffsetLog RecEnc := s.keyed.log

/-- The current value of a topic: payload and time of its latest record, none for a retraction. -/
def current (t : Topic) : Option (Payload × ℤ) :=
  (s.keyed.last t).bind fun x ↦ if isRetraction x.2 then none else some (x.2.payload, x.2.ts)

/-- Append a record. -/
def write (e : RecEnc) : LatestStream := { s with keyed := s.keyed.write RecEnc.topic e }

/-- The part of `Compact` without the lock. -/
def scan : CompactScan := ⟨s.log.entries, s.log.next, s.log.lwm, s.holes⟩

/-- The part of `Compact` under the lock. -/
def commit (c : CompactScan) (floor : ℕ) : LatestStream :=
  if s.log.lwm ≠ c.lwm ∨ s.holes ≠ c.holes then s
  else if c.records.any (KeyedLog.drops RecEnc.topic isRetraction c.records floor) then
    { keyed := s.keyed.compact RecEnc.topic isRetraction c.records floor, holes := s.holes + 1 }
  else s

/-- The stream still has its value. -/
abbrev Inv : Prop := s.keyed.Inv RecEnc.topic isRetraction

/-- What a scan read is the stream's below some offset, unless records were removed since. -/
structure ScanValid (c : CompactScan) : Prop where
  increasing : c.records.Pairwise (·.1 < ·.1)
  holes_le : c.holes ≤ s.holes
  next_le : c.next ≤ s.log.next
  mem_iff : s.holes = c.holes → ∀ x, x ∈ c.records ↔ x ∈ s.log.entries ∧ x.1 < c.next

variable {s} {c c' : CompactScan} {floor : ℕ} {t : Topic}

theorem current_of_last {y : ℕ × RecEnc} (h : s.keyed.last t = some y) :
    s.current t = if isRetraction y.2 then none else some (y.2.payload, y.2.ts) := by
  rw [current, h]
  rfl

/-- The value of a topic whose last record is gone: none. -/
theorem current_of_gone {y : ℕ × RecEnc} (hi : s.Inv) (h : s.keyed.last t = some y)
    (hgone : y ∉ s.log.entries) : s.current t = none := by
  rw [current_of_last h]
  refine if_pos ?_
  by_contra hlive
  exact hgone (hi.last_mem t y h (by simpa using hlive))

theorem current_write_of_ne {e : RecEnc} (h : t ≠ e.topic) : (s.write e).current t = s.current t := by
  show ((s.write e).keyed.last t).bind _ = _
  rw [write, KeyedLog.write_last_of_ne e h]
  rfl

theorem scan_valid (s : LatestStream) : s.ScanValid s.scan where
  increasing := s.log.increasing
  holes_le := le_rfl
  next_le := le_rfl
  mem_iff _ x := ⟨fun hx ↦ ⟨hx, (s.log.bounds x hx).2⟩, And.left⟩

theorem ScanValid.write (h : s.ScanValid c) (e : RecEnc) : (s.write e).ScanValid c :=
  { h with
    next_le := Nat.le_succ_of_le h.next_le
    mem_iff heq x := by
      rw [h.mem_iff heq]
      refine and_congr_left fun hlt ↦ ⟨fun hx ↦ List.mem_append_left _ hx, fun hx ↦ ?_⟩
      rcases List.mem_append.mp hx with hx | hx
      · exact hx
      · have hle := h.next_le
        rw [List.mem_singleton.mp hx] at hlt
        exact absurd hlt hle.not_gt }

/-- **What a compaction does**, whether it stops or not: nothing is added, and the last record of a
topic goes only when no records were removed since the scan, as a retraction below the floor that the
scan read. -/
structure Compacted (s s' : LatestStream) (c : CompactScan) (floor : ℕ) : Prop where
  inv : s'.Inv
  last : s'.keyed.last = s.keyed.last
  next : s'.log.next = s.log.next
  holes_le : s.holes ≤ s'.holes
  mem : ∀ x ∈ s'.log.entries, x ∈ s.log.entries
  same : s'.holes = s.holes → s' = s
  dropped : ∀ t y, s.keyed.last t = some y → y ∈ s.log.entries → y ∉ s'.log.entries →
    s.holes = c.holes ∧ y ∈ c.records ∧ isRetraction y.2 = true ∧ y.1 < floor

theorem commit_compacted (hi : s.Inv) (hc : s.ScanValid c) : Compacted s (s.commit c floor) c floor := by
  have hstop : Compacted s s c floor :=
    ⟨hi, rfl, rfl, le_rfl, fun _ h ↦ h, fun _ ↦ rfl, fun _ _ _ hm hg ↦ absurd hm hg⟩
  unfold commit
  split
  · exact hstop
  · rename_i hsame
    push Not at hsame
    have hrec := hc.mem_iff hsame.2
    split
    · refine ⟨KeyedLog.Inv.compact hi hc.increasing hrec, rfl, rfl, Nat.le_succ _, fun x hx ↦ ?_,
        fun h ↦ absurd h (Nat.succ_ne_self _), fun t y hy hm hg ↦ ?_⟩
      · exact ((KeyedLog.mem_compact fun x hx ↦ ((hrec x).mp hx).1).mp hx).1
      · exact ⟨hsame.2, KeyedLog.dead_of_dropped hi hrec hy hm hg⟩
    · exact hstop

/-- Another scan stays valid, or is stopped by the removal. -/
theorem ScanValid.compacted {s' : LatestStream} (h : s.ScanValid c') (hc : Compacted s s' c floor) :
    s'.ScanValid c' where
  increasing := h.increasing
  holes_le := h.holes_le.trans hc.holes_le
  next_le := hc.next ▸ h.next_le
  mem_iff heq := by
    have hle := hc.holes_le
    have := h.holes_le
    have hs := hc.same (by omega)
    rw [hs]
    exact h.mem_iff (by omega)

end LatestStream

end Colca
