import Colca.Lib.StateMachine
import Colca.Uns.Elements

/-!
# The element index and a rebuild

The index is fed the records of every batch one by one. It answers as one loaded from the current state
(`index_rebuilt`) as long as every element stands where it was last written and nothing else was written at its path
since. A batch that writes an element at a second topic and takes it away from there again loses it, although it
still stands where it was (`taken_back_forgets`).
-/

namespace Colca.Elements

open Uns List

/-- The node and the path of an element's topic. -/
abbrev Topic := String × Path

/-- An element record with the id in its payload, empty if that has none; `none` is a tombstone. -/
abbrev Record := Topic × Option String

/-- `ElementIndex.apply` at the path of a record. -/
def observe (x : ElementIndex) (r : Record) : ElementIndex := x.apply r.1.2 (r.2.getD "")

/-- The index after the records of a log, the last one first. -/
def index (log : List Record) : ElementIndex := log.foldr (fun r x ↦ observe x r) {}

/-- `ElementIndex.load`, from what a scan of the current state gives. -/
def load (scan : List Record) : ElementIndex := scan.foldl observe {}

/-- The current state: the last record of a topic, unless it is a tombstone. -/
def current (log : List Record) : List Record :=
  log.filter fun r ↦ r.2.isSome ∧ log.find? (·.1 = r.1) = some r

/-- The records of elements. -/
def placed (log : List Record) : List Record := (current log).filter (·.2 ≠ some "")

/-- No element id stands at two topics. -/
def Apart (log : List Record) : Prop := ∀ r ∈ placed log, ∀ r' ∈ placed log, r'.2 = r.2 → r' = r

instance (log : List Record) : Decidable (Apart log) := inferInstanceAs (Decidable (∀ r ∈ placed log, _))

/-- Batches that leave no id at two topics. -/
def system : StateMachine (List Record) (List Record) where
  start := []
  step log batch := if Apart (batch.reverse ++ log) then some (batch.reverse ++ log) else none

/-- **The index answers as a rebuild**, in whatever order the scan gives the records. -/
def Rebuilt (log : List Record) : Prop :=
  ∀ scan : List Record, (∀ r, r ∈ scan ↔ r ∈ current log) →
    (∀ id, (index log).pathOf id = (load scan).pathOf id) ∧ (index log).byPath = (load scan).byPath

/-- Every element stands where it was last written, was written last at its path, and is alone there. -/
def Latest (log : List Record) : Prop :=
  ∀ r ∈ placed log, log.find? (·.2 = r.2) = some r ∧ log.find? (·.1.2 = r.1.2) = some r ∧
    ∀ r' ∈ current log, r'.1.2 = r.1.2 → r' = r

instance (log : List Record) : Decidable (Latest log) := inferInstanceAs (Decidable (∀ r ∈ placed log, _))

/-! ### What the index answers -/

variable {log cur : List Record} {id : String} {p : Path} {r : Record}

theorem sound_index (log : List Record) : (index log).Sound := by
  induction log with
  | nil => exact fun _ _ h ↦ by cases h
  | cons r log ih => exact ih.apply _ _

/-- A path belongs to the element written there last. -/
theorem byPath_index (log : List Record) : (index log).byPath p = some id ↔
    id ≠ "" ∧ ∃ r, log.find? (·.1.2 = p) = some r ∧ r.2 = some id := by
  induction log with
  | nil => simp [index]
  | cons r log ih =>
    show (ElementIndex.apply _ _ _).byPath p = _ ↔ _
    rw [ElementIndex.byPath_apply]
    rcases eq_or_ne r.1.2 p with rfl | hne
    · obtain ⟨t, _ | new⟩ := r
      · simp
      · by_cases hnew : new = "" <;> simp [hnew, eq_comm]
        rintro rfl
        exact hnew
    · rw [Function.update_of_ne hne.symm, find?_cons_of_neg (by simpa using hne)]
      exact ih

/-- An element is where it was written last, unless something else was written there since. -/
theorem byID_index (log : List Record) (hid : id ≠ "") : (index log).byID id = some p ↔
    ∃ r, r.1.2 = p ∧ log.find? (·.2 = some id) = some r ∧ log.find? (·.1.2 = p) = some r := by
  induction log with
  | nil => simp [index]
  | cons r log ih =>
    have hstep : (index (r :: log)).byID id = some p ↔ (r.2 = some id ∧ p = r.1.2) ∨
        (r.2 ≠ some id ∧ (index log).byID id = some p ∧ p ≠ r.1.2) := by
      refine ((sound_index log).byID_apply _).trans ?_
      obtain ⟨t, _ | new⟩ := r
      · simp
      · by_cases hnew : new = id <;> simp [hnew, hid]
    rw [hstep, ih]
    by_cases hr : r.2 = some id
    · rw [find?_cons_of_pos (by simpa using hr)]
      constructor
      · rintro (⟨-, rfl⟩ | ⟨hne, -⟩)
        · exact ⟨r, rfl, rfl, find?_cons_of_pos (by simp)⟩
        · exact absurd hr hne
      · rintro ⟨q, rfl, hq, -⟩
        exact .inl ⟨hr, by rw [Option.some.inj hq]⟩
    · rw [find?_cons_of_neg (by simpa using hr)]
      rcases eq_or_ne r.1.2 p with rfl | hne
      · simp only [hr, false_and, ne_eq, not_true_eq_false, and_false, or_false, false_iff]
        rintro ⟨q, -, hq, hat⟩
        rw [find?_cons_of_pos (by simp)] at hat
        rw [← Option.some.inj hat] at hq
        exact hr (by simpa using find?_some hq)
      · rw [find?_cons_of_neg (by simpa using hne)]
        simp [hr, hne.symm]

/-- The index of a log answers from a set of records. -/
def Answers (log cur : List Record) : Prop :=
  ∀ p, ∀ id ≠ "", ((index log).byID id = some p ↔ ∃ r ∈ cur, r.1.2 = p ∧ r.2 = some id) ∧
    ((index log).byPath p = some id ↔ ∃ r ∈ cur, r.1.2 = p ∧ r.2 = some id)

/-- It does if an element of the set is what was last written of it and at its path, and what was last written at a
path is of the set. -/
theorem answers (hlast : ∀ r ∈ cur, ∀ id ≠ "", r.2 = some id →
      log.find? (·.2 = some id) = some r ∧ log.find? (·.1.2 = r.1.2) = some r)
    (hmem : ∀ r id, log.find? (·.1.2 = r.1.2) = some r → r.2 = some id → r ∈ cur) : Answers log cur := by
  intro p id hid
  have hpath : (index log).byPath p = some id → ∃ r ∈ cur, r.1.2 = p ∧ r.2 = some id := by
    rw [byPath_index]
    rintro ⟨-, r, hat, hr⟩
    obtain rfl : r.1.2 = p := by simpa using find?_some hat
    exact ⟨r, hmem r id hat hr, rfl, hr⟩
  have hbyID : (∃ r ∈ cur, r.1.2 = p ∧ r.2 = some id) → (index log).byID id = some p := by
    rintro ⟨r, hr, rfl, hname⟩
    exact (byID_index log hid).mpr ⟨r, rfl, hlast r hr id hid hname⟩
  have hsound := sound_index log id p
  exact ⟨⟨hpath ∘ hsound, hbyID⟩, hpath, hsound ∘ hbyID⟩

theorem find?_of_unique {P : Record → Prop} [DecidablePred P] (hr : r ∈ log) (hP : P r)
    (hone : ∀ q ∈ log, P q → q = r) : log.find? (P ·) = some r := by
  cases hfind : log.find? (P ·) with
  | none => exact absurd (decide_eq_true hP) (find?_eq_none.mp hfind r hr)
  | some q =>
    have hq : P q := by simpa using find?_some hfind
    rw [hone q (mem_of_find?_eq_some hfind) hq]

/-- **In every run whose batches leave every element where it was last written** the index answers as a rebuild. -/
theorem index_rebuilt (log : List Record)
    (h : system.Reach (fun log batch ↦ Latest (batch.reverse ++ log)) log) : Rebuilt log := by
  obtain ⟨hapart, hlatest⟩ : Apart log ∧ Latest log := by
    refine h.invariant (I := fun log ↦ Apart log ∧ Latest log) ?_ fun log batch log' _ hC hs ↦ ?_
    · exact ⟨fun r hr ↦ absurd hr not_mem_nil, fun r hr ↦ absurd hr not_mem_nil⟩
    · obtain ⟨hapart, hs⟩ := Option.ite_none_right_eq_some.mp hs
      cases hs
      exact ⟨hapart, hC⟩
  intro scan hscan
  have hplaced : ∀ r ∈ current log, ∀ id ≠ "", r.2 = some id → r ∈ placed log := fun r hr id hid hname ↦
    mem_filter.mpr ⟨hr, by simpa [hname] using hid⟩
  have hload : load scan = index scan.reverse := by rw [index, foldr_reverse, load]
  -- the log and the scan both answer from the current state
  have hlog : Answers log (current log) := by
    refine answers (fun r hr id hid hname ↦ ?_) fun r id hat hname ↦ ?_
    · obtain ⟨hid', hat, -⟩ := hlatest r (hplaced r hr id hid hname)
      exact ⟨hname ▸ hid', hat⟩
    · -- the last record at a path is the last one of its topic
      obtain ⟨-, newer, older, rfl, hnewer⟩ := find?_eq_some_iff_append.mp hat
      have hnone : newer.find? (·.1 = r.1) = none := find?_eq_none.mpr fun q hq hqr ↦ by
        simpa [of_decide_eq_true hqr] using hnewer q hq
      exact mem_filter.mpr ⟨by simp, by simp [hname, hnone]⟩
  have hscanned : Answers scan.reverse (current log) := by
    have hmem : ∀ q, q ∈ scan.reverse ↔ q ∈ current log := fun q ↦ by rw [mem_reverse, hscan]
    refine answers (fun r hr id hid hname ↦ ?_) fun r _ hat _ ↦ (hmem r).mp (mem_of_find?_eq_some hat)
    have hp := hplaced r hr id hid hname
    exact ⟨find?_of_unique ((hmem r).mpr hr) hname fun q hq hname' ↦
        hapart r hp q (hplaced q ((hmem q).mp hq) id hid hname') (hname'.trans hname.symm),
      find?_of_unique ((hmem r).mpr hr) rfl fun q hq ↦ (hlatest r hp).2.2 q ((hmem q).mp hq)⟩
  rw [hload]
  refine ⟨fun id ↦ ?_, funext fun p ↦ Option.ext fun id ↦ ?_⟩
  · unfold ElementIndex.pathOf
    split
    · rfl
    · rename_i hid
      exact Option.ext fun p ↦ ((hlog p id hid).1.trans (hscanned p id hid).1.symm)
  · by_cases hid : id = ""
    · simp [byPath_index, hid]
    · exact (hlog p id hid).2.trans (hscanned p id hid).2.symm

/-- An element moves, the new record first. -/
theorem index_rebuilt_move : ∃ log, system.Reach (fun log batch ↦ Latest (batch.reverse ++ log)) log ∧
    (index log).pathOf "a" = some ["q"] ∧ Rebuilt log := by
  obtain ⟨log, hs, hp⟩ := system.exists_reach (fun log batch ↦ Latest (batch.reverse ++ log))
    [[(("n", ["p"]), some "a")], [(("n", ["q"]), some "a"), (("n", ["p"]), none)]]
    (fun log ↦ (index log).pathOf "a" = some ["q"])
  exact ⟨log, hs, hp, index_rebuilt log hs⟩

/-- **An element that is written elsewhere and taken back is forgotten.** -/
theorem taken_back_forgets : ¬ ∀ log, system.Reachable log → Rebuilt log := by
  intro hall
  obtain ⟨log, hs, hlost, hcur⟩ := system.exists_reachable
    [[(("n", ["p"]), some "a")], [(("n", ["q"]), some "a"), (("n", ["q"]), none)]]
    (fun log ↦ (index log).pathOf "a" = none ∧ current log = [(("n", ["p"]), some "a")])
  have hfound := (hall log hs _ fun r ↦ Iff.rfl).1 "a"
  rw [hlost, hcur] at hfound
  exact absurd hfound (by decide)

end Colca.Elements
