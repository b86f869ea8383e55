import Colca.Store.Indexes

/-!
# The prune journal

Every prune of a prefix leaves an entry in the stream's journal: the offsets it took and the time span of
the records among them. A full journal makes room by merging its two oldest entries. `Gap` tells a
consumer what it missed from the journal: the offsets up to the low-water mark, the first timestamp of the
entry its position lies in and the last one of the newest entry.

The entries follow one another from offset 1 to the low-water mark (`Covers`), and each one's span holds
the timestamps of its records, merged or not. What `Gap` reports of times looks at two entries only: it
holds the timestamps of all that was removed as long as what is pruned later is not older
(`SpansInOrder`).

`removed` keeps the records that prunes took, with their timestamps. The code keeps nothing of them.
-/

namespace Colca.PruneJournal

open Uns List Function StoreRun

/-- `PruneSpan`: an entry of the journal, for the offsets from `fromOff` to `toOff`, both included. -/
structure PruneSpan where
  fromOff : ℕ
  toOff : ℕ
  firstTS : ℤ
  lastTS : ℤ
  coalesced : Bool := false
  deriving DecidableEq, Repr

/-- The time span of the records a prune takes, as it is added up. -/
structure PruneStats where
  pruned : ℕ := 0
  firstTS : ℤ := 0
  lastTS : ℤ := 0

/-- Account for one record. -/
def PruneStats.add (st : PruneStats) (x : ℕ × RecEnc) : PruneStats where
  pruned := st.pruned + 1
  firstTS := if st.pruned = 0 ∨ x.2.ts < st.firstTS then x.2.ts else st.firstTS
  lastTS := if st.pruned = 0 ∨ st.lastTS < x.2.ts then x.2.ts else st.lastTS

/-- The time span of records. It is from 0 to 0 when there are none. -/
def statsOf (recs : List (ℕ × RecEnc)) : PruneStats := recs.foldl PruneStats.add {}

/-- How many entries a journal holds. -/
def journalCap : ℕ := 64

/-- One entry for the offsets of two. -/
def PruneSpan.merge (a b : PruneSpan) : PruneSpan where
  fromOff := a.fromOff
  toOff := b.toOff
  firstTS := min a.firstTS b.firstTS
  lastTS := max a.lastTS b.lastTS
  coalesced := true

/-- Merge the two oldest entries while there are more than `cap`. -/
def coalesce (cap : ℕ) : PruneSpan → List PruneSpan → List PruneSpan
  | e, [] => [e]
  | e, e' :: es => if cap < es.length + 2 then coalesce cap (e.merge e') es else e :: e' :: es

/-- The entries, with the oldest merged while there are more than `cap`. -/
def coalesceAll (cap : ℕ) : List PruneSpan → List PruneSpan
  | [] => []
  | e :: es => coalesce cap e es

/-- `writeJournal`. -/
def writeJournal (entries : List PruneSpan) (span : PruneSpan) : List PruneSpan :=
  coalesceAll journalCap (entries ++ [span])

/-- `GapSpan`. -/
structure GapSpan where
  fromOffset : ℕ
  toOffset : ℕ
  firstTS : ℤ := 0
  lastTS : ℤ := 0
  approx : Bool := false
  deriving DecidableEq, Repr

/-- Look at one entry of the journal. -/
def GapSpan.look (g : GapSpan) (sp : PruneSpan) : GapSpan :=
  let g := if sp.fromOff ≤ g.fromOffset ∧ g.fromOffset ≤ sp.toOff then
    { g with firstTS := sp.firstTS, approx := sp.coalesced } else g
  if sp.fromOff ≤ g.toOffset ∧ g.toOffset ≤ sp.toOff then { g with lastTS := sp.lastTS } else g

/-- `Gap`: what a consumer at a position has missed. Position 0 counts as 1. -/
def gap (lwm : ℕ) (journal : List PruneSpan) (position : ℕ) : Option GapSpan :=
  if lwm = 0 ∨ lwm ≤ max position 1 then none
  else some (journal.foldl GapSpan.look { fromOffset := max position 1, toOffset := lwm - 1 })

/-! ### A store and the journal of one of its streams -/

structure State where
  run : StoreRun.State
  journal : List PruneSpan := []
  removed : List (ℕ × ℤ) := []

variable (env : WriteEnv) (st : Stream)

/-- The prune of the stream that an event commits: where it starts and ends, and the records it
accounts for. -/
def pruneOf (s : StoreRun.State) : StoreRun.Event → Option (ℕ × ℕ × List (ℕ × RecEnc))
  | .commitPrune i floor _ =>
    match s.scans i with
    | some (.prune st' lwm holes (some (upTo, recs))) =>
      if st' = st ∧ (pruneScanned env s st lwm holes upTo floor recs).isSome then
        -- what was read is not what goes: scan again
        some (lwm, min upTo floor, if min upTo floor ≠ upTo ∨ s.holes st ≠ holes then
            recordsIn s.store.disk st lwm (min upTo floor)
          else recs)
      else none
    | _ => none
  | _ => none

/-- The entry of a prune. -/
def spanOf (lwm upTo : ℕ) (recs : List (ℕ × RecEnc)) : PruneSpan where
  fromOff := lwm
  toOff := upTo - 1
  firstTS := (statsOf recs).firstTS
  lastTS := (statsOf recs).lastTS

/-- A prune is committed. -/
def State.pruned (s : State) (run : StoreRun.State) (lwm upTo : ℕ) (recs : List (ℕ × RecEnc)) :
    State where
  run := run
  journal := writeJournal s.journal (spanOf lwm upTo recs)
  removed := s.removed ++ (recordsIn s.run.store.disk st lwm upTo).map fun x ↦ (x.1, x.2.ts)

def step (s : State) (e : StoreRun.Event) : Option State :=
  (StoreRun.step env s.run e).map fun run ↦
    match pruneOf env st s.run e with
    | some (lwm, upTo, recs) => s.pruned st run lwm upTo recs
    | none => { s with run := run }

/-- A store as found, of which a stream was never pruned. -/
def system (f : Found) : StateMachine State StoreRun.Event where
  start := { run := StoreRun.start f }
  step := step env st

/-! ### What the journal says -/

/-- The entries follow one another and take up the offsets from `a` up to `b`. -/
def Covers : ℕ → List PruneSpan → ℕ → Prop
  | a, [], b => a = b
  | a, e :: es, b => e.fromOff = a ∧ a ≤ e.toOff ∧ Covers (e.toOff + 1) es b

/-- **The journal accounts for everything removed.** -/
structure State.Accounted (s : State) : Prop where
  covers : Covers 1 s.journal (s.run.lwm st)
  length_le : s.journal.length ≤ journalCap
  /-- What was removed lies below the low-water mark, and an entry's span holds its timestamps. -/
  below : ∀ x ∈ s.removed, 1 ≤ x.1 ∧ x.1 < s.run.lwm st
  spans : ∀ e ∈ s.journal, ∀ x ∈ s.removed, e.fromOff ≤ x.1 → x.1 ≤ e.toOff →
    e.firstTS ≤ x.2 ∧ x.2 ≤ e.lastTS
  gap_isSome : ∀ p, (gap (s.run.lwm st) s.journal p).isSome ↔ max p 1 < s.run.lwm st
  gap_range : ∀ p g, gap (s.run.lwm st) s.journal p = some g →
    g.fromOffset = max p 1 ∧ g.toOffset = s.run.lwm st - 1
  gap_times : ∀ p g, gap (s.run.lwm st) s.journal p = some g → ∀ x ∈ s.removed,
    g.fromOffset ≤ x.1 → x.1 ≤ g.toOffset → g.firstTS ≤ x.2 ∧ x.2 ≤ g.lastTS

/-- **Nothing older is pruned later.** No record a prune removes is older than the first timestamp of an
entry, the two oldest taken as one if the journal is full, and the newest of them (0 if there are none)
is not older than any record removed before. -/
def SpansInOrder (s : State) (e : StoreRun.Event) : Prop :=
  ∀ x ∈ pruneOf env st s.run e,
    (∀ sp ∈ coalesceAll (journalCap - 1) s.journal, ∀ r ∈ recordsIn s.run.store.disk st x.1 x.2.1,
      sp.firstTS ≤ r.2.ts) ∧
    ∀ y ∈ s.removed, y.2 ≤ (statsOf (recordsIn s.run.store.disk st x.1 x.2.1)).lastTS

instance (s : State) (e : StoreRun.Event) : Decidable (SpansInOrder env st s e) :=
  inferInstanceAs (Decidable (∀ x ∈ pruneOf env st s.run e, _ ∧ _))

/-! ### Time spans -/

theorem statsOf_append (recs : List (ℕ × RecEnc)) (x : ℕ × RecEnc) :
    statsOf (recs ++ [x]) = (statsOf recs).add x := foldl_append

theorem statsOf_pruned (recs : List (ℕ × RecEnc)) : (statsOf recs).pruned = recs.length := by
  induction recs using List.reverseRecOn with
  | nil => rfl
  | append_singleton recs x ih =>
    rw [statsOf_append, length_append, ← ih]
    rfl

theorem PruneStats.add_firstTS_le (t : PruneStats) (x : ℕ × RecEnc) :
    (t.add x).firstTS ≤ x.2.ts ∧ (t.pruned ≠ 0 → (t.add x).firstTS ≤ t.firstTS) := by
  show (if _ then _ else _) ≤ _ ∧ (_ → (if _ then _ else _) ≤ _)
  split <;> omega

theorem PruneStats.le_add_lastTS (t : PruneStats) (x : ℕ × RecEnc) :
    x.2.ts ≤ (t.add x).lastTS ∧ (t.pruned ≠ 0 → t.lastTS ≤ (t.add x).lastTS) := by
  show _ ≤ (if _ then _ else _) ∧ (_ → _ ≤ (if _ then _ else _))
  split <;> omega

/-- The span of records holds their timestamps. -/
theorem statsOf_span (recs : List (ℕ × RecEnc)) : ∀ x ∈ recs,
    (statsOf recs).firstTS ≤ x.2.ts ∧ x.2.ts ≤ (statsOf recs).lastTS := by
  induction recs using List.reverseRecOn with
  | nil => exact fun _ hx ↦ nomatch hx
  | append_singleton recs y ih =>
    intro x hx
    rw [statsOf_append]
    obtain ⟨hfirst, hfirst'⟩ := (statsOf recs).add_firstTS_le y
    obtain ⟨hlast, hlast'⟩ := (statsOf recs).le_add_lastTS y
    rcases mem_append.mp hx with hx | hx
    · have hne : (statsOf recs).pruned ≠ 0 := by
        rw [statsOf_pruned]
        exact (length_pos_of_mem hx).ne'
      exact ⟨(hfirst' hne).trans (ih x hx).1, (ih x hx).2.trans (hlast' hne)⟩
    · rw [mem_singleton.mp hx]
      exact ⟨hfirst, hlast⟩

/-! ### Entries that follow one another -/

variable {env st} {a b cap : ℕ} {e e' : PruneSpan} {es : List PruneSpan}

theorem Covers.le (h : Covers a es b) : a ≤ b := by
  induction es generalizing a with
  | nil => exact h.le
  | cons e es ih =>
    obtain ⟨-, hle, hrest⟩ := h
    exact (hle.trans (Nat.le_succ _)).trans (ih hrest)

theorem Covers.bounds (h : Covers a es b) (he : e ∈ es) :
    a ≤ e.fromOff ∧ e.fromOff ≤ e.toOff ∧ e.toOff < b := by
  induction es generalizing a with
  | nil => cases he
  | cons e' es ih =>
    obtain ⟨rfl, hle, hrest⟩ := h
    rcases mem_cons.mp he with rfl | he
    · exact ⟨le_rfl, hle, hrest.le⟩
    · obtain ⟨h1, h2⟩ := ih hrest he
      exact ⟨by omega, h2⟩

/-- Every offset has its entry. -/
theorem Covers.exists_mem (h : Covers a es b) {o : ℕ} (hlo : a ≤ o) (hhi : o < b) :
    ∃ e ∈ es, e.fromOff ≤ o ∧ o ≤ e.toOff := by
  induction es generalizing a with
  | nil => exact absurd (hlo.trans_lt hhi) (by rw [h]; exact Nat.lt_irrefl _)
  | cons e es ih =>
    obtain ⟨rfl, -, hrest⟩ := h
    by_cases ho : o ≤ e.toOff
    · exact ⟨e, mem_cons_self, hlo, ho⟩
    · obtain ⟨e', he', h'⟩ := ih hrest (Nat.lt_of_not_le ho)
      exact ⟨e', mem_cons_of_mem _ he', h'⟩

theorem Covers.concat (h : Covers a es b) (hfrom : e.fromOff = b) (hle : b ≤ e.toOff) :
    Covers a (es ++ [e]) (e.toOff + 1) := by
  induction es generalizing a with
  | nil =>
    obtain rfl : a = b := h
    exact ⟨hfrom, hle, rfl⟩
  | cons e' es ih => exact ⟨h.1, h.2.1, ih h.2.2⟩

theorem Covers.coalesce (h : Covers a (e :: es) b) : Covers a (coalesce cap e es) b := by
  induction es generalizing e with
  | nil => exact h
  | cons e' es ih =>
    rw [PruneJournal.coalesce]
    split
    · obtain ⟨hfrom, hle, hfrom', hle', hrest⟩ := h
      exact ih ⟨hfrom, by show a ≤ e'.toOff; omega, hrest⟩
    · exact h

theorem Covers.coalesceAll (h : Covers a es b) : Covers a (coalesceAll cap es) b := by
  cases es with
  | nil => exact h
  | cons e es => exact h.coalesce

theorem length_coalesce (hcap : 1 ≤ cap) (e : PruneSpan) (es : List PruneSpan) :
    (coalesce cap e es).length ≤ cap := by
  induction es generalizing e with
  | nil => exact hcap
  | cons e' es ih =>
    rw [coalesce]
    split
    · exact ih _
    · rename_i hle
      exact Nat.le_of_not_lt hle

theorem length_coalesceAll (hcap : 1 ≤ cap) (es : List PruneSpan) : (coalesceAll cap es).length ≤ cap := by
  cases es with
  | nil => exact Nat.zero_le _
  | cons e es => exact length_coalesce hcap e es

/-- **What merging keeps**: a property of entries that two neighbours hand on to their merger. -/
theorem forall_coalesce {Q : PruneSpan → Prop}
    (hmerge : ∀ a b, Q a → Q b → a.fromOff ≤ a.toOff → b.fromOff = a.toOff + 1 → Q (a.merge b))
    (h : Covers a (e :: es) b) (hQ : ∀ x ∈ e :: es, Q x) : ∀ x ∈ coalesce cap e es, Q x := by
  induction es generalizing e with
  | nil => exact hQ
  | cons e' es ih =>
    rw [coalesce]
    split
    · obtain ⟨hfrom, hle, hfrom', hle', hrest⟩ := h
      refine ih ⟨hfrom, by show a ≤ e'.toOff; omega, hrest⟩ fun x hx ↦ ?_
      rcases mem_cons.mp hx with rfl | hx
      · exact hmerge e e' (hQ e mem_cons_self) (hQ e' (by simp)) (hfrom ▸ hle) hfrom'
      · exact hQ x (by simp [hx])
    · exact hQ

theorem forall_coalesceAll {Q : PruneSpan → Prop}
    (hmerge : ∀ a b, Q a → Q b → a.fromOff ≤ a.toOff → b.fromOff = a.toOff + 1 → Q (a.merge b))
    (h : Covers a es b) (hQ : ∀ x ∈ es, Q x) : ∀ x ∈ coalesceAll cap es, Q x := by
  cases es with
  | nil => exact hQ
  | cons e es => exact forall_coalesce hmerge h hQ

/-- The newest entry is not merged. -/
theorem coalesce_concat (hcap : 1 ≤ cap) (e : PruneSpan) (es : List PruneSpan) (x : PruneSpan) :
    coalesce (cap + 1) e (es ++ [x]) = coalesce cap e es ++ [x] := by
  induction es generalizing e with
  | nil =>
    show (if cap + 1 < 0 + 2 then _ else _) = [e, x]
    exact if_neg (by omega)
  | cons e' es ih =>
    rw [cons_append, coalesce, coalesce, length_append, length_singleton]
    by_cases h : cap < es.length + 2
    · rw [if_pos (by omega), if_pos h, ih]
    · rw [if_neg (by omega), if_neg h]
      rfl

theorem writeJournal_eq (es : List PruneSpan) (x : PruneSpan) :
    writeJournal es x = coalesceAll (journalCap - 1) es ++ [x] := by
  cases es with
  | nil => rfl
  | cons e es => exact coalesce_concat (by decide) e es x

/-! ### Gaps -/

variable {g : GapSpan} {journal : List PruneSpan} {lwm p : ℕ}

theorem GapSpan.look_range (g : GapSpan) (sp : PruneSpan) :
    (g.look sp).fromOffset = g.fromOffset ∧ (g.look sp).toOffset = g.toOffset := by
  unfold GapSpan.look
  dsimp only
  split <;> split <;> exact ⟨rfl, rfl⟩

theorem GapSpan.look_firstTS (g : GapSpan) (sp : PruneSpan) : (g.look sp).firstTS =
    if sp.fromOff ≤ g.fromOffset ∧ g.fromOffset ≤ sp.toOff then sp.firstTS else g.firstTS := by
  unfold GapSpan.look
  dsimp only
  split <;> split <;> rfl

theorem GapSpan.look_lastTS (g : GapSpan) (sp : PruneSpan) : (g.look sp).lastTS =
    if sp.fromOff ≤ g.toOffset ∧ g.toOffset ≤ sp.toOff then sp.lastTS else g.lastTS := by
  unfold GapSpan.look
  dsimp only
  split <;> split <;> simp_all

/-- What `Gap` gathers from the journal: the times are those of an entry its ends lie in, if there is
one. -/
theorem foldl_look (g : GapSpan) (journal : List PruneSpan) :
    ((journal.foldl GapSpan.look g).fromOffset = g.fromOffset ∧
      (journal.foldl GapSpan.look g).toOffset = g.toOffset) ∧
    ((∃ e ∈ journal, (e.fromOff ≤ g.fromOffset ∧ g.fromOffset ≤ e.toOff) ∧
        (journal.foldl GapSpan.look g).firstTS = e.firstTS) ∨
      ∀ e ∈ journal, ¬ (e.fromOff ≤ g.fromOffset ∧ g.fromOffset ≤ e.toOff)) ∧
    ((∃ e ∈ journal, (e.fromOff ≤ g.toOffset ∧ g.toOffset ≤ e.toOff) ∧
        (journal.foldl GapSpan.look g).lastTS = e.lastTS) ∨
      ∀ e ∈ journal, ¬ (e.fromOff ≤ g.toOffset ∧ g.toOffset ≤ e.toOff)) := by
  induction journal using List.reverseRecOn with
  | nil => exact ⟨⟨rfl, rfl⟩, .inr fun _ h ↦ (nomatch h), .inr fun _ h ↦ (nomatch h)⟩
  | append_singleton journal sp ih =>
    obtain ⟨⟨hfrom, hto⟩, hfirst, hlast⟩ := ih
    rw [foldl_append]
    set r := journal.foldl GapSpan.look g
    have hlook : ([sp].foldl GapSpan.look r) = r.look sp := rfl
    obtain ⟨hfrom', hto'⟩ := r.look_range sp
    rw [hlook, r.look_firstTS, r.look_lastTS, hfrom', hto', hfrom, hto]
    have hsp : sp ∈ journal ++ [sp] := mem_append_right _ (mem_singleton_self _)
    refine ⟨⟨rfl, rfl⟩, ?_, ?_⟩
    · split
      · rename_i hin
        exact .inl ⟨sp, hsp, hin, rfl⟩
      · rename_i hout
        exact hfirst.imp (fun ⟨e, he, h⟩ ↦ ⟨e, mem_append_left _ he, h⟩) fun hnone ↦
          forall_mem_concat hnone hout
    · split
      · rename_i hin
        exact .inl ⟨sp, hsp, hin, rfl⟩
      · rename_i hout
        exact hlast.imp (fun ⟨e, he, h⟩ ↦ ⟨e, mem_append_left _ he, h⟩) fun hnone ↦
          forall_mem_concat hnone hout

/-- **What `Gap` reports** from a journal without holes. -/
theorem gap_eq_some (hc : Covers 1 journal lwm) (h : gap lwm journal p = some g) :
    max p 1 < lwm ∧ g.fromOffset = max p 1 ∧ g.toOffset = lwm - 1 ∧
      (∃ e ∈ journal, e.fromOff ≤ max p 1 ∧ g.firstTS = e.firstTS) ∧
      ∃ e ∈ journal, e.toOff + 1 = lwm ∧ g.lastTS = e.lastTS := by
  unfold gap at h
  split at h
  · cases h
  · rename_i hlt
    have hlt : max p 1 < lwm := by omega
    have hend : 1 ≤ lwm - 1 ∧ lwm - 1 < lwm := by omega
    obtain ⟨⟨hfrom, hto⟩, hfirst, hlast⟩ :=
      foldl_look { fromOffset := max p 1, toOffset := lwm - 1 } journal
    rw [Option.some.inj h] at hfrom hto hfirst hlast
    refine ⟨hlt, hfrom, hto, ?_, ?_⟩
    · rcases hfirst with ⟨e, he, hin, hts⟩ | hnone
      · exact ⟨e, he, hin.1, hts⟩
      · obtain ⟨e, he, hin⟩ := hc.exists_mem (le_max_right p 1) hlt
        exact absurd hin (hnone e he)
    · rcases hlast with ⟨e, he, hin, hts⟩ | hnone
      · have hle : lwm - 1 ≤ e.toOff := hin.2
        have hb := (hc.bounds he).2.2
        exact ⟨e, he, by omega, hts⟩
      · obtain ⟨e, he, hin⟩ := hc.exists_mem hend.1 hend.2
        exact absurd hin (hnone e he)

/-! ### The invariant -/

/-- The span of the entry holds the timestamps of what was removed in its range. -/
def Holds (removed : List (ℕ × ℤ)) (e : PruneSpan) : Prop :=
  ∀ x ∈ removed, e.fromOff ≤ x.1 → x.1 ≤ e.toOff → e.firstTS ≤ x.2 ∧ x.2 ≤ e.lastTS

/-- Nothing that was removed from the entry on is older than it. -/
def First (removed : List (ℕ × ℤ)) (e : PruneSpan) : Prop :=
  ∀ x ∈ removed, e.fromOff ≤ x.1 → e.firstTS ≤ x.2

variable {removed : List (ℕ × ℤ)}

theorem Holds.merge (h : Holds removed e) (h' : Holds removed e') (hnext : e'.fromOff = e.toOff + 1) :
    Holds removed (e.merge e') := by
  intro x hx hlo hhi
  by_cases hle : x.1 ≤ e.toOff
  · obtain ⟨h1, h2⟩ := h x hx hlo hle
    exact ⟨(min_le_left _ _).trans h1, h2.trans (le_max_left _ _)⟩
  · obtain ⟨h1, h2⟩ := h' x hx (by omega) hhi
    exact ⟨(min_le_right _ _).trans h1, h2.trans (le_max_right _ _)⟩

theorem First.merge (h : First removed e) : First removed (e.merge e') := fun x hx hlo ↦
  (min_le_left _ _).trans (h x hx hlo)

/-- A journal that accounts for what was removed below a low-water mark. -/
structure Sound (lwm : ℕ) (journal : List PruneSpan) (removed : List (ℕ × ℤ)) : Prop where
  covers : Covers 1 journal lwm
  length_le : journal.length ≤ journalCap
  below : ∀ x ∈ removed, 1 ≤ x.1 ∧ x.1 < lwm
  holds : ∀ e ∈ journal, Holds removed e
  first : ∀ e ∈ journal, First removed e
  /-- The newest entry's last timestamp is the last of all. -/
  newest : ∀ e ∈ journal, e.toOff + 1 = lwm → ∀ x ∈ removed, x.2 ≤ e.lastTS

theorem Sound.start : Sound 1 [] [] where
  covers := rfl
  length_le := Nat.zero_le _
  below _ h := nomatch h
  holds _ h := nomatch h
  first _ h := nomatch h
  newest _ h := nomatch h

/-- **An entry is written.** None of its records is older than the entries it joins, and none that was
removed before is newer than it. -/
theorem Sound.write {upTo : ℕ} {recs : List (ℕ × RecEnc)} (h : Sound lwm journal removed)
    (hlt : lwm < upTo) (hin : ∀ x ∈ recs, lwm ≤ x.1 ∧ x.1 < upTo)
    (hfirst : ∀ e ∈ coalesceAll (journalCap - 1) journal, ∀ x ∈ recs, e.firstTS ≤ x.2.ts)
    (hlast : ∀ x ∈ removed, x.2 ≤ (statsOf recs).lastTS) :
    Sound upTo (writeJournal journal (spanOf lwm upTo recs))
      (removed ++ recs.map fun x ↦ (x.1, x.2.ts)) := by
  have hspan := statsOf_span recs
  have hpos : 1 ≤ lwm := h.covers.le
  have htop : (spanOf lwm upTo recs).toOff + 1 = upTo := Nat.sub_add_cancel (hpos.trans hlt.le)
  have hmerged : Covers 1 (coalesceAll (journalCap - 1) journal) lwm := h.covers.coalesceAll
  -- an old entry says of the new records what it has to, since they are all above it
  have hold : ∀ e ∈ coalesceAll (journalCap - 1) journal, Holds removed e ∧ First removed e :=
    forall_coalesceAll (Q := fun e ↦ Holds removed e ∧ First removed e)
      (fun a b ha hb _ hnext ↦ ⟨ha.1.merge hb.1 hnext, ha.2.merge⟩) h.covers
      fun e he ↦ ⟨h.holds e he, h.first e he⟩
  have hmem : ∀ x : ℕ × ℤ, x ∈ removed ++ recs.map (fun x ↦ (x.1, x.2.ts)) →
      x ∈ removed ∨ ∃ r ∈ recs, x = (r.1, r.2.ts) := fun x hx ↦
    (mem_append.mp hx).imp id fun hx ↦ by
      obtain ⟨r, hr, heq⟩ := mem_map.mp hx
      exact ⟨r, hr, heq.symm⟩
  rw [writeJournal_eq]
  refine ⟨?_, ?_, fun x hx ↦ ?_, fun e he x hx hlo hhi ↦ ?_, fun e he x hx hlo ↦ ?_,
    fun e he htop' x hx ↦ ?_⟩
  · have hcovers := hmerged.concat (e := spanOf lwm upTo recs) rfl (by omega)
    rwa [htop] at hcovers
  · rw [length_append]
    exact Nat.succ_le_succ (length_coalesceAll (by decide) _)
  · rcases hmem x hx with hx | ⟨r, hr, rfl⟩
    · exact ⟨(h.below x hx).1, (h.below x hx).2.trans hlt⟩
    · exact ⟨hpos.trans (hin r hr).1, (hin r hr).2⟩
  · rcases mem_append.mp he with he | he
    · have hb := (hmerged.bounds he).2.2
      rcases hmem x hx with hx | ⟨r, hr, rfl⟩
      · exact (hold e he).1 x hx hlo hhi
      · exact absurd (hin r hr).1 (hhi.trans_lt hb).not_ge
    · cases mem_singleton.mp he
      rcases hmem x hx with hx | ⟨r, hr, rfl⟩
      · exact absurd (h.below x hx).2 hlo.not_gt
      · exact hspan r hr
  · rcases mem_append.mp he with he | he
    · rcases hmem x hx with hx | ⟨r, hr, rfl⟩
      · exact (hold e he).2 x hx hlo
      · exact hfirst e he r hr
    · cases mem_singleton.mp he
      rcases hmem x hx with hx | ⟨r, hr, rfl⟩
      · exact absurd (h.below x hx).2 hlo.not_gt
      · exact (hspan r hr).1
  · rcases mem_append.mp he with he | he
    · have hb := (hmerged.bounds he).2.2
      omega
    · cases mem_singleton.mp he
      rcases hmem x hx with hx | ⟨r, hr, rfl⟩
      · exact hlast x hx
      · exact (hspan r hr).2

theorem Sound.accounted {s : State} (h : Sound (s.run.lwm st) s.journal s.removed) : s.Accounted st :=
  { h with
    spans := h.holds
    gap_isSome p := by
      unfold gap
      split
      · rename_i hnone
        exact iff_of_false (by simp) (by omega)
      · rename_i hsome
        exact iff_of_true rfl (by omega)
    gap_range p g hg := by
      obtain ⟨-, hfrom, hto, -⟩ := gap_eq_some h.covers hg
      exact ⟨hfrom, hto⟩
    gap_times p g hg x hx hlo hhi := by
      obtain ⟨-, hfrom, -, ⟨e, he, hle, hfirst⟩, e', he', hlast, hts⟩ := gap_eq_some h.covers hg
      rw [hfrom] at hlo
      rw [hfirst, hts]
      exact ⟨h.first e he x hx (hle.trans hlo), h.newest e' he' hlast x hx⟩ }

/-! ### Steps -/

variable {run run' : StoreRun.State} {ev : Event} {s s' : State} {f : Found}

/-- What an event is to the stream: it leaves the low-water mark alone, or it is a prune of the records
from there to a new one. -/
def LwmStep (env : WriteEnv) (st : Stream) (run run' : StoreRun.State) (ev : StoreRun.Event) : Prop :=
  (pruneOf env st run ev = none ∧ run'.lwm st = run.lwm st) ∨
  ∃ upTo, run.lwm st < upTo ∧ run'.lwm st = upTo ∧
    pruneOf env st run ev = some (run.lwm st, upTo, recordsIn run.store.disk st (run.lwm st) upTo)

theorem lwmStep_commitPrune {i floor : ℕ} {gaps : List Record} (hi : Inv run)
    (h : StoreRun.step env run (.commitPrune i floor gaps) = some run') :
    LwmStep env st run run' (.commitPrune i floor gaps) := by
  simp only [StoreRun.step] at h
  split at h
  · rename_i st' lwm holes upTo recs hscan
    have hread := ((hi.scans i _ hscan).2.2 upTo recs rfl).2.2
    cases h
    by_cases hst : st' = st
    · subst hst
      cases hx : pruneScanned env run st' lwm holes upTo floor recs with
      | none =>
        left
        refine ⟨?_, rfl⟩
        simp only [pruneOf, hscan, hx]
        exact if_neg fun h ↦ Bool.noConfusion h.2
      | some x =>
        obtain ⟨rfl, -, hlt, rfl⟩ := pruneScanned_eq hread hx
        refine .inr ⟨min upTo floor, hlt, update_self .., ?_⟩
        simp only [pruneOf, hscan, hx]
        rw [if_pos ⟨trivial, rfl⟩]
        -- what was read is what stands there, or it is read again
        split
        · rfl
        · rename_i hsame
          push Not at hsame
          rw [hsame.1, hread rfl hsame.2]
    · refine .inl ⟨?_, ?_⟩
      · simp only [pruneOf, hscan]
        exact if_neg fun h ↦ hst h.1
      · cases hx : pruneScanned env run st' lwm holes upTo floor recs with
        | none => rfl
        | some x =>
          obtain ⟨-, -, -, rfl⟩ := pruneScanned_eq hread hx
          exact update_of_ne (Ne.symm hst) ..
  · cases h

/-- **Only a prune moves the low-water mark.** -/
theorem lwmStep (hi : Inv run) (h : StoreRun.step env run ev = some run') : LwmStep env st run run' ev := by
  by_cases hev : ∃ i floor gaps, ev = .commitPrune i floor gaps
  · obtain ⟨i, floor, gaps, rfl⟩ := hev
    exact lwmStep_commitPrune hi h
  · have hnone : pruneOf env st run ev = none := by
      cases ev with
      | commitPrune i floor gaps => exact absurd ⟨i, floor, gaps, rfl⟩ hev
      | _ => rfl
    refine .inl ⟨hnone, ?_⟩
    cases hi.does h with
    | wrote _ _ => rfl
    | scanned _ => rfl
    | reopened _ => rfl
    | @removed scans x gaps hx _ =>
      have hkept : x.lwm = run.lwm x.stream := by
        obtain ⟨i, floor, st', lwm, holes, upTo, recs, rfl, -⟩ |
          ⟨i, floor, st', next, lwm, holes, recs, -, -, -, hx⟩ |
          ⟨i, st', next, lwm, recs, -, -, -, hx⟩ |
          ⟨i, floor, doomed, st', next, lwm, iter, visited, found, -, -, hx⟩ :=
            removalOf_cases hx
        · exact absurd ⟨i, floor, gaps, rfl⟩ hev
        · obtain ⟨rfl, -, rfl⟩ := compactScanned_eq hx
          rfl
        · obtain ⟨rfl, rfl⟩ := evictScanned_eq hx
          rfl
        · rw [signalsScanned_eq hx]
      show update run.lwm x.stream x.lwm st = run.lwm st
      rw [hkept, update_eq_self]

/-- **A step keeps the journal sound** if nothing older is pruned later. -/
theorem Sound.step (hi : Inv s.run) (h : Sound (s.run.lwm st) s.journal s.removed)
    (hs : step env st s ev = some s') (hc : SpansInOrder env st s ev) :
    StoreRun.step env s.run ev = some s'.run ∧ Sound (s'.run.lwm st) s'.journal s'.removed := by
  obtain ⟨run, hrun, rfl⟩ := Option.map_eq_some_iff.mp hs
  have hlwm : LwmStep env st s.run run ev := lwmStep hi hrun
  obtain ⟨hnone, hlwm⟩ | ⟨upTo, hlt, hlwm, hsome⟩ := hlwm
  · simp only [hnone, hlwm]
    exact ⟨hrun, h⟩
  · obtain ⟨hfirst, hlast⟩ := hc _ hsome
    simp only [hsome]
    refine ⟨hrun, ?_⟩
    show Sound (run.lwm st) _ _
    rw [hlwm]
    refine h.write hlt (fun x hx ↦ ?_) hfirst hlast
    obtain ⟨hlo, hhi, -⟩ := mem_recordsIn.mp (show (x.1, x.2) ∈ _ from hx)
    exact ⟨hlo, hhi⟩

/-- **The prune journal accounts for everything removed.** In every run of a store in which nothing older
is pruned later, for a stream that was never pruned before it: the entries take up the offsets below the
low-water mark one after another, there are never too many of them, their spans hold the timestamps of
what was removed, and `Gap` reports a gap exactly to those below the mark, with its offsets and with times
that hold those of the records removed there. -/
theorem journal_accounts (env : WriteEnv) (st : Stream) (f : Found) (hf : f.lwm st = 1) (s : State)
    (h : (system env st f).Reach (SpansInOrder env st) s) : s.Accounted st := by
  have hinv : StoreRun.Inv s.run ∧ Sound (s.run.lwm st) s.journal s.removed := by
    refine h.invariant (I := fun s ↦ StoreRun.Inv s.run ∧ Sound (s.run.lwm st) s.journal s.removed)
      ⟨inv_start f, ?_⟩ fun s ev s' ⟨hi, hj⟩ hc hs ↦ ?_
    · show Sound (f.lwm st) [] []
      rw [hf]
      exact Sound.start
    · obtain ⟨hrun, hj'⟩ := Sound.step hi hj hs hc
      exact ⟨(hi.does hrun).inv hi, hj'⟩
  exact hinv.2.accounted

/-! ### Samples pruned one by one -/

/-- Samples with timestamps, of which the first and then the second is pruned. -/
def prunes (t1 t2 : ℤ) : List StoreRun.Event :=
  [.write (.append [⟨.metrics, [{ sampleMetric 1 with ts := t1 }, { sampleMetric 2 with ts := t2 }]⟩]) true,
    .begin_ 0 .prune .metrics, .readPrune 0 2, .commitPrune 0 3 [],
    .begin_ 0 .prune .metrics, .readPrune 0 3, .commitPrune 0 3 []]

/-- Both are gone, and a consumer at the start is told of this time span. -/
def toldOf (t1 t2 : ℤ) (s : State) : Bool :=
  decide (s.removed.length = 2) && decide (s.run.lwm .metrics = 3) &&
    decide (gap (s.run.lwm .metrics) s.journal 1 = some ⟨1, 2, t1, t2, false⟩)

theorem journal_accounts_prunes :
    ∃ s, (system sampleEnv .metrics .empty).Reach (SpansInOrder sampleEnv .metrics) s ∧
      toldOf 50 100 s = true ∧ s.Accounted .metrics := by
  obtain ⟨s, hreach, hs⟩ := (system sampleEnv .metrics .empty).exists_reach
    (SpansInOrder sampleEnv .metrics) (prunes 50 100) (toldOf 50 100 ·)
  exact ⟨s, hreach, hs, journal_accounts sampleEnv .metrics .empty rfl s hreach⟩

/-- The second sample is older than the first: the gap is told to be from 100 to 50. -/
theorem gap_misses_older_record :
    ¬ ∀ s, (system sampleEnv .metrics .empty).Reachable s → s.Accounted .metrics := by
  intro hall
  obtain ⟨s, hreach, htold, hremoved⟩ := (system sampleEnv .metrics .empty).exists_reachable
    (prunes 100 50) (fun s ↦ toldOf 100 50 s ∧ s.removed = [(1, 100), (2, 50)])
  obtain ⟨-, hgap⟩ := (Bool.and_eq_true _ _).mp htold
  have htimes := (hall s hreach).gap_times 1 _ (of_decide_eq_true hgap) (2, 50) (by simp [hremoved])
    (by decide) (by decide)
  exact absurd htimes.1 (by decide)

end Colca.PruneJournal
