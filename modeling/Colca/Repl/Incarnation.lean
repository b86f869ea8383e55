import Colca.Uns.Topic
import Mathlib.Order.MinMax
import Mathlib.Data.Nat.Basic

/-!
# The store-incarnation check

A child remembers offsets of its parent's store: how far it read commands and definitions, and per
uplink stream the highest of its own offsets the parent confirmed. A parent restored from a backup
keeps its incarnation id and is behind those positions. So a child states what it recorded, the
parent compares (`aheadOf`, `judgeChild`), and a child told to re-sync moves its cursors to where the
parent's store stands (`judgeParent`, `planReplay`).

Incarnation ids are random strings in the source. Here they are numbers, and `none` stands for the
empty id of a party that recorded none.
-/

namespace Colca.Incarnation

open Uns

/-! ### The parent's side -/

/-- What a parent does with a child's request. -/
inductive ChildVerdict
  /-- The child knows this incarnation, or nothing says otherwise. -/
  | proceed
  /-- The child must re-sync; this store's id stands. -/
  | resync
  /-- The child proves this incarnation regressed: the store takes a new id first. -/
  | reincarnate
  /-- A child from before the handshake stands past this store's head. -/
  | cannotResync
  deriving DecidableEq, Repr

/-- The verdict from this store's incarnation, whether the child speaks the handshake, the
incarnation it recorded, and whether a position it states is ahead of this store. -/
def judgeChild (current : ℕ) (capable : Bool) (recorded : Option ℕ) (ahead : Bool) :
    ChildVerdict :=
  if !capable then
    if ahead then .cannotResync else .proceed
  else if recorded ≠ none ∧ recorded ≠ some current then .resync
  else if !ahead then .proceed
  else if recorded = some current then .reincarnate
  else .resync

/-- What a child states about itself in a request. -/
structure ChildPosition where
  /-- The child's own incarnation. -/
  store : Option ℕ
  /-- The next offsets it reads, `0` when unstated. -/
  commands : ℕ := 0
  definitions : ℕ := 0
  /-- Per stream the highest of its offsets it was told is stored, `0` when unstated. -/
  acked : Stream → ℕ := fun _ ↦ 0

/-- What a parent's store holds against a child's position. -/
structure StoreView where
  commandsHead : ℕ
  definitionsHead : ℕ
  /-- The incarnation the child last replicated from, `none` when none is recorded. -/
  childStore : Option ℕ
  hwm : Stream → ℕ

/-- The streams a child pushes, in the order of its lanes. -/
def uplinkStreams : List Stream :=
  [.commands, .alarms, .entities, .audit, .annotations, .logs, .metrics]

/-- A position the child states is ahead of what the store holds. A stream without a mark, and a
child store that is not on record, say nothing about this store. -/
def aheadOf (v : StoreView) (p : ChildPosition) : Bool :=
  decide (v.commandsHead < p.commands) || decide (v.definitionsHead < p.definitions) ||
    (p.store != none && v.childStore == p.store &&
      uplinkStreams.any fun st ↦ decide (0 < v.hwm st) && decide (v.hwm st < p.acked st))

/-- Carry out a verdict: whether the child has to re-sync, and whether the store takes a new id. An
id this process minted stands, whatever a child claims. -/
def judge (current : ℕ) (mayHaveRegressed capable : Bool) (recorded : Option ℕ) (v : StoreView)
    (p : ChildPosition) : Bool × Bool :=
  match judgeChild current capable recorded (aheadOf v p) with
  | .proceed | .cannotResync => (false, false)
  | .resync => (true, false)
  | .reincarnate => (true, mayHaveRegressed)

variable {p : ChildPosition} {v : StoreView} {st : Stream}

theorem mem_uplinkStreams (h : isUplinkStream st) : st ∈ uplinkStreams := by
  cases st <;> simp_all [isUplinkStream, uplinkStreams]

/-- A child that speaks the handshake and is let through is not ahead of the store, and names no
other incarnation of it. -/
theorem judge_eq_proceed {current : ℕ} {may : Bool} {recorded : Option ℕ}
    (h : (judge current may true recorded v p).1 = false) :
    aheadOf v p = false ∧ (recorded = none ∨ recorded = some current) := by
  have hrec : recorded = none ∨ recorded = some current := by
    by_contra hne
    push Not at hne
    simp [judge, judgeChild, hne] at h
  refine ⟨?_, hrec⟩
  by_contra hahead
  rcases hrec with rfl | rfl <;> simp [judge, judgeChild, hahead] at h

/-- A mark that is compared at all is not ahead of the store's. -/
theorem acked_le_of_not_ahead {k : ℕ}
    (h : aheadOf v p = false) (hp : p.store = some k) (hv : v.childStore = some k)
    (hst : isUplinkStream st) (hpos : 0 < v.hwm st) : p.acked st ≤ v.hwm st := by
  simp only [aheadOf, hp, hv, Bool.or_eq_false_iff, Bool.and_eq_false_iff, List.any_eq_false] at h
  rcases h.2 with h | h
  · simp at h
  · have := h st (mem_uplinkStreams hst)
    simpa [hpos] using this

/-! ### The child's side -/

/-- What a child does with its parent's answer. -/
inductive ParentVerdict
  | predatesIncarnations | firstSeen | unchanged | changed
  deriving DecidableEq, Repr

/-- The verdict from the incarnation the child recorded, the one the parent answered with, and
whether the parent asked for a re-sync. -/
def judgeParent (recorded answered : Option ℕ) (asked : Bool) : ParentVerdict :=
  if answered = none then .predatesIncarnations
  else if asked then .changed
  else if recorded = none then .firstSeen
  else if recorded = answered then .unchanged
  else .changed

/-- A range of a stream the parent lacks and the child no longer holds, both ends included. -/
structure ResyncGap where
  stream : Stream
  fromOffset : ℕ
  toOffset : ℕ
  deriving DecidableEq, Repr

/-- What a re-sync does to one uplink stream. -/
structure UplinkReplay where
  /-- Where the cursor is placed, `0` to leave it alone. -/
  rewindTo : ℕ := 0
  /-- Where the cursor stood. -/
  until_ : ℕ := 0
  gap : Option ResyncGap := none
  deriving DecidableEq, Repr

/-- One stream's replay from where its cursor stands, the highest offset the parent holds of it and
the lowest offset still retained. Only a cursor ahead of the parent moves, and only back. -/
def planReplay (stream : Stream) (cursor parentHWM lwm : ℕ) : UplinkReplay :=
  let want := parentHWM + 1
  if cursor ≤ want then {}
  else
    let start := max want lwm
    { until_ := cursor
      gap := if want < start then some ⟨stream, want, min start cursor - 1⟩ else none
      rewindTo := if start < cursor then start else 0 }

/-- Where the cursor stands after the replay was planned. -/
def UplinkReplay.place (r : UplinkReplay) (cursor : ℕ) : ℕ :=
  if r.rewindTo ≠ 0 then r.rewindTo else cursor

theorem planReplay_place (stream : Stream) (cursor parentHWM lwm : ℕ) :
    (planReplay stream cursor parentHWM lwm).place cursor =
      min cursor (max (parentHWM + 1) lwm) := by
  by_cases hc : cursor ≤ parentHWM + 1
  · simp only [planReplay, UplinkReplay.place, hc, if_true, ne_eq, not_true_eq_false, if_false]
    omega
  · by_cases hs : max (parentHWM + 1) lwm < cursor
    · have hpos : max (parentHWM + 1) lwm ≠ 0 := by omega
      simp only [planReplay, UplinkReplay.place, hc, hs, if_true, if_false, hpos, ne_eq, not_false_eq_true]
      omega
    · simp only [planReplay, UplinkReplay.place, hc, hs, if_false, ne_eq, not_true_eq_false]
      omega

/-- **Behind a placed cursor lies only what the parent holds or the child no longer does.** -/
theorem le_of_lt_place {stream : Stream} {cursor parentHWM lwm o : ℕ}
    (ho : o < (planReplay stream cursor parentHWM lwm).place cursor) (hlwm : lwm ≤ o) : o ≤ parentHWM := by
  rw [planReplay_place] at ho
  omega

end Colca.Incarnation
