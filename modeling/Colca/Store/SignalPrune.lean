import Colca.Store.Indexes

/-!
# Per-signal retention

`PruneSignals` walks the signal index of a stream one signal at a time. Of each signal that has a rule it
keeps the records from the cutoff on and, of those before it, the one with the latest timestamp: the value
in force when the window opens. The walk knows which one that is only when it has left the signal, so it
keeps a candidate and dooms the others as it goes. What is doomed is deleted in batches, each after the
cursors were looked at again; from the look to the commit the lock of the streams is held, which is not that
of the cursors. A limit on the visits ends a call anywhere; the next call comes to the signal again and finds
the candidate.

Appends and cursors interleave with the walk in any way. `groups` is what the iterator goes through: the
signals in the order of their keys, each with its index entries from the low-water mark on.

The walk keeps the store it began with, the cutoffs it decided and the candidates it left behind as ghosts;
the code forgets them.
-/

namespace Colca.SignalPrune

open Uns

/-- `doomedRec`: a record under the signal of its index entry. -/
abbrev Doomed := String × ℕ × RecEnc

/-- The arguments of a call. -/
structure Call where
  /-- In milliseconds. -/
  now : ℤ
  /-- `SignalRule`: the window of a signal in nanoseconds, from the topic of its oldest record. -/
  rule : String → Topic → Option ℤ
  clamp : ℕ
  /-- The stale cursors that may be passed, with the positions they had. -/
  overridden : List (String × ℕ)
  maxVisit : ℕ

/-- The cutoff of a signal, `none` when it is left to the policy of the stream. -/
def Call.cutoff (c : Call) (signalID : String) (topic : Topic) : Option ℤ :=
  match c.rule signalID topic with
  | some maxAge => if maxAge ≤ 0 then none else some (c.now - maxAge.tdiv 1000000)
  | none => none

/-- The signal a walk is at. -/
structure Cur where
  signalID : String
  /-- The index entries still to visit. -/
  offs : List ℕ
  cutoff : Option ℤ := none
  /-- The value in force so far. -/
  keep : Option Doomed := none

/-- Where a call is. -/
inductive Phase
  | walking
  /-- It is about to delete what is doomed, and to return then if it has a signal to resume at. -/
  | flushing (resume : Option String)
  /-- It holds the lock, with the floor and the stale cursors it found. -/
  | deleting (resume : Option String) (floor : ℕ) (stale : List (String × ℕ))
  | ended

/-- The floor of a batch that holds the lock. -/
def Phase.floor : Phase → Option ℕ
  | .deleting _ floor _ => some floor
  | _ => none

/-- `SignalPruneResult`. -/
structure Result where
  removed : ℕ := 0
  bytes : ℕ := 0
  signals : ℕ := 0
  resume : String := ""
  overridden : List String := []

/-- What a walk knows. -/
structure Known where
  call : Call
  clamp : ℕ
  groups : List (String × List ℕ)
  cur : Option Cur := none
  doomed : List Doomed := []
  base : StoreRun.State
  decided : List (String × ℤ) := []
  kept : List Doomed := []

/-- A call of `PruneSignals`. -/
structure Walk extends Known where
  visited : ℕ := 0
  phase : Phase := .walking
  result : Result := {}

/-- How many records one batch deletes. -/
def signalPruneBatch : ℕ := 10000

namespace Walk

/-- On to the next signal. -/
def leave (w : Walk) (cur : Cur) : Walk :=
  { w with cur := none, kept := w.kept ++ cur.keep.toList }

/-- One more record before the cutoff: the one with the later timestamp is kept, on equal ones the later
record. -/
def keepOrDoom (w : Walk) (cur : Cur) (x : Doomed) : Walk :=
  match cur.keep with
  | none => { w with cur := some { cur with keep := some x } }
  | some k =>
    let keep := if k.2.2.ts ≤ x.2.2.ts then x else k
    let gone := if k.2.2.ts ≤ x.2.2.ts then k else x
    { w with
      cur := some { cur with keep := some keep }
      doomed := w.doomed ++ [gone]
      phase := if signalPruneBatch ≤ w.doomed.length + 1 then .flushing none else .walking }

/-- The next signal. -/
def enter (w : Walk) (signalID : String) (offs : List ℕ) (groups : List (String × List ℕ)) : Walk :=
  { w with
    cur := some { signalID := signalID, offs := offs }
    groups := groups
    result := { w.result with signals := w.result.signals + 1 } }

/-- The next index entry of the signal. -/
def visit (w : Walk) (cur : Cur) (offs : List ℕ) : Walk :=
  { w with cur := some { cur with offs := offs }, visited := w.visited + 1 }

/-- The signal has a cutoff. -/
def decide (w : Walk) (cur : Cur) (c : ℤ) : Walk :=
  { w with cur := some { cur with cutoff := some c }, decided := (cur.signalID, c) :: w.decided }

/-- A record is found at an index entry. -/
def found (w : Walk) (cur : Cur) (off : ℕ) (e : RecEnc) : Walk :=
  if 0 < w.call.maxVisit ∧ w.call.maxVisit < w.visited then
    -- a long run of one signal: commit what is decided and resume at this signal
    { w with phase := .flushing (some cur.signalID) }
  else
    match cur.cutoff.or (w.call.cutoff cur.signalID e.topic) with
    | none => w.leave cur
    | some c =>
      if c ≤ e.ts then (w.decide cur c).leave cur
      else (w.decide cur c).keepOrDoom { cur with cutoff := some c } (cur.signalID, off, e)

/-- The walk goes on by one step. -/
def advance (d : Disk) (st : Stream) (w : Walk) : Walk :=
  match w.cur with
  | none =>
    match w.groups with
    | [] => { w with phase := .flushing (some "") }
    | (signalID, offs) :: groups =>
      if 0 < w.call.maxVisit ∧ w.call.maxVisit ≤ w.visited then
        { w with phase := .flushing (some signalID) }
      else w.enter signalID offs groups
  | some cur =>
    match cur.offs with
    | [] => w.leave cur
    | off :: offs =>
      if w.clamp ≤ off then w.leave cur
      else
        match recordAt d st off with
        | none => w.visit cur offs
        | some e => (w.visit cur offs).found { cur with offs := offs } off e

end Walk

/-! ### Store, cursors and calls -/

structure State where
  run : StoreRun.State
  /-- The cursors on the stream. -/
  cursors : List (String × ℕ) := []
  /-- The last call, running or not. -/
  walk : Option Walk := none
  /-- The cutoffs the calls before it decided. -/
  earlier : List (String × ℤ) := []

/-- The cutoffs that were decided so far. -/
def State.cutoffs (s : State) : List (String × ℤ) :=
  s.earlier ++ (s.walk.map (·.decided)).getD []

inductive Event
  /-- An append or another write path. -/
  | write (op : StoreRun.WriteOp) (ok : Bool)
  /-- Cursors move, appear or go. -/
  | cursors (cs : List (String × ℕ))
  | call (c : Call) (groups : List (String × List ℕ))
  | advance
  /-- `deleteSignalRecords` takes the lock and looks at the cursors. -/
  | look
  /-- Its batch is applied, with the records of its marker. -/
  | commit (gaps : List Record)

variable (env : WriteEnv) (st : Stream)

/-- What the iterator goes through: index entries from the low-water mark on, each signal once and in
offset order. -/
def Iterates (s : StoreRun.State) (groups : List (String × List ℕ)) : Prop :=
  (groups.map Prod.fst).Nodup ∧ ∀ g ∈ groups, g.2.Pairwise (· < ·) ∧
    ∀ o ∈ g.2, (s.store.disk (.sig st g.1 o)).isSome ∧ s.lwm st ≤ o

instance (s : StoreRun.State) (groups : List (String × List ℕ)) : Decidable (Iterates st s groups) :=
  inferInstanceAs (Decidable (_ ∧ ∀ g ∈ groups, _ ∧ ∀ o ∈ g.2, _))

/-- A cursor the call may not pass: it is not overridden, or it has moved since. -/
def Call.Protected (c : Call) (cursor : String × ℕ) : Prop :=
  c.overridden.lookup cursor.1 ≠ some cursor.2

instance (c : Call) (cursor : String × ℕ) : Decidable (c.Protected cursor) :=
  inferInstanceAs (Decidable (_ ≠ _))

/-- The floor, taken again under the lock. -/
def State.floor (s : State) (c : Call) : ℕ :=
  cursorFloor ((s.cursors.filter fun cursor ↦ decide (c.Protected cursor)).map Prod.snd) (s.run.next st)

/-- The stale cursors a batch passes: its highest offset is at or above them. -/
def passed (stale : List (String × ℕ)) (gone : List Doomed) : List String :=
  (stale.filter fun cursor ↦ gone.any fun x ↦ decide (cursor.2 ≤ x.2.1)).map Prod.fst

/-- `appendNew`. -/
def appendNew (list add : List String) : List String :=
  add.foldl (fun l a ↦ if a ∈ l then l else l ++ [a]) list

/-- The batch is committed. -/
def State.commit (s : State) (w : Walk) (resume : Option String) (floor : ℕ) (stale : List (String × ℕ))
    (gaps : List Record) : State :=
  let gone := StoreRun.flushed s.run st floor w.doomed
  let passed := passed stale gone
  { s with
    run := s.run.removeOr env (StoreRun.signalsScanned env s.run st floor w.doomed)
      (if passed = [] then [] else gaps)
    walk := some { w with
      doomed := []
      phase := if resume.isSome then .ended else .walking
      result := { w.result with
        removed := w.result.removed + gone.length
        bytes := w.result.bytes + StoreRun.shedOf env.codec st (gone.map Prod.snd)
        resume := resume.getD ""
        overridden := appendNew w.result.overridden passed } } }

/-- A call begins, unless there is nothing it may remove. -/
def State.begin_ (s : State) (c : Call) (groups : List (String × List ℕ)) : State :=
  if min c.clamp (s.run.next st) ≤ s.run.lwm st then s
  else
    { s with
      walk := some { call := c, clamp := min c.clamp (s.run.next st), groups := groups, base := s.run }
      earlier := s.cutoffs }

def step (s : State) : Event → Option State
  | .write op ok =>
    -- a write waits for the lock
    if (s.walk.bind fun w ↦ w.phase.floor).isSome then none
    else (StoreRun.step env s.run (.write op ok)).map fun run ↦ { s with run := run }
  | .cursors cs => some { s with cursors := cs }
  | .call c groups =>
    match s.walk.map Walk.phase with
    | none | some .ended => if Iterates st s.run groups then some (s.begin_ st c groups) else none
    | _ => none
  | .advance =>
    match s.walk with
    | some w =>
      match w.phase with
      | .walking => some { s with walk := some (w.advance s.run.store.disk st) }
      | _ => none
    | none => none
  | .look =>
    match s.walk with
    | some w =>
      match w.phase with
      | .flushing resume => some { s with walk := some { w with
          phase := .deleting resume (s.floor st w.call)
            (s.cursors.filter fun cursor ↦ !decide (w.call.Protected cursor)) } }
      | _ => none
    | none => none
  | .commit gaps =>
    match s.walk with
    | some w =>
      match w.phase with
      | .deleting resume floor stale => some (s.commit env st w resume floor stale gaps)
      | _ => none
    | none => none

/-- Calls of `PruneSignals` on a store, with appends and cursors in between. -/
def system (run : StoreRun.State) : StateMachine State Event where
  start := { run := run }
  step := step env st

/-! ### What is to hold -/

/-- The record is there. -/
def Has (st : Stream) (s : StoreRun.State) (o : ℕ) (e : RecEnc) : Prop :=
  recordAt s.store.disk st o = some e

/-- The call has a cutoff for the signal, by its rule for the topic of a record of the signal. -/
def Known.IsCutoff (w : Known) (signalID : String) (c : ℤ) : Prop :=
  (signalID, c) ∈ w.decided ∧
    (∃ o e, Has st w.base o e ∧ e.signalID = signalID ∧ w.call.cutoff signalID e.topic = some c) ∧
    ∀ c', (signalID, c') ∈ w.decided → c' = c

/-- **The value in force is kept.** -/
structure State.InForce (run₀ : StoreRun.State) (s : State) : Prop where
  /-- A record that a step removes is before the cutoff of its signal, and below every cursor that the
  call may not pass. -/
  old : ∀ ev s', step env st s ev = some s' → ∀ o e, Has st s.run o e → ¬ Has st s'.run o e →
    ∃ w c, s.walk = some w ∧ w.IsCutoff st e.signalID c ∧ e.ts < c ∧
      ∀ cursor ∈ s.cursors, w.call.Protected cursor → o < cursor.2
  /-- Of the records a signal had before its cutoff when the call began, one with the latest timestamp is
  still there. -/
  newest : ∀ w, s.walk = some w → ∀ signalID c, (∀ c', (signalID, c') ∈ w.decided → c' ≤ c) →
    (∃ o e, Has st w.base o e ∧ e.signalID = signalID ∧ e.ts < c) →
    ∃ o e, Has st w.base o e ∧ Has st s.run o e ∧ e.signalID = signalID ∧ e.ts < c ∧
      ∀ o' e', Has st w.base o' e' → e'.signalID = signalID → e'.ts < c → e'.ts ≤ e.ts
  /-- Over all calls: as long as no cutoff of a signal was later, there is a record before it that is no
  older than any of the signal that stood before it at first. -/
  pass : ∀ c o e, (∀ c', (e.signalID, c') ∈ s.cutoffs → c' ≤ c) → Has st run₀ o e → e.ts < c →
    ∃ o' e', Has st s.run o' e' ∧ e'.signalID = e.signalID ∧ e.ts ≤ e'.ts ∧ e'.ts < c

/-- **The condition**: once a batch has looked at the cursors, none that the call may not pass comes to stand
below the floor. -/
def Undisturbed (s : State) : Event → Prop
  | .cursors cs => ∀ w ∈ s.walk, ∀ floor ∈ w.phase.floor, ∀ cursor ∈ cs, w.call.Protected cursor →
      floor ≤ cursor.2
  | _ => True

instance (s : State) : ∀ ev, Decidable (Undisturbed s ev)
  | .cursors cs => inferInstanceAs (Decidable (∀ w ∈ s.walk, ∀ floor ∈ w.phase.floor, ∀ cursor ∈ cs, _ → _))
  | .write .. | .call .. | .advance | .look | .commit _ => isTrue trivial

end Colca.SignalPrune
