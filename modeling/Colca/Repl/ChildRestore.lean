import Colca.Repl.ExactlyOnce

/-!
# A child restored from a copy of its store

The child's store is replaced by an earlier copy of itself: a new process opens a store that carries
the incarnation id it was copied with, and hands out offsets a second time. The parent keeps the
marks it had, and drops what it takes for records it already stores.

The parent's marks give the restore away as long as a stream of the child ends at or below them: the
child then takes a new incarnation, and the parent drops the marks. Each stream is compared when an
answer about it arrives, and the downlink loop compares all of them when a hello is answered. The
uplink loop does not wait for that hello.

The system is that of `Colca.Repl.UplinkSystem` with two more events. The parent's store is never
replaced. A restore finds the link clear: what the process before it had sent was taken by the
parent or is lost.
-/

namespace Colca.ChildRestore

open Uns Uplink Incarnation

/-- The last time the child's store was replaced. Before the first time this is the empty store the
child began with. -/
structure Restored where
  /-- The incarnation id the copy carries. -/
  id : ℕ
  /-- The next offset of each stream of the copy. -/
  head : Stream → ℕ
  /-- The incarnation of the child the parent had on record, and its marks. -/
  record : Option ℕ
  mark : Stream → ℕ

/-- A child and its parent, and copies of the child's store. From `last` on the fields are ghosts. -/
structure State where
  sys : Sys
  copies : List Child := []
  last : Restored
  /-- The parent has dropped the marks it had at the restore. -/
  cleared : Bool := false
  /-- What the parent stored from the child since the restore. -/
  stored : Stream → List ReplRecord := fun _ ↦ []
  /-- How many pushes were answered before the parent dropped those marks. -/
  early : ℕ := 0
  /-- Whether a stream of the child ended at or below the parent's mark when the child made its
  first request, once it has made one. -/
  shown : Option Bool := none

/-- What can happen next. -/
inductive Event
  /-- The child, the parent or the link moves. -/
  | run (e : Uplink.Event)
  /-- The child's store is copied. -/
  | copy
  /-- The child's store is replaced by a copy, and a new process opens it. -/
  | restore (i : ℕ)

namespace State

variable (cfg : Config) (s : State)

/-- A stream of the child ends at or below the parent's mark. -/
def behind : Bool :=
  uplinkStreams.any fun st ↦ (s.sys.child.lanes st).log.next ≤ s.sys.parent.mark cfg st

/-- The system moved on to `t`. -/
def advance (t : Sys) : State :=
  { s with
    sys := t
    cleared := s.cleared || (s.sys.parent.childStore != none &&
      t.parent.childStore != s.sys.parent.childStore)
    stored := fun st ↦ s.stored st ∪ t.parent.held st
    early := if s.cleared then s.early else t.pushAnswers.length
    shown := s.shown.orElse fun _ ↦
      if s.sys.pushes.length < t.pushes.length ∨ s.sys.downs.length < t.downs.length then
        some (s.behind cfg)
      else none }

/-- The child's store is replaced by the copy `c`. -/
def restored (c : Child) : State where
  sys := { s.sys with
    child := c.restart
    parent := { s.sys.parent with held := fun _ ↦ [], polls := [] }
    pushes := [], pushAnswers := [], downs := [], downAnswers := [] }
  copies := s.copies
  last := ⟨c.storeID, fun st ↦ (c.lanes st).log.next, s.sys.parent.childStore,
    fun st ↦ s.sys.parent.mark cfg st⟩

end State

/-- One event. -/
def step (cfg : Config) (s : State) : Event → Option State
  | .run e => if e.isRestore then none else ((system cfg).step s.sys e).map (s.advance cfg)
  | .copy => some { s with copies := s.copies ++ [s.sys.child] }
  | .restore i =>
    if s.sys.parent.queue = [] then s.copies[i]?.map (s.restored cfg) else none

/-- A child and a parent that have not met. -/
def restoreSystem (cfg : Config) : StateMachine State Event where
  start := { sys := (system cfg).start, last := ⟨0, fun _ ↦ 1, none, fun _ ↦ 0⟩ }
  step := step cfg

/-- Every record that the child wrote since the restore, that rises and is still retained, and that
the uplink cursor has passed, is stored at the parent or set aside. -/
def Delivered (cfg : Config) (s : State) : Prop :=
  ∀ st, ∀ x ∈ (s.sys.child.lanes st).log.entries, s.last.head st ≤ x.1 → cfg.rises st x.2 →
    x.1 < (s.sys.child.lanes st).pos →
      cfg.stored x ∈ s.stored st ∨ (s.sys.child.lanes st).IsSetAside x.1

/-! ### When the restore goes unseen -/

/-- The push carries a record written since the restore, at an offset the parent's mark covered
then. -/
def Restored.reuses (g : Restored) (req : Request) : Bool :=
  req.batch.any fun r ↦ decide (r.skipFrom = 0) && decide (g.head req.env.stream ≤ r.childOffset) &&
    decide (r.childOffset ≤ g.mark req.env.stream)

/-- Answer `k` confirms the push in hand, which reuses an offset and was taken while the parent had
the marks of the restore, and the stream has grown past the mark answered: the child cannot tell
that its record was dropped. -/
def State.unseen (s : State) (k : ℕ) : Bool :=
  match s.sys.pushAnswers[k]?, s.sys.child.push with
  | some (id, .ok hwm), .sent p _ req _ id' =>
    decide (id = id') && decide (s.sys.child.epoch = p.epoch) && decide (k < s.early) &&
      s.last.reuses req && decide (hwm < (s.sys.child.lanes p.st).log.next)
  | _, _ => false

/-- The push answer the event delivers. -/
def Event.answer : Event → Option ℕ
  | .run (.receivePush k _) => some k
  | _ => none

/-- No answer hides from the child that its store regressed. -/
def RegressionSeen (s : State) (e : Event) : Prop := ∀ k ∈ e.answer, s.unseen k = false

instance (s : State) (e : Event) : Decidable (RegressionSeen s e) :=
  inferInstanceAs (Decidable (∀ k ∈ e.answer, s.unseen k = false))

end Colca.ChildRestore
