import Colca.Lib.StateMachine
import Colca.Store.TargetIndex

/-!
# Delivering commands to a machine

A command is delivered onto the local bus to a machine that may not be listening. The machine's
delivery **cursor** stands behind the commands that reached a live subscription of it, and everything
above it is replayed when the machine subscribes again. `deliverCommand` runs once for each command
that was stored, `replayOwedCommands` for each subscribe, and both hold the machine's replay lock.

Under the lock the publish, the question whether a subscription exists, and the move of the cursor are
separate steps, and subscriptions come and go between them. So the engine is a state machine whose lock
holder proceeds step by step; `deliverCommand` is the same thing in one step, for a run that nothing
interrupts.

Of the code outside this development the model takes two functions: the deadline in a command's
payload, and the matching of a topic by the filter of a subscription.
-/

namespace Colca.Delivery

open Uns

/-- One machine enrolled at a node. -/
structure Config where
  machine : String
  /-- Where the target index of the commands stream starts. -/
  covered : ℕ
  /-- The first offset whose commands are in force: a standalone period retires those below. -/
  inForceFrom : ℕ
  /-- `CommandDeadline`: the `expires_at` of a payload. -/
  deadline : Payload → Option ℤ
  /-- A subscription to a filter receives what is published on a topic. -/
  covers : Topic → Topic → Bool

namespace Config

variable (cfg : Config)

/-- The command may still execute. -/
def commandStillLive (payload : Payload) (now : ℤ) : Bool :=
  match cfg.deadline payload with
  | none => true
  | some d => decide (now ≤ d)

/-- `OwedCommand`: the record must be delivered to the identity. -/
def owedCommand (e : RecEnc) (ulid : String) (now : ℤ) : Bool :=
  ulid != "" &&
    match parse e.topic with
    | .error _ => false
    | .ok p =>
      (classOf p.contract).isCommand && p.nodeID == ulid && cfg.commandStillLive e.payload now

/-- The record is a command for the machine. -/
def addressed (e : RecEnc) : Bool := commandTarget e.topic == some cfg.machine

/-- The command is in force and may still execute. -/
def live (now : ℤ) (x : ℕ × RecEnc) : Bool :=
  decide (cfg.inForceFrom ≤ x.1) && cfg.commandStillLive x.2.payload now

variable {cfg}

theorem commandTarget_eq_some_iff {t : Topic} {m : String} : commandTarget t = some m ↔
    m ≠ "" ∧ ∃ p, parse t = .ok p ∧ (classOf p.contract).isCommand ∧ p.nodeID = m := by
  unfold commandTarget parse
  split
  · simp
  · split
    · rename_i contract node seg rest hlen
      cases hc : hasPrefix contract "_" with
      | false => simp
      | true =>
        simp only [Bool.true_and, if_true, Except.ok.injEq, exists_eq_left']
        split
        · rename_i h
          simp only [Bool.and_eq_true, bne_iff_ne, ne_eq] at h
          simp only [Option.some.injEq, h.2, true_and]
          exact ⟨fun hm ↦ ⟨hm ▸ h.1, hm⟩, And.right⟩
        · rename_i h
          simp only [Bool.and_eq_true, bne_iff_ne, ne_eq, not_and, Bool.not_eq_true] at h
          simp only [reduceCtorEq, false_iff, not_and]
          rintro hm hcmd rfl
          exact absurd hcmd (by simp [h hm])
    · simp

/-- What is owed to the machine: its commands that may still execute. -/
theorem owedCommand_iff {e : RecEnc} {now : ℤ} : cfg.owedCommand e cfg.machine now ↔
    cfg.addressed e ∧ cfg.commandStillLive e.payload now := by
  rw [addressed, beq_iff_eq, commandTarget_eq_some_iff, owedCommand]
  cases hp : parse e.topic with
  | error _ => simp
  | ok p =>
    simp only [Bool.and_eq_true, bne_iff_ne, ne_eq, beq_iff_eq, Except.ok.injEq, exists_eq_left']
    tauto

/-- The index files a command under its machine. -/
theorem recordTarget_of_addressed {e : RecEnc} (h : cfg.addressed e) :
    recordTarget e.topic = cfg.machine := by
  rw [addressed, beq_iff_eq] at h
  simp [recordTarget, h]

theorem commandStillLive_mono {payload : Payload} {now now' : ℤ} (h : now ≤ now')
    (hl : cfg.commandStillLive payload now') : cfg.commandStillLive payload now := by
  unfold commandStillLive at hl ⊢
  split at hl
  · rfl
  · simp only [decide_eq_true_eq] at hl ⊢
    omega

theorem live_mono {x : ℕ × RecEnc} {now now' : ℤ} (h : now ≤ now') (hl : cfg.live now' x) :
    cfg.live now x := by
  simp only [live, Bool.and_eq_true] at hl ⊢
  exact ⟨hl.1, commandStillLive_mono h hl.2⟩

end Config

/-! ### The engine's state -/

/-- How many records one replay pass reads. -/
def replayBatch : ℕ := 256

/-- How many records one subscribe may publish. -/
def replayCap : ℕ := 4096

/-- How many commands of a machine an owed check visits. -/
def owedScanBudget : ℕ := 4096

/-- A command that was published. `reached` and `live` are ghosts: whether the machine had a live
matching subscription, and whether the command was live, at that moment. -/
structure Publication where
  off : ℕ
  reached : Bool
  live : Bool
  deriving DecidableEq, Repr

/-- A replay under way. -/
structure Replay where
  /-- Where the next pass reads. -/
  start : ℕ
  /-- The head and the clock when the replay began. -/
  head : ℕ
  now : ℤ
  published : ℕ := 0
  deriving DecidableEq, Repr

/-- Who holds the machine's replay lock, and how far it is. -/
inductive Holder
  | free
  /-- A live delivery that decided to publish. -/
  | publishing (x : ℕ × RecEnc)
  /-- It has published, and asks for a subscription next. -/
  | published (x : ℕ × RecEnc)
  /-- It was answered. -/
  | asked (x : ℕ × RecEnc) (delivered : Bool)
  /-- A replay between two passes. -/
  | replaying (r : Replay)
  /-- A replay with the rest of a pass in hand. -/
  | sending (r : Replay) (recs : List (ℕ × RecEnc)) (next : ℕ)
  /-- A replay that found a subscription for `x` and publishes it next. -/
  | resending (r : Replay) (x : ℕ × RecEnc) (recs : List (ℕ × RecEnc)) (next : ℕ)
  deriving DecidableEq, Repr

/-- What concerns the machine at its node. -/
structure State where
  stream : CommandStream := .empty
  /-- The delivery cursor. -/
  cursor : Option ℕ := none
  /-- The node's clock, in milliseconds. -/
  now : ℤ := 0
  /-- The filters of the machine's live subscriptions. -/
  subs : List Topic := []
  /-- The commands that were stored and wait for the lock. -/
  waiting : List (ℕ × RecEnc) := []
  holder : Holder := .free
  /-- What was published, in order. -/
  published : List Publication := []

namespace State

variable (cfg : Config) (s : State)

/-- Where the cursor stands. -/
def floor : ℕ := s.cursor.getD 1

/-- `CursorAck`: the cursor only moves forward. -/
def ack (off : ℕ) : State :=
  { s with cursor := if s.floor < off then some off else s.cursor }

/-- `HasSubscriberFor`. -/
def hasSubscriber (topic : Topic) : Bool := s.subs.any (cfg.covers · topic)

/-- Publish a command onto the local bus. -/
def publish (x : ℕ × RecEnc) : State :=
  { s with published := s.published ++ [⟨x.1, s.hasSubscriber cfg x.2.topic, cfg.live s.now x⟩] }

/-- `owedBelow`: a command still owed to the machine sits below `off`, or it cannot be ruled out. -/
def owedBelow (readFails : Bool) (off : ℕ) : Bool :=
  if off ≤ s.floor then false
  else if readFails then true
  else
    let r := s.stream.readTarget cfg.covered cfg.machine (max s.floor cfg.inForceFrom) off 1
      owedScanBudget fun x ↦ cfg.owedCommand x.2 cfg.machine s.now
    if r.1 = [] ∧ r.2 < off then true else decide (r.1 ≠ [])

/-- A live delivery goes ahead: no replay published the command already, and nothing older is owed. -/
def mayPublish (readFails : Bool) (x : ℕ × RecEnc) : Bool :=
  decide (x.1 ≥ s.floor) && !s.owedBelow cfg readFails x.1

/-- Move the cursor past a command that was delivered or has expired. -/
def settle (x : ℕ × RecEnc) (delivered : Bool) : State :=
  if delivered || !cfg.commandStillLive x.2.payload s.now then s.ack (x.1 + 1) else s

/-- `deliverCommand`, when nothing happens between its steps. -/
def deliverCommand (readFails : Bool) (x : ℕ × RecEnc) : State :=
  if s.mayPublish cfg readFails x then
    (s.publish cfg x).settle cfg x (s.hasSubscriber cfg x.2.topic)
  else s

/-! ### The lock holder -/

/-- `ReplayOwedCommands` takes the lock. -/
def replay : Replay where
  start := max s.floor cfg.inForceFrom
  head := s.stream.next
  now := s.now

/-- One pass of a replay reads the machine's owed commands. -/
def readPass (r : Replay) : List (ℕ × RecEnc) × ℕ :=
  s.stream.readTarget cfg.covered cfg.machine r.start r.head replayBatch 0 fun x ↦
    cfg.owedCommand x.2 cfg.machine r.now

/-- The next step of the lock holder. -/
def proceed (readFails : Bool) : Option State :=
  match s.holder with
  | .free => none
  | .publishing x => some { (s.publish cfg x) with holder := .published x }
  | .published x => some { s with holder := .asked x (s.hasSubscriber cfg x.2.topic) }
  | .asked x delivered => some { (s.settle cfg x delivered) with holder := .free }
  | .replaying r =>
    if r.start < r.head ∧ r.published < replayCap ∧ readFails = false then
      some { s with holder := .sending r (s.readPass cfg r).1 (s.readPass cfg r).2 }
    else some { s with holder := .free }
  | .sending r [] next => some { (s.ack next) with holder := .replaying { r with start := next } }
  | .sending r (x :: recs) next =>
    -- a record whose topic the machine is not listening on stays owed, and ends the replay
    if s.hasSubscriber cfg x.2.topic then some { s with holder := .resending r x recs next }
    else some { (s.ack x.1) with holder := .free }
  | .resending r x recs next =>
    some { (s.publish cfg x) with
      holder := .sending { r with published := r.published + 1 } recs next }

end State

/-! ### The system -/

/-- What can happen next. -/
inductive Event
  /-- Time passes. -/
  | tick (ms : ℕ)
  /-- A record is appended to the commands stream. -/
  | append (e : RecEnc)
  | subscribe (filter : Topic)
  | unsubscribe (filter : Topic)
  /-- A stored command takes the lock and is delivered, or held. -/
  | deliver (i : ℕ) (readFails : Bool)
  /-- A replay takes the lock. -/
  | replay
  /-- The lock holder takes its next step. -/
  | proceed (readFails : Bool)
  deriving DecidableEq, Repr

/-- The state after an event. -/
def State.step (cfg : Config) (s : State) : Event → Option State
  | .tick ms => some { s with now := s.now + ms }
  | .append e =>
    some { s with
      stream := s.stream.append e
      waiting := s.waiting ++ if cfg.addressed e then [(s.stream.next, e)] else [] }
  | .subscribe filter => some { s with subs := filter :: s.subs }
  | .unsubscribe filter => some { s with subs := s.subs.erase filter }
  | .deliver i readFails =>
    s.waiting[i]?.bind fun x ↦
      if s.holder = .free then
        some { s with
          waiting := s.waiting.eraseIdx i
          holder := if s.mayPublish cfg readFails x then .publishing x else .free }
      else none
  | .replay =>
    if s.holder = .free then some { s with holder := .replaying (s.replay cfg) } else none
  | .proceed readFails => s.proceed cfg readFails

/-- A machine that was enrolled when the node's store was new. -/
def system (cfg : Config) : StateMachine State Event where
  start := {}
  step s e := s.step cfg e

end Colca.Delivery
