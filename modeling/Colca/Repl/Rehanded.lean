import Colca.Repl.DownlinkOnce

/-!
# Commands across a restore of the parent

The downlink of `Downlink`, with a parent whose store is replaced by earlier copies of itself. Such a parent
hands new commands at offsets the child has read before, and old commands at new ones, and it may mount the
child elsewhere again. The child re-syncs: it takes its position from the parent, which may be behind its
own, and remembers up to where commands can come a second time. It may also start again with another bundle
of contracts.

What the child holds it recognises by a memory that is read from its commands stream when it starts
(`loadCommandMemory`) and extended with what it stores. The two properties stated here compare that memory
with the stream itself: a command that names itself is not stored again while the stream retains it
(`StoredOnce`), and nothing is skipped that the stream never held (`SkippedHeld`).

`Apart` is the condition on steps under which both hold. The parent's incarnations are left out: whatever a
re-sync is told, and whether it takes place, is a choice of the run.
-/

namespace Colca.Rehanded

open Uns Downlink

/-- The same command: the child compares topic, payload and timestamp. -/
def SameCommand (a b : RecEnc) : Prop := a.topic = b.topic ∧ a.payload = b.payload ∧ a.ts = b.ts

instance : DecidableRel SameCommand := fun a b ↦
  inferInstanceAs (Decidable (a.topic = b.topic ∧ a.payload = b.payload ∧ a.ts = b.ts))

/-- The child's bundle takes the record for a command. -/
def isCommand (classOf : String → Uns.Class) (e : RecEnc) : Bool :=
  match parse e.topic with
  | .error _ => false
  | .ok p => (classOf p.contract).isCommand

/-- What a copy of the parent's store holds of the downlink. -/
structure Copy where
  commands : OffsetLog RecEnc
  mount : Path

/-- The last four fields are ghosts. -/
structure State (K : Type) where
  down : Downlink.State K := {}
  /-- The child's mount at the parent. -/
  mount : Path
  /-- The classes of the child's bundle. -/
  classOf : String → Uns.Class
  /-- `commandsRehandedBelow`. -/
  rehanded : ℕ := 0
  copies : List Copy := []
  /-- The records the child's commands stream ever held. -/
  held : List RecEnc := []
  /-- The local offsets of the handed records in it. -/
  handed : List ℕ := []
  /-- The local offsets of what others wrote to it since the child started. -/
  own : List ℕ := []
  /-- The handed commands that were skipped as already held. -/
  skipped : List RecEnc := []

inductive Event
  /-- A step of the downlink. -/
  | run (e : Downlink.Event)
  /-- The parent mounts the child elsewhere. -/
  | move (mount : Path)
  /-- The parent's store is copied, or replaced by a copy; its polls end with the process. -/
  | copy
  | restore (i : ℕ)
  /-- The child is placed against the parent's store at the position `resume`. -/
  | resync (resume head : ℕ)
  /-- The child stops, and starts again with another bundle. -/
  | upgrade (classOf : String → Uns.Class)

variable {K : Type}

namespace State

variable (cfg : Config K) (s : State K)

/-- The child's commands stream. -/
def commands : OffsetLog RecEnc := s.down.child.streams .commands

/-- The downlink as it is configured now. -/
def config : Config K :=
  { cfg with childClass := s.classOf, mount := s.mount, rehandedBelow := s.rehanded }

end State

/-! ### What the ghosts record -/

/-- The event stores what was handed. -/
def hands : Downlink.Event → Bool
  | .storePage _ | .storeOne _ => true
  | _ => false

/-- The offsets a write of handed records took. -/
def taken (e : Downlink.Event) (d d' : Downlink.State K) : List ℕ :=
  if hands e then
    ((d'.child.streams .commands).entries.filter fun x ↦
      (d.child.streams .commands).next ≤ x.1).map Prod.fst
  else []

/-- The page that is about to be stored. -/
def pageOf (d : Downlink.State K) : Downlink.Event → Option Answer
  | .storePage _ => match d.phase with
    | .storing _ page => some page
    | _ => none
  | _ => none

/-- The record that is about to be stored alone. -/
def oneOf (d : Downlink.State K) : Downlink.Event → Option (ℕ × RecEnc)
  | .storeOne _ => match d.phase with
    | .oneByOne _ (x :: _) _ => some x
    | _ => none
  | _ => none

section

variable [DecidableEq K]

/-- What `storePage` skips of a page: the commands it recognises, and all the others when the cursor says
that the page was stored before. -/
def skipsOfPage (cfg : Config K) (c : Child K) (page : Answer) : List RecEnc :=
  (page.records.filter fun x ↦ c.recognises cfg x).map Prod.snd ++
    match c.checkPage cfg (page.records.filter fun x ↦ !c.recognises cfg x) with
    | some (kept, _) => if page.next ≤ c.cursor then kept.map Prod.snd else []
    | none => []

/-- A record alone is skipped when the cursor is past it. -/
def skipsOne (cfg : Config K) (c : Child K) (x : ℕ × RecEnc) : List RecEnc :=
  match c.checkOne cfg x with
  | some (some _) => if x.1 + 1 ≤ c.cursor then [x.2] else []
  | _ => []

/-- What an event skips as already held. -/
def skips (cfg : Config K) (d : Downlink.State K) (e : Downlink.Event) : List RecEnc :=
  ((pageOf d e).map (skipsOfPage cfg d.child)).getD [] ++
    ((oneOf d e).map (skipsOne cfg d.child)).getD []

end

namespace State

variable (s : State K)

/-- Others write to the commands stream; a child that starts reads all of it. -/
def ownAfter : Downlink.Event → List ℕ
  | .localAppend .commands _ => s.own ++ [s.commands.next]
  | .restart => []
  | _ => s.own

variable [DecidableEq K] (cfg : Config K)

/-- The state after an event of the downlink that led to `d`. -/
def observe (e : Downlink.Event) (d : Downlink.State K) : State K :=
  { s with
    down := d
    held := s.held ++ (d.child.streams .commands).entries.map Prod.snd
    handed := s.handed ++ taken e s.down d
    own := s.ownAfter e
    skipped := s.skipped ++ skips (s.config cfg) s.down e }

/-- A step of the downlink. -/
def runDown (e : Downlink.Event) : Option (State K) :=
  (Downlink.step (s.config cfg) s.down e).map (s.observe cfg e)

end State

/-- The parent's store is replaced. -/
def State.restored (s : State K) (c : Copy) : State K :=
  { s with down := { s.down with parent := c.commands, polls := [] }, mount := c.mount }

/-- `resync`, as far as commands are concerned. -/
def State.placed (s : State K) (resume head : ℕ) : State K :=
  { s with
    down := { s.down with child := { s.down.child with
      cursor := max resume 1
      seat := s.down.child.seat <|> some (max resume 1) } }
    rehanded := head }

section

variable [DecidableEq K]

/-- The state after an event, if it can happen. The loop re-syncs between two polls. -/
def step (cfg : Config K) (s : State K) : Event → Option (State K)
  | .run e => s.runDown cfg e
  | .move mount => some { s with mount }
  | .copy => some { s with copies := s.copies ++ [⟨s.down.parent, s.mount⟩] }
  | .restore i => s.copies[i]?.map s.restored
  | .resync resume head => match s.down.phase with
    | .idle => some (s.placed resume head)
    | _ => none
  | .upgrade classOf => State.runDown { s with classOf } cfg .restart

/-- A parent and a child that has not met it yet. -/
def system (cfg : Config K) : StateMachine (State K) Event where
  start := { mount := cfg.mount, classOf := cfg.childClass }
  step := step cfg

end

/-! ### The properties -/

/-- **Stored once**: no handed command that names itself is in the child's commands stream beside an earlier
record of the same command. -/
def StoredOnce (cfg : Config K) (s : State K) : Prop :=
  ∀ x ∈ s.commands.entries, ∀ y ∈ s.commands.entries, x.1 < y.1 → y.1 ∈ s.handed →
    cfg.hasCorrelationID y.2.payload → ¬ SameCommand x.2 y.2

/-- **Skipped because held**: the commands stream once held every command that was skipped as held. -/
def SkippedHeld (s : State K) : Prop := ∀ e ∈ s.skipped, ∃ y ∈ s.held, SameCommand y e

/-- The key names the command. -/
def KeyInjective (cfg : Config K) : Prop := ∀ a b, cfg.key a = cfg.key b → SameCommand a b

/-! ### The condition -/

/-- The child has the command from the downlink, or from before it started. -/
def Retained (s : State K) (e : RecEnc) : Prop :=
  ∃ x ∈ s.commands.entries, x.1 ∉ s.own ∧ SameCommand x.2 e

/-- Nobody else wrote the command to the child's commands stream since the child started. -/
def NotOwn (s : State K) (e : RecEnc) : Prop :=
  ∀ x ∈ s.commands.entries, x.1 ∈ s.own → ¬ SameCommand x.2 e

instance (s : State K) (e : RecEnc) : Decidable (Retained s e) :=
  inferInstanceAs (Decidable (∃ x ∈ s.commands.entries, x.1 ∉ s.own ∧ SameCommand x.2 e))

instance (s : State K) (e : RecEnc) : Decidable (NotOwn s e) :=
  inferInstanceAs (Decidable (∀ x ∈ s.commands.entries, x.1 ∈ s.own → ¬ SameCommand x.2 e))

/-- No two commands of the page that name themselves are the same, unless the child has it already. -/
def PageApart (cfg : Config K) (s : State K) (page : Answer) : Prop :=
  page.records.Pairwise fun x y ↦
    cfg.hasCorrelationID x.2.payload → SameCommand x.2 y.2 → Retained s x.2

/-- What the child does not take for a command, and could recognise, it never stored. -/
def ClassesAgree (cfg : Config K) (s : State K) (page : Answer) : Prop :=
  ∀ x ∈ page.records, cfg.hasCorrelationID x.2.payload ∨ x.1 < s.rehanded →
    isCommand s.classOf x.2 = false → ∀ e ∈ s.down.child.history, ¬ SameCommand e x.2

/-- A page that can be stored command by command. -/
def PageClear (cfg : Config K) (s : State K) (page : Answer) : Prop :=
  PageApart cfg s page ∧ ClassesAgree cfg s page ∧
    ∀ x ∈ page.records, cfg.hasCorrelationID x.2.payload → NotOwn s x.2 ∨ Retained s x.2

instance (cfg : Config K) (s : State K) (page : Answer) : Decidable (PageClear cfg s page) :=
  inferInstanceAs (Decidable (List.Pairwise _ _ ∧ (∀ x ∈ page.records,
    cfg.hasCorrelationID x.2.payload ∨ x.1 < s.rehanded →
      isCommand s.classOf x.2 = false → ∀ e ∈ s.down.child.history, ¬ SameCommand e x.2) ∧
    ∀ x ∈ page.records, cfg.hasCorrelationID x.2.payload → NotOwn s x.2 ∨ Retained s x.2))

/-- The page in hand is clear, and the record that is stored alone is nobody else's. -/
def ClearStep (cfg : Config K) (s : State K) (e : Downlink.Event) : Prop :=
  (∀ page ∈ pageOf s.down e, PageClear cfg s page) ∧
    ∀ x ∈ oneOf s.down e, cfg.hasCorrelationID x.2.payload → NotOwn s x.2

/-- **The condition on the steps that store commands.** -/
def Apart (cfg : Config K) (s : State K) : Event → Prop
  | .run e => ClearStep cfg s e
  | _ => True

instance (cfg : Config K) (s : State K) (e : Downlink.Event) : Decidable (ClearStep cfg s e) :=
  inferInstanceAs (Decidable ((∀ page ∈ pageOf s.down e, PageClear cfg s page) ∧
    ∀ x ∈ oneOf s.down e, cfg.hasCorrelationID x.2.payload → NotOwn s x.2))

instance (cfg : Config K) : ∀ (s : State K) (e : Event), Decidable (Apart cfg s e)
  | s, .run e => inferInstanceAs (Decidable (ClearStep cfg s e))
  | _, .move _ | _, .copy | _, .restore _ | _, .resync .. | _, .upgrade _ =>
    inferInstanceAs (Decidable True)

end Colca.Rehanded
