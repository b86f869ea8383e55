import Colca.Lib.StateMachine
import Colca.Store.Compact

/-!
# Definitions on the downlink

A parent hands its definitions to a child with every answer to a hello or a poll, from the position the
child asked with. The child stores them one by one and then moves its own position. A poll leaves the
position it asked with at the parent, as the cursor the parent's compaction takes its floor from; a hello
does not.

The parties move in any order. Requests and answers may be lost, an answer may take any time, the child
may give up and ask again, or stop at any point, and the parent's stream is written and compacted all the
while. A compaction looks at the cursors and commits later; the lock it holds meanwhile keeps writes away,
and not the polls, which leave cursors. Neither store is restored, so the checks of the stores' incarnations
pass and are left out.
-/

namespace Colca.Definitions

open Uns

/-- What a child asks with. -/
structure Request where
  hello : Bool
  defAfter : ℕ
  max : ℕ

/-- A request the parent is answering. -/
structure Handler where
  id : ℕ
  defAfter : ℕ
  limit : ℕ
  /-- The head that `readDefinitions` captured before it reads. -/
  head : Option ℕ := none

/-- An answer to a request. -/
structure Response where
  id : ℕ
  definitions : List (ℕ × RecEnc) := []
  defNext : ℕ := 0
  deriving DecidableEq

/-- What the child is doing. -/
inductive Phase
  | idle
  /-- It waits for the answer to a request; `page` is the page it asked to confirm. -/
  | asked (id : ℕ) (page : Option Response)
  /-- It goes through the definitions of a page. -/
  | applying (rest : List (ℕ × RecEnc)) (advanceTo : ℕ)
  deriving DecidableEq

/-- How storing one definition ended. -/
inductive Outcome
  | stored
  /-- By the child's contracts. -/
  | refused
  | failed

/-- The child: what it holds of its parent's definitions, and its position. -/
structure Child where
  view : Topic → Option (Payload × ℤ) := fun _ ↦ none
  cursor : ℕ := 1
  /-- Whether it ever refused a definition. -/
  refused : Bool := false

/-- A compaction that holds the lock of the streams and has looked at the cursors. -/
structure Locked where
  scan : CompactScan
  floor : ℕ
  /-- The parent kept a cursor for the child then: a ghost. -/
  seated : Bool

/-- A parent and one of its children. -/
structure State where
  stream : LatestStream := {}
  /-- The cursor `downlink-def:{child}`. -/
  defCursor : Option ℕ := none
  /-- What compactions read, committed or not. -/
  scans : List CompactScan := []
  locked : Option Locked := none
  /-- All requests and answers of the run; those to come are the parties' choice. -/
  requests : List Request := []
  handlers : List Handler := []
  responses : List Response := []
  child : Child := {}
  phase : Phase := .idle

/-- A step of a party. -/
inductive Event
  /-- A definition, or a retraction, is written at the parent. -/
  | write (e : RecEnc)
  /-- A compaction reads the stream. -/
  | scan
  /-- A compaction takes the lock and the floor; `others` are the other cursors on the stream. -/
  | look (i : ℕ) (others : List ℕ)
  /-- It drops what it may. -/
  | commit
  /-- The child sends a hello or a poll. -/
  | ask (hello : Bool) (max : ℕ)
  /-- The request reaches the parent. -/
  | arrive (id : ℕ)
  /-- The parent captures the head of its stream for an answer. -/
  | capture (i : ℕ)
  /-- The parent reads the definitions and answers; the read may fail. -/
  | respond (i : ℕ) (ok : Bool)
  /-- The child receives an answer to the request it waits for. -/
  | receive (k : ℕ)
  /-- The child receives an answer with commands, and asks again to confirm it. -/
  | confirm (k max : ℕ)
  /-- The page could not be confirmed: the child takes the one in hand. -/
  | keep
  /-- The child goes on to the next definition of the page. -/
  | apply (o : Outcome)
  /-- The child moves its position. -/
  | ack
  /-- The child gives up its request, or stops and starts again. -/
  | stop

def maxDownlinkMax : ℕ := 500
def defaultDownlinkMax : ℕ := 200

/-- The page size of a request. -/
def pageLimit (max : ℕ) : ℕ := if max = 0 ∨ maxDownlinkMax < max then defaultDownlinkMax else max

/-- `CursorAck`: forward only, and no cursor is made for the first position. -/
def cursorAck (c : Option ℕ) (off : ℕ) : Option ℕ := if c.getD 1 < off then some off else c

/-- What the reader of definitions returns, the head captured before the read. -/
def readDefinitions (source : OffsetLog RecEnc) (head after limit : ℕ) : List (ℕ × RecEnc) × ℕ :=
  let next := source.pageNext after limit
  -- compaction may leave no rows between the old cursor and the captured head
  (source.page after limit, if next = after ∧ next < head then head else next)

/-- The child holds the definition, byte for byte; a retraction is always applied. -/
def Child.holdsDefinition (c : Child) (e : RecEnc) : Bool :=
  !isRetraction e && c.view e.topic == some (e.payload, e.ts)

/-- The definition in the child's key-value view. -/
def Child.store (c : Child) (e : RecEnc) : Child :=
  { c with
    view := Function.update c.view e.topic (if isRetraction e then none else some (e.payload, e.ts)) }

/-- One round of the loop of `applyDefinitions`. -/
def Child.apply (c : Child) (x : ℕ × RecEnc) (rest : List (ℕ × RecEnc)) (advanceTo : ℕ)
    (o : Outcome) : Child × Phase :=
  if c.holdsDefinition x.2 then (c, .applying rest advanceTo)
  else match o with
    | .stored => (c.store x.2, .applying rest advanceTo)
    | .refused => ({ c with refused := true }, .applying rest advanceTo)
    | .failed => (c, .applying [] x.1)

/-- An answer to the child had a record of the topic. -/
def Carried (responses : List Response) (t : Topic) : Prop :=
  ∃ r ∈ responses, ∃ x ∈ r.definitions, x.2.topic = t

instance (responses : List Response) (t : Topic) : Decidable (Carried responses t) :=
  inferInstanceAs (Decidable (∃ r ∈ _, _))

namespace State

variable (s : State)

/-- The floor of a compaction. -/
def floor (others : List ℕ) : ℕ := cursorFloor (s.defCursor.toList ++ others) s.stream.log.next

/-- Send a request at the child's position. -/
def send (hello : Bool) (max : ℕ) (page : Option Response) : State :=
  { s with
    requests := s.requests ++ [⟨hello, s.child.cursor, max⟩]
    phase := .asked s.requests.length page }

/-- Handle a request that arrives: a poll leaves its position, a hello does not. -/
def handle (id : ℕ) (r : Request) : State :=
  let defAfter := if r.defAfter = 0 then 1 else r.defAfter
  { s with
    defCursor := if r.hello then s.defCursor else cursorAck s.defCursor defAfter
    handlers := s.handlers ++ [{ id, defAfter, limit := pageLimit r.max }] }

/-- The answer to a request; one without definitions when they could not be read. -/
def response (h : Handler) (head : ℕ) (ok : Bool) : Response :=
  let page := readDefinitions s.stream.log head h.defAfter h.limit
  if ok then { id := h.id, definitions := page.1, defNext := page.2 } else { id := h.id }

/-- Start on the definitions of a page. -/
def take (r : Response) : State :=
  { s with phase := .applying r.definitions r.defNext }

end State

/-- The state after an event, if it can happen. -/
def step (s : State) : Event → Option State
  | .write e => if s.locked.isSome then none else some { s with stream := s.stream.write e }
  | .scan => some { s with scans := s.scans ++ [s.stream.scan] }
  | .look i others => if s.locked.isSome then none else s.scans[i]?.map fun c ↦
      { s with locked := some ⟨c, s.floor others, s.defCursor.isSome⟩ }
  | .commit => s.locked.map fun l ↦ { s with stream := s.stream.commit l.scan l.floor, locked := none }
  | .ask hello max => match s.phase with
    | .idle => some (s.send hello max none)
    | _ => none
  | .arrive id => s.requests[id]?.map (s.handle id)
  | .capture i => s.handlers[i]?.map fun h ↦
      { s with handlers := s.handlers.set i { h with head := some s.stream.log.next } }
  | .respond i ok => s.handlers[i]?.bind fun h ↦ h.head.map fun head ↦
      { s with responses := s.responses ++ [s.response h head ok], handlers := s.handlers.eraseIdx i }
  | .receive k => match s.phase, s.responses[k]? with
    | .asked id _, some r => if r.id = id then some (s.take r) else none
    | _, _ => none
  | .confirm k max => match s.phase, s.responses[k]? with
    | .asked id none, some r => if r.id = id then some (s.send false max (some r)) else none
    | _, _ => none
  | .keep => match s.phase with
    | .asked _ (some r) => some (s.take r)
    | _ => none
  | .apply o => match s.phase with
    | .applying (x :: rest) n =>
      let (child, phase) := s.child.apply x rest n o
      some { s with child, phase }
    | _ => none
  | .ack => match s.phase with
    | .applying [] n =>
      some { s with child := { s.child with cursor := max s.child.cursor n }, phase := .idle }
    | _ => none
  | .stop => some { s with phase := .idle }

/-- A parent and a child that has not asked yet. -/
def system : StateMachine State Event where
  start := {}
  step := step

end Colca.Definitions
