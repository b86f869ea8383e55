import Colca.Lib.StateMachine
import Colca.Repl.DownlinkPoll

/-!
# Storing downlink commands

The loop of `RunDownlink` on commands. The child polls from its cursor, asks once more when it was handed
something, and stores the page: in one write together with the cursor past it when it can, command by
command with a cursor move each when it cannot. It leaves out commands it recognises as ones it holds, and
those it refuses.

A write is committed before its records are published to readers; those are two steps here, and a crash
may fall between any two steps. The parent meanwhile appends and prunes commands and may refuse to forward
some. Answers may be lost, and late polls may be answered to nobody.

Left out are re-syncs (neither store is restored) and the definitions that travel in the same answers.
-/

namespace Colca.Downlink

open Uns

/-- A parent and one child, and what of their code is outside the model. -/
structure Config (K : Type) where
  /-- The engines' classes of contracts. -/
  parentClass : String → Uns.Class
  childClass : String → Uns.Class
  /-- The child's mount at the parent. -/
  mount : Path
  /-- The hash that stands for a command in the child's memory. -/
  commandKey : Topic → Payload → ℤ → K
  hasCorrelationID : Payload → Bool
  /-- The parent offset below which held commands are handed a second time. -/
  rehandedBelow : ℕ

/-- The key of a record. -/
def Config.key {K : Type} (cfg : Config K) (e : RecEnc) : K := cfg.commandKey e.topic e.payload e.ts

variable {K : Type} [DecidableEq K]

/-! ### The memory of commands held -/

/-- The commands the child knows it holds, with the local offset of each. -/
structure CommandMemory (K : Type) where
  seen : List (K × ℕ) := []
  /-- The size at which what retention removed is dropped. -/
  pruneAt : ℕ := 4096

namespace CommandMemory

def holds (m : CommandMemory K) (k : K) : Bool := m.seen.any (·.1 == k)

/-- Remember a command stored at a local offset. -/
def add (m : CommandMemory K) (k : K) (off lwm : ℕ) : CommandMemory K :=
  let seen := (k, off) :: m.seen.filter fun x ↦ x.1 ≠ k
  if seen.length < m.pruneAt then { m with seen }
  else
    let kept := seen.filter fun x ↦ lwm ≤ x.2
    { seen := kept, pruneAt := 2 * kept.length + 4096 }

/-- `loadCommandMemory`: every command that the local stream retains. -/
def load (cfg : Config K) (l : OffsetLog RecEnc) : CommandMemory K :=
  let commands := l.entries.filter fun x ↦
    match parse x.2.topic with
    | .error _ => false
    | .ok p => (cfg.childClass p.contract).isCommand
  let seen := commands.foldl (fun seen x ↦ (cfg.key x.2, x.1) :: seen.filter fun y ↦ y.1 ≠ cfg.key x.2) []
  { seen, pruneAt := 2 * seen.length + 4096 }

end CommandMemory

/-! ### The child's store -/

/-- A command the child stored. -/
structure Stored where
  /-- Its offset at the parent. -/
  off : ℕ
  command : RecEnc
  /-- The position of the cursor in the same write. -/
  upTo : ℕ
  deriving DecidableEq

/-- The child. `seat`, `refused` and `history` are ghosts, and so are the lists of commands stored. -/
structure Child (K : Type) where
  /-- The commands cursor. -/
  cursor : ℕ := 1
  /-- Where the first handshake put the cursor. -/
  seat : Option ℕ := none
  streams : Stream → OffsetLog RecEnc := fun _ ↦ .empty
  /-- The mounts of draining children of this node. -/
  draining : List Path := []
  memory : CommandMemory K := {}
  /-- The commands stored that readers can read. -/
  shown : List Stored := []
  /-- Those committed whose head is not published yet. -/
  pending : List Stored := []
  /-- The parent's offsets of the commands refused. -/
  refused : List ℕ := []
  /-- Every record the child ever stored. -/
  history : List RecEnc := []

namespace Child

variable (cfg : Config K) (c : Child K)

/-- The commands stored. -/
def stored : List Stored := c.shown ++ c.pending

/-- The command is held already: it is in memory, and it names itself or is handed a second time. -/
def recognises (x : ℕ × RecEnc) : Bool :=
  c.memory.holds (cfg.key x.2) &&
    (cfg.hasCorrelationID x.2.payload || decide (x.1 < cfg.rehandedBelow))

def drainingMount (path : Path) : Bool := c.draining.any (underMount path)

/-- The checks of `IngestDownlinkPage`: the commands it keeps and those it refuses, `none` when the page
holds a record that is not a command. -/
def checkPage : List (ℕ × RecEnc) → Option (List (ℕ × RecEnc) × List (ℕ × RecEnc))
  | [] => some ([], [])
  | x :: xs =>
    match parse x.2.topic with
    | .error _ => (checkPage xs).map fun r ↦ (r.1, x :: r.2)
    | .ok p =>
      if !(cfg.childClass p.contract).isCommand then none
      else if c.drainingMount p.path then (checkPage xs).map fun r ↦ (r.1, x :: r.2)
      else (checkPage xs).map fun r ↦ (x :: r.1, r.2)

/-- Where `IngestDownlinkAttributed` stores a record, `none` for one it refuses. A record of a class
without a stream goes nowhere: storing it fails. -/
def checkOne (x : ℕ × RecEnc) : Option (Option Stream) :=
  match parse x.2.topic with
  | .error _ => none
  | .ok p =>
    let cls := cfg.childClass p.contract
    if cls.isCommand && c.drainingMount p.path then none else some (streamFor cls)

/-- A record gets its local offset as its origin. -/
def localRecord (off : ℕ) (e : RecEnc) : RecEnc := { e with originOffset := off }

/-- `appendAdvancingLocked`, committed: the records and the cursor in one write. -/
def append (stream : Stream) (recs : List (ℕ × RecEnc)) (upTo : ℕ) : Child K :=
  { c with
    cursor := upTo
    streams := Function.update c.streams stream
      (recs.foldl (fun l x ↦ l.append (localRecord l.next x.2)) (c.streams stream))
    pending := recs.map fun x ↦ ⟨x.1, x.2, upTo⟩
    history := c.history ++ recs.map Prod.snd }

/-- The records committed are published, and remembered. -/
def publish (first : ℕ) : Child K :=
  { c with
    shown := c.shown ++ c.pending
    pending := []
    memory := (c.pending.zipIdx first).foldl
      (fun m x ↦ m.add (cfg.key x.1.command) x.2 (c.streams .commands).lwm) c.memory }

end Child

/-! ### The system -/

/-- What the child's loop is doing; `after` is the cursor it polled from. -/
inductive Phase
  | idle
  /-- It waits for an answer; `page` is the page it asked to confirm. -/
  | asked (id after : ℕ) (page : Option Answer)
  /-- It has a page to store. -/
  | storing (after : ℕ) (page : Answer)
  /-- A write is committed from the local offset `first` on, and not published yet. -/
  | publishing (after first : ℕ) (rest : List (ℕ × RecEnc)) (next : ℕ)
  /-- It stores the rest of a page command by command. -/
  | oneByOne (after : ℕ) (rest : List (ℕ × RecEnc)) (next : ℕ)
  /-- It moves the cursor. -/
  | acking (after ackTo : ℕ)

structure State (K : Type) where
  parent : OffsetLog RecEnc := .empty
  /-- The offsets of commands the parent refused to forward. -/
  withheld : List ℕ := []
  requests : List Request := []
  polls : List Poll := []
  answers : List Answer := []
  child : Child K := {}
  phase : Phase := .idle

/-- A step of a party. -/
inductive Event
  /-- The parent's stream grows, or loses its old end. -/
  | append (e : RecEnc)
  | prune (upTo : ℕ)
  /-- A poll reaches the parent. -/
  | arrive (id : ℕ)
  /-- A poll at the parent reads on and goes on waiting. -/
  | wait (i : ℕ)
  /-- A poll is answered without the commands at the offsets `refused`. -/
  | answer (i : ℕ) (refused : List ℕ)
  /-- The first handshake seats the cursor at a head of the parent's stream. -/
  | seat (head : ℕ)
  /-- The child polls. -/
  | poll (max : ℕ)
  /-- The child receives an answer: it asks again if it was handed commands, unless it did so already. -/
  | receive (k max : ℕ)
  /-- The page could not be confirmed: the child takes the one in hand. -/
  | keep
  /-- The child gives up its request. -/
  | drop
  /-- `storePage` up to its one write, which may fail. -/
  | storePage (ok : Bool)
  /-- The next command is stored alone, which may fail. -/
  | storeOne (ok : Bool)
  /-- The head is published after a write. -/
  | publish
  /-- The cursor is moved, which may fail. -/
  | ack (ok : Bool)
  /-- Something else is stored at the child, or removed by its retention. -/
  | localAppend (stream : Stream) (e : RecEnc)
  | localPrune (stream : Stream) (upTo : ℕ)
  /-- Children of the child start or end draining. -/
  | drain (mounts : List Path)
  /-- The child stops at any point and starts again. -/
  | restart

namespace State

variable (cfg : Config K) (s : State K)

/-- Send a poll at a position. -/
def send (after max : ℕ) (confirm : Bool) (page : Option Answer) : State K :=
  { s with
    requests := s.requests ++ [⟨after, max, confirm⟩]
    phase := .asked s.requests.length after page }

/-- A request arrives. -/
def handle (id : ℕ) (r : Request) : State K :=
  { s with polls := s.polls ++ [.arrive id r cfg.mount] }

/-- `AppendAdvancing` of a page or a command with the cursor past it, committed. -/
def write (stream : Stream) (recs : List (ℕ × RecEnc)) (upTo : ℕ) (refused : List (ℕ × RecEnc))
    (after : ℕ) (rest : List (ℕ × RecEnc)) (next : ℕ) : State K :=
  { s with
    child := { s.child.append stream recs upTo with
      refused := s.child.refused ++ refused.map Prod.fst }
    phase := .publishing after (s.child.streams stream).next rest next }

/-- Commands are refused, and nothing is written. -/
def refuse (refused : List (ℕ × RecEnc)) (phase : Phase) : State K :=
  { s with child := { s.child with refused := s.child.refused ++ refused.map Prod.fst }, phase }

/-- `storePage` up to its one write. -/
def storePage (after : ℕ) (page : Answer) (ok : Bool) : State K :=
  let fresh := page.records.filter fun x ↦ !s.child.recognises cfg x
  if fresh.isEmpty then { s with phase := .acking after page.next }
  else match s.child.checkPage cfg fresh with
    | none => { s with phase := .oneByOne after fresh page.next }
    | some (kept, refused) =>
      if kept.isEmpty || decide (page.next ≤ s.child.cursor) then
        -- nothing to write, or stored before
        s.refuse refused (.acking after page.next)
      else if ok then s.write .commands kept page.next refused after [] page.next
      else { s with phase := .oneByOne after fresh page.next }

/-- One round of the loop that stores a page command by command. -/
def storeOne (after : ℕ) (x : ℕ × RecEnc) (rest : List (ℕ × RecEnc)) (next : ℕ) (ok : Bool) :
    State K :=
  match s.child.checkOne cfg x with
  | none => s.refuse [x] (.oneByOne after rest next)
  | some none => { s with phase := .acking after x.1 }
  | some (some stream) =>
    if x.1 + 1 ≤ s.child.cursor then { s with phase := .oneByOne after rest next }
    else if ok then s.write stream [x] (x.1 + 1) [] after rest next
    else { s with phase := .acking after x.1 }

end State

/-- The state after an event, if it can happen. -/
def step (cfg : Config K) (s : State K) : Event → Option (State K)
  | .append e => some { s with parent := s.parent.append e }
  | .prune upTo => some { s with parent := s.parent.prune upTo }
  | .arrive id => s.requests[id]?.map (s.handle cfg id)
  | .wait i => s.polls[i]?.bind fun p ↦
      if p.mayWait cfg.parentClass s.parent then
        some { s with polls := s.polls.set i (p.wait cfg.parentClass s.parent) }
      else none
  | .answer i refused => s.polls[i]?.map fun p ↦
      { s with
        polls := s.polls.eraseIdx i
        withheld := s.withheld ++
          ((p.read cfg.parentClass s.parent).1.filter fun x ↦ refused.contains x.1).map Prod.fst
        answers := s.answers ++ [p.answer cfg.parentClass s.parent fun x ↦ refused.contains x.1] }
  | .seat head => match s.child.seat with
    | none =>
      if 1 ≤ head ∧ head ≤ s.parent.next then
        some { s with child := { s.child with cursor := head, seat := some head } }
      else none
    | some _ => none
  | .poll max => match s.phase, s.child.seat with
    | .idle, some _ => some (s.send s.child.cursor max false none)
    | _, _ => none
  | .receive k max => match s.phase, s.answers[k]? with
    | .asked id after page, some a =>
      if a.id ≠ id then none
      else if page.isNone && !a.records.isEmpty then some (s.send after max true (some a))
      else some { s with phase := .storing after a }
    | _, _ => none
  | .keep => match s.phase with
    | .asked _ after (some page) => some { s with phase := .storing after page }
    | _ => none
  | .drop => match s.phase with
    | .asked .. => some { s with phase := .idle }
    | _ => none
  | .storePage ok => match s.phase with
    | .storing after page => some (s.storePage cfg after page ok)
    | _ => none
  | .storeOne ok => match s.phase with
    | .oneByOne after (x :: rest) next => some (s.storeOne cfg after x rest next ok)
    | .oneByOne after [] next => some { s with phase := .acking after next }
    | _ => none
  | .publish => match s.phase with
    | .publishing after first rest next =>
      some { s with child := s.child.publish cfg first, phase := .oneByOne after rest next }
    | _ => none
  | .ack ok => match s.phase with
    | .acking after ackTo =>
      some { s with
        child := { s.child with
          cursor := if ok && decide (after < ackTo) then max s.child.cursor ackTo else s.child.cursor }
        phase := .idle }
    | _ => none
  | .localAppend stream e => match s.phase with
    | .publishing .. => none -- the writer holds the store's lock
    | _ => some { s with child := { s.child with
        streams := Function.update s.child.streams stream ((s.child.streams stream).append e)
        history := s.child.history ++ [e] } }
  | .localPrune stream upTo => some { s with child := { s.child with
      streams := Function.update s.child.streams stream ((s.child.streams stream).prune upTo) } }
  | .drain mounts => some { s with child := { s.child with draining := mounts } }
  | .restart => some { s with
      child := { s.child with
        shown := s.child.shown ++ s.child.pending
        pending := []
        memory := .load cfg (s.child.streams .commands) }
      phase := .idle }

/-- A parent and a child that has not met it yet. -/
def system (cfg : Config K) : StateMachine (State K) Event where
  start := {}
  step := step cfg

end Colca.Downlink
