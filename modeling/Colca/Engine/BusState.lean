import Colca.Lib.StateMachine
import Colca.Uns.Catalogues
import Mathlib.Data.List.AList

/-!
# The store, the bus and the producer index

What a node shows of its current state outside the store: the retained messages of its MQTT bus, and
the index that says which catalogue holds a data tag. Every door commits to the store first and then,
in separate steps on the caller's goroutine, updates the index and publishes on the bus; a replicated
push hands its messages to a queue that one goroutine publishes from.

## What a step is

A commit is one step, since the store's lock orders commits. So is each index update (it holds the
index's lock), each publish, and the hand-over to the queue. Between two of them any other ingest may
take any of its own: `Event.run` names the ingest that moves.

## What is left out

The doors' checks of grants and schemas, which decide what is admitted and nothing after it: an ingest
may carry any records a door could admit. The current state is kept by topic alone, because every
writer derives the path and the node of an entry from its topic. The queue's capacity only delays a
hand-over. A restart publishes the current state before the bus is served, in one step.
-/

namespace Colca.Bus

open Uns

/-- The parts of a node's configuration the doors and the bus read. -/
structure Config where
  /-- The node's own id. -/
  ulid : String
  /-- The routing class of a contract, from the loaded bundle. -/
  classOf : String → Uns.Class
  /-- `bus.retain_child_metrics`. -/
  retainChildMetrics : Bool
  /-- The tag ids in a catalogue payload. -/
  dataTags : Payload → Option (List String)
  root : String
  version : String

/-- How a record appears on the bus: state is retained, commands and events are not. -/
def retainFor (c : Uns.Class) : Bool := c.isState

/-- The topic has a path to keep current state under: with an empty one `addRecord` writes no
entry. -/
def hasPath (t : Topic) : Bool :=
  match parse t with
  | .ok p => p.path != noPath
  | .error _ => false

namespace Config

variable (cfg : Config)

/-- A metric another node authored, on a bus that does not retain such records. -/
def childMetric (p : Parsed) : Bool :=
  p.contract = "_Metric" && p.nodeID != cfg.ulid && !cfg.retainChildMetrics

/-- `retainFor` for one record. -/
def retainOnBus (p : Parsed) : Bool := retainFor (cfg.classOf p.contract) && !cfg.childMetric p

/-- The record at a topic is kept as a retained message. -/
def retainTopic (t : Topic) : Bool :=
  match parse t with
  | .ok p => cfg.retainOnBus p
  | .error _ => false

/-- The class of a topic's contract. -/
def topicClass (t : Topic) : Uns.Class :=
  match parse t with
  | .ok p => cfg.classOf p.contract
  | .error _ => .none

/-- The topic is one of this node's catalogues. -/
def isCatalogue (t : Topic) : Bool :=
  match parse t with
  | .ok p => p.contract = "_DataTags" && p.nodeID = cfg.ulid
  | .error _ => false

/-- A local door may admit a record at the topic. -/
def admits (t : Topic) : Bool :=
  match parse t with
  | .ok p => (cfg.classOf p.contract).isKnown && p.contract != "_EnrolledIdentity"
  | .error _ => false

/-- The replication door may admit a record at the topic: a class this node knows has to be one that
flows up. -/
def admitsPushed (t : Topic) : Bool :=
  match parse t with
  | .ok p => !(cfg.classOf p.contract).isKnown || (cfg.classOf p.contract).flowsUp
  | .error _ => false

/-- The topic of an identity's registry record. -/
def topicFor (ulid : String) : Topic :=
  [cfg.root, cfg.version, "_EnrolledIdentity", cfg.ulid, "_colca", "identities", ulid]

/-- A record of this node that only the service it describes may write. -/
def authoredHere (t : Topic) : Bool :=
  match parse t with
  | .ok p => p.contract = "_ServiceDetails" && p.nodeID = cfg.ulid
  | .error _ => false

/-- A record a child replicated up, which goes when the child is retired. -/
def replicatedUp (t : Topic) : Bool :=
  match parse t with
  | .ok p => p.nodeID != cfg.ulid && !isNodePrivate p.contract && (cfg.classOf p.contract).isOwnedState
  | .error _ => false

end Config

/-! ### Current state -/

/-- The current state of a store: the payload at each topic. -/
abbrev KV := AList fun _ : Topic ↦ Payload

/-- What a payload leaves at its topic, in the store as on the bus: an empty one clears it. -/
def held (p : Payload) : Option Payload := if p = [] then none else some p

/-- Project a record into the current state. -/
def put (kv : KV) (t : Topic) (p : Payload) : KV := if p = [] then kv.erase t else kv.insert t p

/-- The catalogues of this node in the current state. -/
def catalogues (cfg : Config) (kv : KV) : List (Topic × Payload) :=
  (kv.entries.map fun e ↦ (e.1, e.2)).filter fun r ↦ cfg.isCatalogue r.1

/-- The topics of the catalogues that hold a tag, by an index built from the current state. The source
returns them sorted. -/
def rebuild (cfg : Config) (kv : KV) (tag : String) : Finset Topic :=
  (({} : CatalogueIndex).load cfg.dataTags (catalogues cfg kv)).holders tag

/-! ### Ingests -/

/-- A committed record. `seq` numbers the commits of a node; the code never sees it. -/
structure Committed where
  seq : ℕ
  topic : Topic
  payload : Payload
  deriving DecidableEq, Repr

/-- A message for the local bus. -/
structure BusMsg extends Committed where
  retain : Bool
  deriving DecidableEq, Repr

/-- What an ingest still has to do after its commit. -/
inductive Act
  /-- Fold a record into the index. -/
  | observe (c : Committed)
  /-- Publish a record on the bus. -/
  | deliver (m : BusMsg)
  /-- Hand a push to the delivery queue. -/
  | handOver (ms : List BusMsg)
  deriving DecidableEq, Repr

/-- The records of one commit, numbered. -/
def number : ℕ → List (Topic × Payload) → List Committed
  | _, [] => []
  | n, r :: rs => ⟨n, r.1, r.2⟩ :: number (n + 1) rs

/-- The goroutine that publishes what replicated pushes handed over. -/
inductive Deliverer
  /-- None runs: a push publishes its own records. -/
  | absent
  | running
  /-- Its stop channel is closed; it may still publish, and a push may go either way. -/
  | stopping
  deriving DecidableEq, Repr

structure State where
  kv : KV := ∅
  /-- The number of the next committed record. -/
  next : ℕ := 0
  /-- The retained messages of the bus. -/
  retained : Topic → Option Payload := fun _ ↦ none
  index : CatalogueIndex := {}
  /-- What each ingest still has to do. -/
  ingests : List (List Act) := []
  /-- Messages handed over and not yet published. -/
  queue : List BusMsg := []
  deliverer : Deliverer := .absent

inductive Event
  /-- A client publish, a batch for one stream, an executor's commit or a definition from above. -/
  | ingest (recs : List (Topic × Payload))
  /-- The pruner restates an entry that has not changed since it was read. -/
  | refresh (t : Topic)
  /-- Retained records of one contract move with a position. -/
  | move (contract : String) (moves : List (Topic × Topic))
  /-- The newly applied records of a child's push. -/
  | replicated (recs : List (Topic × Payload))
  | enroll (ulid : String) (entry : Payload)
  /-- A revoke, or with `retired` records a retirement. -/
  | revoke (ulid : String) (authored retired : List Topic)
  /-- An ingest takes its next step. -/
  | run (i : ℕ)
  /-- A push hands its messages over, or publishes them itself. -/
  | handOver (i : ℕ) (direct : Bool)
  /-- The deliverer publishes the next message. -/
  | deliverQueued
  /-- Somebody asks the index. -/
  | ask
  | startDelivery
  | stopDelivery
  | exitDelivery
  | restart

namespace State

/-- The topics of the catalogues that hold a tag. -/
def holders (cfg : Config) (s : State) (tag : String) : Finset Topic :=
  (s.index.load cfg.dataTags (catalogues cfg s.kv)).holders tag

/-- Commit records, of which those that `project` says have a key-value projection; an ingest goes on
with `acts`. -/
def commit (s : State) (cs : List Committed) (project : Topic → Bool) (acts : List Act) : State :=
  { s with
    kv := cs.foldl (fun kv c ↦ if project c.topic then put kv c.topic c.payload else kv) s.kv
    next := s.next + cs.length
    ingests := s.ingests ++ [acts] }

/-- Publish a message: a retained one replaces what the bus keeps at its topic. -/
def publish (s : State) (m : BusMsg) : State :=
  { s with
    retained := if m.retain then Function.update s.retained m.topic (held m.payload) else s.retained }

/-- Fold a record into the index, which ignores everything but this node's catalogues. -/
def observe (cfg : Config) (s : State) (c : Committed) : State :=
  { s with
    index := if cfg.isCatalogue c.topic then s.index.observe cfg.dataTags c.topic c.payload
      else s.index }

/-- What an ingest has to do next. -/
def nextAct (s : State) (i : ℕ) : Option Act := s.ingests[i]?.bind List.head?

/-- The ingest's next step is replaced by others. -/
def replaceAct (s : State) (i : ℕ) (acts : List Act) : State :=
  { s with ingests := s.ingests.set i (acts ++ (s.ingests[i]?.getD []).tail) }

end State

/-! ### The steps of an ingest -/

/-- After a local door's commit: each record's index update, then its delivery. -/
def localActs (retain : Topic → Bool) (cs : List Committed) : List Act :=
  cs.flatMap fun c ↦ [.observe c, .deliver ⟨c, retain c.topic⟩]

/-- After a push: every index update, then the hand-over. -/
def pushActs (cfg : Config) (cs : List Committed) : List Act :=
  cs.map .observe ++ [.handOver (cs.map fun c ↦ ⟨c, cfg.retainTopic c.topic⟩)]

/-- After a registry commit: deliveries only. -/
def registryActs (cs : List Committed) : List Act := cs.map fun c ↦ .deliver ⟨c, true⟩

/-- The records a move writes: each record that stands at its source is restated at its destination,
unless that is taken, and retired at its source. -/
def moveRecords (kv : KV) (moves : List (Topic × Topic)) : List (Topic × Payload) :=
  moves.flatMap fun m ↦
    match kv.lookup m.1 with
    | none => []
    | some p => (if (kv.lookup m.2).isNone then [(m.2, p)] else []) ++ [(m.1, [])]

/-- The topic is of the contract, and this node's. -/
def Config.moves (cfg : Config) (contract : String) (t : Topic) : Bool :=
  match parse t with
  | .ok p => p.contract = contract && p.nodeID = cfg.ulid
  | .error _ => false

/-- What a commit of each door does, `none` when the door does not make it. -/
def commitStep (cfg : Config) (s : State) : Event → Option State
  | .ingest recs =>
    if recs.all fun r ↦ cfg.admits r.1 then
      let cs := number s.next recs
      some (s.commit cs (fun t ↦ (cfg.topicClass t).isState && hasPath t)
        (localActs (fun t ↦ retainFor (cfg.topicClass t)) cs))
    else none
  | .refresh t =>
    match s.kv.lookup t with
    | some p =>
      if (cfg.topicClass t).isOwnedState && hasPath t then
        let c : Committed := ⟨s.next, t, p⟩
        -- the index is not told: the payload is the one it knows
        some (s.commit [c] (fun _ ↦ true) [.deliver ⟨c, retainFor (cfg.topicClass t)⟩])
      else none
    | none => none
  | .move contract moves =>
    if moves.all fun m ↦ cfg.moves contract m.1 && cfg.moves contract m.2 then
      let cs := number s.next (moveRecords s.kv moves)
      some (s.commit cs hasPath (localActs cfg.retainTopic cs))
    else none
  | .replicated recs =>
    if recs.all fun r ↦ cfg.admitsPushed r.1 then
      let cs := number s.next recs
      some (s.commit cs (fun t ↦ (cfg.topicClass t).isOwnedState && hasPath t) (pushActs cfg cs))
    else none
  | .enroll ulid entry =>
    if entry ≠ [] then
      let cs := number s.next [(cfg.topicFor ulid, entry)]
      some (s.commit cs (fun _ ↦ true) (registryActs cs))
    else none
  | .revoke ulid authored retired =>
    if authored.all cfg.authoredHere &&
        retired.all fun t ↦ cfg.replicatedUp t && (s.kv.lookup t).isSome then
      let cs := number s.next ((cfg.topicFor ulid :: authored ++ retired).map fun t ↦ (t, []))
      some (s.commit cs (fun _ ↦ true) (registryActs cs))
    else none
  | _ => none

/-- One event; `none` when it cannot happen. -/
def step (cfg : Config) (s : State) : Event → Option State
  | .run i =>
    match s.nextAct i with
    | some (.observe c) => some ((s.replaceAct i []).observe cfg c)
    | some (.deliver m) => some ((s.replaceAct i []).publish m)
    | _ => none
  | .handOver i direct =>
    match s.nextAct i with
    | some (.handOver ms) =>
      if direct then
        if s.deliverer = .running then none else some (s.replaceAct i (ms.map .deliver))
      else
        if s.deliverer = .absent then none
        else some { s.replaceAct i [] with queue := s.queue ++ ms }
    | _ => none
  | .deliverQueued =>
    match s.queue with
    | [] => none
    | m :: rest =>
      if s.deliverer = .absent then none else some ({ s with queue := rest }.publish m)
  | .ask => some { s with index := s.index.load cfg.dataTags (catalogues cfg s.kv) }
  | .startDelivery => if s.deliverer = .absent then some { s with deliverer := .running } else none
  | .stopDelivery => if s.deliverer = .running then some { s with deliverer := .stopping } else none
  | .exitDelivery => if s.deliverer = .stopping then some { s with deliverer := .absent } else none
  | .restart =>
    some
      { kv := s.kv
        next := s.next
        retained := fun t ↦ if cfg.retainTopic t then s.kv.lookup t else none }
  | e => commitStep cfg s e

/-- A node, its bus and its producer index. -/
def system (cfg : Config) : StateMachine State Event where
  start := {}
  step := step cfg

end Colca.Bus
