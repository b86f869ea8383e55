import Colca.Repl.UplinkParent

/-!
# A child and its parent

The uplink as a system: one child with its lanes, one parent with its store, and the requests and
answers between them. Every step either party takes on its own is an event, so a run is any
interleaving of them.

* `pushOnce` is five events: naming the epoch and the parent's incarnation, reading the cursor,
  reading the page, sending the batch, receiving the answer. Between two of them anything else may
  happen.
* The downlink loop is a hello or a poll and its answer. A hello may make the child re-sync.
* Requests are never forgotten: a request that was sent may arrive any number of times, or never, and
  so may an answer. A loss is a party that gives up waiting.
* A crash loses what a party holds in memory. The parent's store may be copied, and replaced by an
  earlier copy.

Of the downlink only the positions are modelled: how far the child read commands and definitions is
what the parent compares with its heads.
-/

namespace Colca.Uplink

open Uns Incarnation

/-! ### The child -/

/-- What a pass of `pushOnce` fixed at its start. -/
structure Pass where
  st : Stream
  /-- The set of uplink positions it works on, and the parent incarnation they belong to. -/
  epoch : ℕ
  parent : Option ℕ
  deriving DecidableEq, Repr

/-- Where `pushOnce` stands. `base` is a ghost: the confirmed mark when the cursor was read. -/
inductive Push
  | idle
  | named (p : Pass)
  | placed (p : Pass) (start base : ℕ)
  | paged (p : Pass) (recs : List (ℕ × RecEnc)) (next base : ℕ)
  | sent (p : Pass) (recs : List (ℕ × RecEnc)) (req : Request) (next id : ℕ)
  deriving DecidableEq, Repr

/-- Where the downlink loop stands. -/
inductive Down
  | idle
  | asked (id : ℕ)
  deriving DecidableEq, Repr

/-- The child. The fields from `epoch` on are lost in a crash. -/
structure Child where
  lanes : Stream → Lane := fun _ ↦ {}
  storeID : ℕ
  /-- The parent incarnation its positions belong to. -/
  parent : Option ℕ := none
  /-- The gaps of the last re-sync. -/
  gaps : List ResyncGap := []
  cmdPos : Option ℕ := none
  defPos : Option ℕ := none
  epoch : ℕ := 0
  /-- This process minted the store's incarnation id. -/
  minted : Bool := false
  resyncWanted : Bool := false
  hold : Stream → LaneHold := fun _ ↦ {}
  push : Push := .idle
  down : Down := .idle

namespace Child

/-- Put a lane in place. -/
def setLane (c : Child) (st : Stream) (l : Lane) : Child :=
  { c with lanes := Function.update c.lanes st l }

/-- Start a pass over a lane, unless a re-sync is wanted. -/
def startPush (c : Child) (st : Stream) : Option Child :=
  if c.push = .idle ∧ isUplinkStream st ∧ c.resyncWanted = false then
    some { c with push := .named ⟨st, c.epoch, c.parent⟩ }
  else none

/-- Read the cursor. Below the lowest retained offset it jumps there. -/
def readCursor (c : Child) : Option Child :=
  match c.push with
  | .named p =>
    let l := c.lanes p.st
    let l' := l.ack l.log.lwm
    some { (c.setLane p.st l') with push := .placed p l'.pos l.acked }
  | _ => none

/-- Read the page; an empty lane ends the pass. -/
def readPage (cfg : Config) (c : Child) : Option Child :=
  match c.push with
  | .placed p start base =>
    let l := c.lanes p.st
    let next := l.log.pageNext start replBatch
    if next = start then some { c with push := .idle }
    else some { c with push := .paged p (cfg.pageRecords p.st l start) next base }
  | _ => none

/-- `ackUplink`: move the cursor past a page, with the parent's mark when the page was pushed, unless
a re-sync placed the cursors since. -/
def ackUplink (c : Child) (p : Pass) (next : ℕ) (hwm : Option ℕ) : Child :=
  if c.epoch = p.epoch then
    let l := (c.lanes p.st).ack next
    c.setLane p.st { l with acked := hwm.getD l.acked }
  else c

/-- What a push says besides its records. The confirmed mark is read here, not with the cursor. -/
def envelope (c : Child) (p : Pass) : Envelope where
  store := c.storeID
  stream := p.st
  parent := p.parent
  acked := (c.lanes p.st).acked

/-- Send the batch of the page in hand: the child, and the request when there is one. A page with
nothing to push only moves the cursor, and a batch not one record of which fits is held. -/
def sendBatch (cfg : Config) (c : Child) (id : ℕ) : Option (Child × Option Request) :=
  match c.push with
  | .paged p recs next base =>
    if buildBatch p.st recs = [] then
      some (ackUplink { c with push := .idle } p next none, none)
    else
      match cfg.fitReplicationBatch (c.envelope p) (buildBatch p.st recs) with
      | none => some ({ c with push := .idle }, none)
      | some fit =>
        let req : Request := ⟨c.envelope p, (c.hold p.st).cut fit, base⟩
        some ({ c with
          push := .sent p recs req (cutNext (buildBatch p.st recs) req.batch next) id }, some req)
  | _ => none

/-- `ownStoreBehind`: a mark at or past the head of the child's own stream proves that the child's
store regressed, unless this process minted its id. The marks the parent confirmed go with the id. -/
def ownStoreBehind (c : Child) (st : Stream) (hwm : ℕ) : Bool :=
  decide ((c.lanes st).log.next ≤ hwm) && !c.minted

/-- Take a new incarnation. -/
def reincarnate (c : Child) (fresh : ℕ) : Child :=
  { c with storeID := fresh, minted := true, lanes := fun st ↦ { c.lanes st with acked := 0 } }

/-- The parent stored the batch. -/
def accepted (c : Child) (fresh : ℕ) (p : Pass) (req : Request) (next hwm : ℕ) : Child :=
  let c := { c with push := .idle, hold := Function.update c.hold p.st (c.hold p.st).accepted }
  if (c.lanes p.st).log.next ≤ hwm ∧ (req.env.store ≠ c.storeID ∨ c.ownStoreBehind p.st hwm) then
    if req.env.store ≠ c.storeID then c else c.reincarnate fresh
  else c.ackUplink p next (some hwm)

/-- The parent refused the batch for good. A single record refused for longer than the grace is set
aside, unless a re-sync placed the cursors since. -/
def refused (cfg : Config) (c : Child) (now : ℤ) (p : Pass) (recs : List (ℕ × RecEnc))
    (req : Request) : Child :=
  let h := (c.hold p.st).refused req.batch now cfg.grace
  let c := { c with push := .idle, hold := Function.update c.hold p.st h.1 }
  let l := c.lanes p.st
  match recs.find? fun x ↦ req.batch.head?.map ReplRecord.childOffset = some x.1 with
  | some x =>
    if h.2 ∧ c.epoch = p.epoch ∧ l.pos ≤ x.1 then
      { (c.setLane p.st (l.setAsideUplink x)) with hold := Function.update c.hold p.st {} }
    else c
  | none => c

/-- Receive the answer to the push in flight. -/
def receivePush (cfg : Config) (c : Child) (fresh : ℕ) (now : ℤ) (id : ℕ) (a : PushAnswer) :
    Option Child :=
  match c.push with
  | .sent p recs req next id' =>
    if id = id' then
      some <|
        match a with
        | .ok hwm =>
          -- a parent that acknowledges less than the batch is treated as one that is down
          if req.batch.any fun r ↦ hwm < r.childOffset then { c with push := .idle }
          else c.accepted fresh p req next hwm
        | .refused _ => c.refused cfg now p recs req
        | .storeChanged => { c with push := .idle, resyncWanted := true }
        | .unauthorized | .busy | .failure => { c with push := .idle }
    else none
  | _ => none

/-- What a restart finds: the durable fields. -/
def restart (c : Child) : Child :=
  { lanes := c.lanes, storeID := c.storeID, parent := c.parent, gaps := c.gaps, cmdPos := c.cmdPos,
    defPos := c.defPos }

/-! ### The downlink loop -/

/-- What the child states when it says hello. -/
def greet (c : Child) : DownRequest where
  hello := true
  parent := c.parent
  position :=
    { store := some c.storeID, commands := c.cmdPos.getD 1, definitions := c.defPos.getD 1
      acked := fun st ↦ if st ∈ uplinkStreams then (c.lanes st).acked else 0 }

/-- What the child states when it polls. -/
def poll (c : Child) : DownRequest where
  hello := false
  parent := c.parent
  position :=
    { store := some c.storeID, commands := c.cmdPos.getD 1, definitions := c.defPos.getD 1 }

/-- The plan of a re-sync for one stream. -/
def plan (c : Child) (a : HelloAnswer) (st : Stream) : UplinkReplay :=
  planReplay st (c.lanes st).pos (a.hwms st) (c.lanes st).log.lwm

/-- A lane as a re-sync places it. -/
def replayed (c : Child) (a : HelloAnswer) (st : Stream) : Lane :=
  { c.lanes st with
    cursor := if (c.plan a st).rewindTo ≠ 0 then some (c.plan a st).rewindTo else (c.lanes st).cursor
    acked := a.hwms st }

/-- `resync`: place this node against the parent's store, in one batch, and start a new epoch. The
uplink cursors stay where they are when the parent's marks say nothing about this node's streams. -/
def resync (c : Child) (a : HelloAnswer) (replay : Bool) : Child :=
  { c with
    lanes := fun st ↦ if replay ∧ st ∈ uplinkStreams then c.replayed a st else c.lanes st
    parent := some a.store
    gaps := if replay then uplinkStreams.filterMap fun st ↦ (c.plan a st).gap else []
    cmdPos := some (max a.resume 1)
    defPos := some (max a.defResume 1)
    epoch := c.epoch + 1 }

/-- Place this node against the store a hello described. -/
def placeAgainst (c : Child) (fresh : ℕ) (a : HelloAnswer) : Child :=
  let regressed := uplinkStreams.any fun st ↦ c.ownStoreBehind st (a.hwms st)
  let c := if regressed then c.reincarnate fresh else c
  match judgeParent c.parent (some a.store) a.resync with
  | .changed => c.resync a (!regressed)
  | .firstSeen => { c with parent := some a.store }
  | .unchanged | .predatesIncarnations => c

/-- `settle`: place this node, settle first-contact cursors, take the definitions handed along. -/
def settle (c : Child) (fresh : ℕ) (a : HelloAnswer) : Child :=
  let c := c.placeAgainst fresh a
  { c with
    down := .idle
    resyncWanted := false
    cmdPos := if a.head = 0 then c.cmdPos else some (c.cmdPos.getD a.head)
    defPos := ackCursor c.defPos a.defNext }

/-- Receive the answer to the hello or poll in flight. -/
def receiveDown (c : Child) (fresh id : ℕ) (a : DownAnswer) : Option Child :=
  if c.down = .asked id then
    some <|
      match a with
      | .hello a => c.settle fresh a
      | .poll next defNext =>
        { c with down := .idle, cmdPos := ackCursor c.cmdPos next
                 defPos := ackCursor c.defPos defNext }
      | .storeChanged => { c with down := .idle, resyncWanted := true }
      | .failure => { c with down := .idle }
  else none

end Child

/-! ### The system -/

/-- A child, its parent, the copies of the parent's store, and everything on the link. -/
structure Sys where
  child : Child
  parent : Parent
  backups : List Parent := []
  /-- The next incarnation id that was never used. -/
  fresh : ℕ
  pushes : List Request := []
  pushAnswers : List (ℕ × PushAnswer) := []
  downs : List DownRequest := []
  downAnswers : List (ℕ × DownAnswer) := []
  /-- Ghost: the offsets retention removed while they were above the parent's mark. -/
  prunedAhead : Stream → List ℕ := fun _ ↦ []

/-- What can happen next. -/
inductive Event
  /-- The child stores a record. -/
  | append (st : Stream) (e : RecEnc)
  /-- Retention removes a run at the old end, or records anywhere. -/
  | prune (st : Stream) (upTo : ℕ)
  | remove (st : Stream) (offs : List ℕ)
  /-- `PrepareUplink` seats the cursor of a lane. -/
  | seat (st : Stream)
  | startPush (st : Stream)
  | readCursor
  | readPage
  | sendBatch
  | receivePush (k : ℕ) (now : ℤ)
  /-- The push ends without an answer. -/
  | losePush
  | sendHello
  | sendPoll
  | receiveDown (k : ℕ)
  | loseDown
  | crashChild
  /-- A push arrives, for the first time or again. -/
  | arrivePush (id : ℕ) (gate : Gate)
  | commit
  | arriveHello (id defNext : ℕ)
  | arrivePoll (id : ℕ)
  /-- A poll that was held open is answered. -/
  | answerPoll (i next defNext : ℕ)
  /-- A poll that was held open is judged again, after the store took a new id. -/
  | recheckPoll (i : ℕ)
  /-- The parent stores a record of its own. -/
  | appendParent (st : Stream) (r : Record)
  | crashParent
  | snapshot
  | restore (i : ℕ)
  deriving DecidableEq, Repr

namespace Sys

variable (cfg : Config) (s : Sys)

/-- The child moves. -/
def withChild (c : Child) : Sys := { s with child := c }

/-- Retention takes records of a lane away. -/
def prunes (st : Stream) (l : Lane) : Sys :=
  { s with
    child := s.child.setLane st l
    prunedAhead := Function.update s.prunedAhead st (s.prunedAhead st ++
      (((s.child.lanes st).log.entries.filter fun x ↦ x ∉ l.log.entries).map Prod.fst).filter
        fun o ↦ s.parent.mark cfg st < o) }

/-- Retention at the child. -/
def retain (e : Event) : Option Sys :=
  match e with
  | .prune st upTo => some (s.prunes cfg st ((s.child.lanes st).prune upTo))
  | .remove st offs => some (s.prunes cfg st ((s.child.lanes st).remove fun o ↦ o ∈ offs))
  | _ => none

/-- The steps of the child. -/
def stepChild (e : Event) : Option Sys :=
  match e with
  | .append st e => some (s.withChild (s.child.setLane st ((s.child.lanes st).append e)))
  | .seat st =>
    let l := s.child.lanes st
    some (s.withChild (s.child.setLane st
      (if 1 < l.pos then l else { l with cursor := some (l.cursor.getD l.log.lwm) })))
  | .startPush st => (s.child.startPush st).map s.withChild
  | .readCursor => s.child.readCursor.map s.withChild
  | .readPage => (s.child.readPage cfg).map s.withChild
  | .sendBatch =>
    (s.child.sendBatch cfg s.pushes.length).map fun (c, req) ↦
      { s with child := c, pushes := s.pushes ++ req.toList }
  | .receivePush k now =>
    s.pushAnswers[k]?.bind fun (id, a) ↦
      (s.child.receivePush cfg s.fresh now id a).map fun c ↦
        { s with child := c, fresh := s.fresh + 1 }
  | .losePush => some (s.withChild { s.child with push := .idle })
  | .sendHello =>
    if s.child.down = .idle then
      some { s with child := { s.child with down := .asked s.downs.length }
                    downs := s.downs ++ [s.child.greet] }
    else none
  | .sendPoll =>
    if s.child.down = .idle ∧ s.child.resyncWanted = false then
      some { s with child := { s.child with down := .asked s.downs.length }
                    downs := s.downs ++ [s.child.poll] }
    else none
  | .receiveDown k =>
    s.downAnswers[k]?.bind fun (id, a) ↦
      (s.child.receiveDown s.fresh id a).map fun c ↦ { s with child := c, fresh := s.fresh + 1 }
  | .loseDown => some (s.withChild { s.child with down := .idle })
  | .crashChild => some (s.withChild s.child.restart)
  | _ => none

/-- The steps of the parent. -/
def stepParent (e : Event) : Option Sys :=
  match e with
  | .arrivePush id gate =>
    s.pushes[id]?.map fun req ↦
      let r := s.parent.handleReplicate cfg s.fresh id gate req
      { s with parent := r.2, fresh := s.fresh + 1
               pushAnswers := s.pushAnswers ++ (r.1.map fun a ↦ (id, a)).toList }
  | .commit =>
    if s.parent.queue = [] then none
    else
      let r := s.parent.commit cfg
      some { s with parent := r.2, pushAnswers := s.pushAnswers ++ r.1 }
  | .arriveHello id defNext =>
    s.downs[id]?.bind fun req ↦
      if req.hello ∧ defNext ≤ s.parent.store.mem.next .definitions then
        let r := s.parent.handleHello cfg s.fresh defNext req
        some { s with parent := r.2, fresh := s.fresh + 1
                      downAnswers := s.downAnswers ++ [(id, .hello r.1)] }
      else none
  | .arrivePoll id =>
    s.downs[id]?.bind fun req ↦
      if req.hello then none
      else
        let r := s.parent.handlePoll cfg s.fresh id req
        some { s with parent := r.2, fresh := s.fresh + 1
                      downAnswers := s.downAnswers ++ (r.1.map fun a ↦ (id, a)).toList }
  | .answerPoll i next defNext =>
    s.parent.polls[i]?.bind fun w ↦
      if next ≤ s.parent.store.mem.next .commands ∧
          defNext ≤ s.parent.store.mem.next .definitions then
        some { s with parent := { s.parent with polls := s.parent.polls.eraseIdx i }
                      downAnswers := s.downAnswers ++ [(w.id, .poll next defNext)] }
      else none
  | .recheckPoll i =>
    s.parent.polls[i]?.map fun w ↦
      let judged := s.parent.judged cfg s.fresh w.req.parent w.req.position
      if judged.1 then
        { s with parent := { judged.2 with polls := s.parent.polls.eraseIdx i }
                 fresh := s.fresh + 1
                 downAnswers := s.downAnswers ++ [(w.id, .storeChanged)] }
      else s
  | .appendParent st r =>
    if h : st.isFixed then
      some { s with parent := { s.parent with store := s.parent.store.append cfg.codec st h r } }
    else none
  | .crashParent => some { s with parent := s.parent.reopen }
  | .snapshot => some { s with backups := s.backups ++ [s.parent] }
  | .restore i => s.backups[i]?.map fun b ↦ { s with parent := b.reopen }
  | _ => none

end Sys

/-- A child and a parent that have not met. -/
def system (cfg : Config) : StateMachine Sys Event where
  start := { child := { storeID := 0 }, parent := { store := .empty, storeID := 1 }, fresh := 2 }
  step s e := ((s.retain cfg e).orElse fun _ ↦ s.stepChild cfg e).orElse fun _ ↦ s.stepParent cfg e

end Colca.Uplink
