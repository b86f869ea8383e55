import Colca.Lib.StateMachine
import Colca.Repl.UplinkBatch
import Colca.Store.Compact
import Colca.Store.Layout

/-!
# Entities whose records are pruned before the parent reads them

A child's entities stream, its current state, and its parent. The pruner may take records the uplink has
not read, if its cursor has not moved for long. Entities are state: so the prune leaves, in the same
batch, a range of offsets that is owed a **refresh**, and the pruner then appends the current entry of
every path whose record lay in the range once more. The owed range survives a crash, and another prune
widens it.

The pruner is one loop: it decides, prunes, and refreshes, and does not do two of these at once. The
writers, the uplink and the parent go on meanwhile. A batch that was sent may reach the parent at any
time, more than once, or never.

The parent takes records above its high-water mark and projects entities into its own current state,
under the child's mount. A record it refuses is not modelled, nor is a re-sync: the parent keeps its
store.
-/

namespace Colca.EntityRefresh

open Uns

/-- How the two nodes are configured. -/
structure Env where
  /-- The class of a contract. -/
  classOf : String → Uns.Class
  gap : classOf "_StreamGap" = .gap
  /-- The child's own id, in the topic of its gap markers. -/
  ulid : String
  gapPayload : ℕ → ℕ → Payload
  /-- Where the child is mounted in the parent's namespace. -/
  mount : Path
  /-- The order of the keys of the current state. -/
  before : Topic → Topic → Bool
  before_total : ∀ a b, before a b ∨ a = b ∨ before b a

variable (env : Env)

/-- The contract is one of entities. -/
def Env.ofEntities (t : Topic) : Bool := (contractOf t).any fun c ↦ env.classOf c = .entity

/-- The topic is one of an entity; without a path it has no entry. -/
def Env.isEntity (t : Topic) : Bool := env.ofEntities t && decide (t.drop 4 ≠ noPath)

/-! ### The child's store -/

/-- The current state: per topic the record of its entry and that record's offset. -/
abbrev KV := AList fun _ : Topic ↦ ℕ × RecEnc

/-- Project a record into the current state. -/
def Env.project (kv : KV) (x : ℕ × RecEnc) : KV :=
  if env.isEntity x.2.topic then
    if isRetraction x.2 then kv.erase x.2.topic else kv.insert x.2.topic x
  else kv

structure Child where
  /-- The entities stream. -/
  stream : KeyedLog RecEnc Topic := {}
  kv : KV := ∅
  /-- `rp/entities`: the offsets that are owed a refresh. -/
  pending : Option (ℕ × ℕ) := none
  /-- The uplink cursor. -/
  cursor : ℕ := 1

namespace Child

variable (c : Child)

abbrev log : OffsetLog RecEnc := c.stream.log

/-- Append a record and project it. -/
def append (e : RecEnc) : Child :=
  { c with stream := c.stream.write RecEnc.topic e, kv := env.project c.kv (c.log.next, e) }

/-- Remove the records below `upTo`. -/
def pruneLog (upTo : ℕ) : Child := { c with stream := { c.stream with log := c.log.prune upTo } }

/-- The current value of a topic. -/
def current (t : Topic) : Option (Payload × ℤ) := (c.kv.lookup t).map fun x ↦ (x.2.payload, x.2.ts)

end Child

/-! ### The pruner -/

/-- A pass over the stream as it is decided. -/
structure Pass where
  lwm : ℕ
  /-- The end of the prefix its policy takes. -/
  upTo : ℕ
  /-- The position of the uplink cursor, if it is stale and would be passed. -/
  uplink : Option ℕ
  /-- The positions of the other stale cursors that would be passed. -/
  others : List ℕ

/-- The pass with the cursors as it reads them. -/
def decidePass (c : Child) (upTo : ℕ) (stale : Bool) (others : List ℕ) : Pass where
  lwm := c.log.lwm
  upTo := upTo
  uplink := if stale ∧ c.cursor < upTo then some c.cursor else none
  others := others.filter fun pos ↦ pos < upTo

/-- The end after the second look at the cursors: `floor` is the lowest of the other cursors that are not
overridden. -/
def Pass.effective (p : Pass) (cursor floor : ℕ) : ℕ :=
  min (min p.upTo floor) (if p.uplink.isSome then p.upTo else cursor)

/-- The overridden cursors that a prune up to `m` passes. -/
def Pass.passed (p : Pass) (m : ℕ) : List ℕ := (p.uplink.toList ++ p.others).filter fun pos ↦ pos < m

/-- The gap marker of a prune. -/
def Env.marker (lwm m : ℕ) (ts : ℤ) : RecEnc where
  sourceLocalOnly := false
  topic := ["colca", "v1", "_StreamGap", env.ulid, "entities"]
  payload := env.gapPayload lwm (m - 1)
  ts := ts
  by_ := {}
  originOffset := 0
  door := ""
  signalID := ""

/-- The owed range, widened. -/
def mergeRange (pending : Option (ℕ × ℕ)) (r : ℕ × ℕ) : ℕ × ℕ :=
  match pending with
  | some cur => (min r.1 cur.1, max r.2 cur.2)
  | none => r

/-- `PruneScanned` with the plan of `pruneStream`. -/
def Child.prune (c : Child) (p : Pass) (floor : ℕ) (ts : ℤ) : Child :=
  let m := p.effective c.cursor floor
  if c.log.lwm ≠ p.lwm ∨ c.log.next < p.upTo ∨ m ≤ p.lwm then c
  else
    match p.passed m with
    | [] => c.pruneLog m
    | pos :: rest =>
      { (c.pruneLog m).append env (env.marker p.lwm m ts) with
        pending := some (mergeRange c.pending (rest.foldr min pos, m)) }

/-- `refreshEntities` on its way through the current state. -/
structure Refresh where
  range : ℕ × ℕ
  /-- The key its scan has reached. -/
  after : Option Topic := none
  /-- The entries it has read and is to append again, as it read them. -/
  queue : List (ℕ × RecEnc) := []
  failed : Bool := false

/-- The key lies ahead of the scan. -/
def Refresh.ahead (r : Refresh) (t : Topic) : Bool := r.after.all fun k ↦ env.before k t

/-- The scan reads the entry of a key. -/
def Refresh.visit (r : Refresh) (t : Topic) (x : ℕ × RecEnc) : Refresh :=
  { r with
    after := some t
    queue := if r.range.1 ≤ x.1 ∧ x.1 < r.range.2 then r.queue ++ [x] else r.queue }

/-- The record of a refresh. It restates the owner's version. -/
def refreshRecord (x : ℕ × RecEnc) (now : ℤ) : RecEnc :=
  { sourceLocalOnly := false, topic := x.2.topic, payload := x.2.payload, ts := now
    by_ := { writtenBy := "colca-retention" }
    originOffset := if x.2.originOffset = 0 then x.1 else x.2.originOffset
    door := "", signalID := "" }

/-- `IngestRefresh`: append the entry again if it is still the one that was read. -/
def Child.ingestRefresh (c : Child) (x : ℕ × RecEnc) (now : ℤ) : Child :=
  if (c.kv.lookup x.2.topic).map Prod.fst = some x.1 then
    c.append env (refreshRecord x now)
  else c

/-! ### The uplink and the parent -/

/-- A batch the uplink has sent, and where it continues. -/
structure Batch where
  recs : List (ℕ × RecEnc)
  next : ℕ

/-- The record leaves the node. -/
def rises (e : RecEnc) : Bool := Uplink.pushable .entities e.topic

/-- What the parent has of the child. -/
structure Parent where
  hwm : ℕ := 0
  view : Topic → Option (Payload × ℤ) := fun _ ↦ none

/-- The value a record gives its topic. -/
def valueOf (e : RecEnc) : Option (Payload × ℤ) := if isRetraction e then none else some (e.payload, e.ts)

/-- Store one record of the child. A mount does not change the contract. -/
def Parent.take (p : Parent) (x : ℕ × RecEnc) : Parent where
  hwm := x.1
  view :=
    if env.ofEntities x.2.topic ∧ env.mount ++ x.2.topic.drop 4 ≠ noPath then
      Function.update p.view (mountInsert x.2.topic env.mount) (valueOf x.2)
    else p.view

/-- Of a batch the parent stores what is above its mark. -/
def Parent.fresh (p : Parent) (b : Batch) : List (ℕ × RecEnc) := (HighWater.accept Prod.fst p.hwm b.recs).1

def Parent.store (p : Parent) (b : Batch) : Parent := (p.fresh b).foldl (Parent.take env) p

/-! ### Steps -/

structure State where
  child : Child := {}
  pass : Option Pass := none
  refresh : Option Refresh := none
  /-- Where the page of the uplink is to start. -/
  placed : Option ℕ := none
  sent : List Batch := []
  parent : Parent := {}
  /-- What the parent has stored, newest first. -/
  taken : List (ℕ × RecEnc) := []

inductive Event
  /-- An entity or its tombstone is written, or another record of the stream. -/
  | write (e : RecEnc)
  /-- A pass reads the cursors and decides. -/
  | decide (upTo : ℕ) (stale : Bool) (others : List ℕ)
  | commit (floor : ℕ) (ts : ℤ)
  | giveUp
  | beginRefresh
  /-- The scan of the refresh comes to the next key. -/
  | visit (t : Topic)
  /-- The first of the entries read is appended again, or fails. -/
  | publish (now : ℤ) (ok : Bool)
  /-- The scan is over; what was owed is cleared if nothing failed. -/
  | endRefresh (cleared : Bool)
  /-- `pushOnce` reads the cursor, and jumps to the low-water mark. -/
  | place
  | page (limit : ℕ)
  /-- A batch reaches the parent. -/
  | deliver (i : ℕ)
  /-- The child learns that the parent has a batch. -/
  | ack (i : ℕ)
  | restart

/-- Append by any writer. -/
def State.append (s : State) (e : RecEnc) : State := { s with child := s.child.append env e }

def step (s : State) : Event → Option State
  | .write e => some (s.append env e)
  | .decide upTo stale others =>
    if s.pass.isNone ∧ s.refresh.isNone ∧ s.child.log.lwm < upTo ∧ upTo ≤ s.child.log.next ∧
        (stale = false → upTo ≤ s.child.cursor) then
      some { s with pass := some (decidePass s.child upTo stale others) }
    else none
  | .commit floor ts =>
    s.pass.map fun p ↦ { s with child := s.child.prune env p floor ts, pass := none }
  | .giveUp => some { s with pass := none }
  | .beginRefresh =>
    if s.pass.isNone ∧ s.refresh.isNone then
      s.child.pending.map fun r ↦ { s with refresh := some { range := r } }
    else none
  | .visit t =>
    match s.refresh, s.child.kv.lookup t with
    | some r, some x =>
      if r.ahead env t ∧ ∀ k ∈ s.child.kv.keys, r.ahead env k → env.before k t = false then
        some { s with refresh := some (r.visit t x) }
      else none
    | _, _ => none
  | .publish now ok =>
    match s.refresh with
    | some r =>
      match r.queue with
      | x :: rest =>
        some { s with
          child := if ok then s.child.ingestRefresh env x now else s.child
          refresh := some { r with queue := rest, failed := r.failed || !ok } }
      | [] => none
    | none => none
  | .endRefresh cleared =>
    match s.refresh with
    | some r =>
      if r.queue = [] ∧ ∀ k ∈ s.child.kv.keys, r.ahead env k = false then
        some { s with
          child := if r.failed ∨ cleared = false then s.child else { s.child with pending := none }
          refresh := none }
      else none
    | none => none
  | .place =>
    some { s with
      child := { s.child with cursor := max s.child.cursor s.child.log.lwm }
      placed := some (max s.child.cursor s.child.log.lwm) }
  | .page limit =>
    match s.placed with
    | some start =>
      if s.child.log.pageNext start limit = start then some { s with placed := none }
      else
        some { s with
          placed := none
          sent := s.sent ++
            [⟨(s.child.log.page start limit).filter fun x ↦ rises x.2, s.child.log.pageNext start limit⟩] }
    | none => none
  | .deliver i =>
    s.sent[i]?.map fun b ↦
      { s with parent := s.parent.store env b, taken := (s.parent.fresh b).reverse ++ s.taken }
  | .ack i =>
    match s.sent[i]? with
    | some b =>
      if ∀ x ∈ b.recs, x.1 ≤ s.parent.hwm then
        some { s with child := { s.child with cursor := max s.child.cursor b.next } }
      else none
    | none => none
  | .restart => some { s with pass := none, refresh := none, placed := none }

/-- A new child and its parent. -/
def system : StateMachine State Event where
  start := {}
  step := step env

/-! ### What the parent is to see -/

/-- Nothing is owed, and the parent has every record that leaves the node. -/
def State.Settled (s : State) : Prop :=
  s.child.pending = none ∧ ∀ x ∈ s.child.log.entries, rises x.2 = true → x.1 ≤ s.parent.hwm

/-- The parent's view of the child's entities is the child's own. -/
def State.Agrees (s : State) : Prop :=
  ∀ t, env.isEntity t = true → Uplink.pushable .entities t = true →
    s.parent.view (mountInsert t env.mount) = s.child.current t

/-- The newest record of a topic. -/
def newest (xs : List (ℕ × RecEnc)) (t : Topic) : Option (ℕ × RecEnc) := xs.find? fun x ↦ x.2.topic = t

/-- The batch would still give the parent an entry for the topic. -/
def Batch.brings (b : Batch) (hwm : ℕ) (t : Topic) : Bool :=
  (newest b.recs.reverse t).any fun x ↦ decide (hwm < x.1) && !isRetraction x.2

/-- The parent has no entry for the topic, and no batch brings it one. -/
def State.unknown (s : State) (t : Topic) : Bool :=
  (s.parent.view (mountInsert t env.mount)).isNone && s.sent.all fun b ↦ !b.brings s.parent.hwm t

/-- **No tombstone is lost.** A prune takes the last record of an entity that is retired only when the
parent does not know the entity. -/
def NoTombstoneLost (s : State) : Event → Prop
  | .commit floor _ => ∀ p ∈ s.pass, ∀ x ∈ s.child.log.entries, x.1 < p.effective s.child.cursor floor →
      isRetraction x.2 = true → env.isEntity x.2.topic = true → rises x.2 = true →
        s.child.kv.lookup x.2.topic = none → s.unknown env x.2.topic = true
  | _ => True

instance (s : State) (e : Event) : Decidable (NoTombstoneLost env s e) :=
  match e with
  | .commit floor _ => inferInstanceAs (Decidable (∀ p ∈ s.pass, ∀ x ∈ s.child.log.entries,
      x.1 < p.effective s.child.cursor floor → isRetraction x.2 = true → env.isEntity x.2.topic = true →
        rises x.2 = true → s.child.kv.lookup x.2.topic = none → s.unknown env x.2.topic = true))
  | .write _ | .decide _ _ _ | .giveUp | .beginRefresh | .visit _ | .publish _ _ | .endRefresh _ | .place
  | .page _ | .deliver _ | .ack _ | .restart => inferInstanceAs (Decidable True)

end Colca.EntityRefresh
