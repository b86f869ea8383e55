import Colca.Lib.StateMachine
import Colca.Store.Compact
import Colca.Store.Layout

/-!
# A store in operation

What happens to a store between the moments it is opened: the eight write paths, the marks of children
that are forgotten, evictions of current-state entries, and four ways to remove records. A removal scans
the stream without the store's lock and commits under it, so any number of scans and commits interleave
with each other and with the writers. A reopen ends every scan.

* A **prune** takes a prefix of the stream and raises the low-water mark. It scans again under the lock
  when records were removed since its scan or when a cursor made the prefix shorter.
* A **compaction** takes superseded records and retractions every cursor has passed. It stops when
  records were removed since its scan.
* An **eviction** takes the records of chosen topics. It stops when a prune committed since its scan.
* **Per-signal retention** reads one record after the other, and deletes what it has found so far, at
  any time, as far as no prune and no cursor is in the way.

Policies, clocks and cursors decide how far a removal goes: these decisions are in the events. A
`StoreRun.Event` that is refused by the code drops its scan and changes nothing else.

`history` is what happened to the current state. The code does not keep it.
-/

namespace Colca

open Uns

/-! ### Opening a store -/

/-- Whether every record below the head of a stream was written with its index entries: the mark says
so, or nothing was ever written, or the last version to write it left the mark of a clean close. -/
def indexTrust (s : Store) (legacy : Bool) (st : Stream) : Bool :=
  if readU64 s.disk (.indexed st) 0 ≠ 0 then readU64 s.disk (.indexed st) 0 = s.mem.next st
  else if s.mem.next st = 1 then true
  else legacy

/-- The contract index after `reconcileKVIndex`: missing keys added, stale ones removed. -/
def reconcileKVIndex (d : Disk) : Disk
  | .kvIndex ct path node topic =>
    if (d (.kv path node topic)).isSome ∧ contractOf topic = some ct then
      some ((d (.kvIndex ct path node topic)).getD .mark)
    else none
  | k => d k

/-- A store just opened, with the offsets its two record indexes cover from. -/
structure Opened where
  store : Store
  sigFrom : Stream → ℕ
  targetFrom : Stream → ℕ

/-- The disk `openIndexes` leaves: the contract index reconciled unless it is trusted, every stream
marked as indexed through its head. -/
def indexedDisk (s : Store) (kvTrusted : Bool) : Disk
  | .indexed st =>
    if st.isFixed then some (.num (s.mem.next st)) else s.disk (.indexed st)
  | k => if kvTrusted then s.disk k else reconcileKVIndex s.disk k

theorem indexedDisk_eq {s : Store} {kvTrusted : Bool} {k : Key} (hk : k.isState = false)
    (hix : ∀ st, k ≠ .indexed st) : indexedDisk s kvTrusted k = s.disk k := by
  cases k with
  | indexed st => exact absurd rfl (hix st)
  | kv _ _ _ => cases hk
  | kvIndex _ _ _ _ => cases hk
  | _ => cases kvTrusted <;> rfl

/-- `openIndexes`: `sigFrom` and `targetFrom` are the coverage written on disk, `none` when an index was
never opened on this store. -/
def openIndexes (s : Store) (sigFrom targetFrom : Stream → Option ℕ) (legacySig legacyKV : Bool) :
    Opened where
  store :=
    { disk := indexedDisk s (Stream.all.all fun st ↦ indexTrust s legacyKV st)
      mem := s.mem
      agrees :=
        { next_eq := fun st hfix ↦ (s.agrees.next_eq st hfix).trans
            (readU64_congr (indexedDisk_eq rfl fun _ ↦ Key.noConfusion).symm 1)
          next_pos := s.agrees.next_pos
          next_other := s.agrees.next_other
          bytes_eq := fun st hfix ↦ (s.agrees.bytes_eq st hfix).trans
            (readU64_congr (indexedDisk_eq rfl fun _ ↦ Key.noConfusion).symm 0)
          hwms_eq := fun k v hk ↦ (readU64_congr (indexedDisk_eq rfl fun _ ↦ Key.noConfusion) 0).trans
            (s.agrees.hwms_eq k v hk) } }
  sigFrom st := if indexTrust s legacySig st then (sigFrom st).getD (s.mem.next st) else s.mem.next st
  targetFrom st :=
    if indexTrust s legacySig st then (targetFrom st).getD (s.mem.next st) else s.mem.next st

/-- The counters read back from disk; the cache of marks starts empty. -/
def Store.reload (s : Store) : Store where
  disk := s.disk
  mem :=
    { next := fun st ↦ if st.isFixed then readU64 s.disk (.head st) 1 else 0
      bytes := fun st ↦ if st.isFixed then readU64 s.disk (.bytes st) 0 else s.mem.bytes st
      hwms := fun _ ↦ none }
  agrees :=
    { next_eq := fun st hfix ↦ if_pos hfix
      next_pos := fun st hfix ↦ by
        show 0 < if st.isFixed then readU64 s.disk (.head st) 1 else 0
        rw [if_pos hfix, ← s.agrees.next_eq st hfix]
        exact s.agrees.next_pos st hfix
      next_other := fun st hfix ↦ if_neg hfix
      bytes_eq := fun st hfix ↦ if_pos hfix
      hwms_eq := fun _ _ h ↦ nomatch h }

theorem Store.reload_next (s : Store) : s.reload.mem.next = s.mem.next := by
  funext st
  show (if st.isFixed then readU64 s.disk (.head st) 1 else 0) = _
  split
  · rename_i hfix
    exact (s.agrees.next_eq st hfix).symm
  · rename_i hfix
    exact (s.agrees.next_other st hfix).symm

theorem Store.reload_bytes (s : Store) : s.reload.mem.bytes = s.mem.bytes := by
  funext st
  show (if st.isFixed then readU64 s.disk (.bytes st) 0 else s.mem.bytes st) = _
  split
  · rename_i hfix
    exact (s.agrees.bytes_eq st hfix).symm
  · rfl

/-- **A store as it is found** by the version that is modelled: written by this version or by one
before it, which knew fewer indexes or none. Its records and index entries are in order as far as its
marks say; where they say nothing, entries may be missing. -/
structure Found where
  store : Store
  lwm : Stream → ℕ
  sigFrom : Stream → Option ℕ
  targetFrom : Stream → Option ℕ
  legacySig : Bool
  legacyKV : Bool
  lwm_le : ∀ st, lwm st ≤ store.mem.next st
  records : RecordsWithin lwm store.mem.next store.disk
  sig_lt : ∀ st id o, (store.disk (.sig st id o)).isSome → o < store.mem.next st
  sig_names : ∀ st id o e, (store.disk (.sig st id o)).isSome → recordAt store.disk st o = some e →
    e.signalID = id
  sig_exact : ∀ st covered, indexTrust store legacySig st → sigFrom st = some covered →
    ∀ id o, covered ≤ o → ((store.disk (.sig st id o)).isSome ↔
      ∃ e, recordAt store.disk st o = some e ∧ e.signalID = id ∧ id ≠ "")
  target_lt : ∀ st node o, (store.disk (.target st node o)).isSome → o < store.mem.next st
  target_names : ∀ st node o e, (store.disk (.target st node o)).isSome →
    recordAt store.disk st o = some e → commandTarget e.topic = some node
  target_complete : ∀ st covered, indexTrust store legacySig st → targetFrom st = some covered →
    ∀ node o e, covered ≤ o → recordAt store.disk st o = some e →
      commandTarget e.topic = some node → (store.disk (.target st node o)).isSome
  kv_indexed : (∀ st, st.isFixed → indexTrust store legacyKV st) → KVIndexed store.disk

/-- A directory with no store in it. -/
def Found.empty : Found where
  store := .empty
  lwm st := if st.isFixed then 1 else 0
  sigFrom _ := none
  targetFrom _ := none
  legacySig := false
  legacyKV := false
  lwm_le _ := le_rfl
  records := ⟨fun _ _ _ h ↦ (nomatch h), fun _ _ _ h ↦ (nomatch h)⟩
  sig_lt _ _ _ h := nomatch h
  sig_names _ _ _ _ h := nomatch h
  sig_exact _ _ _ h := nomatch h
  target_lt _ _ _ h := nomatch h
  target_names _ _ _ _ h := nomatch h
  target_complete _ _ _ h := nomatch h
  kv_indexed _ _ _ _ _ := ⟨fun h ↦ (nomatch h), fun h ↦ (nomatch h.1)⟩

namespace StoreRun

/-! ### Scans -/

/-- The ways to remove records. -/
inductive Kind
  | prune
  | compact
  | evict
  | signals
  deriving DecidableEq, Repr

/-- A scan in flight, with what it read under the lock when it began. -/
inductive Scan
  /-- A prune, and once it has read them the end of the prefix and its records. -/
  | prune (st : Stream) (lwm holes : ℕ) (read : Option (ℕ × List (ℕ × RecEnc)))
  | compact (st : Stream) (next lwm holes : ℕ) (read : Option (List (ℕ × RecEnc)))
  /-- An eviction, and once it has read the stream the doomed records. -/
  | evict (st : Stream) (next lwm : ℕ) (read : Option (List (ℕ × RecEnc)))
  /-- Per-signal retention: its iterator over the signal index, the index entries it has visited, and
  the records found there that it has not deleted, each under the signal of its entry. -/
  | signals (st : Stream) (next lwm : ℕ) (iter : Option Disk) (visited : List (String × ℕ))
    (found : List (String × ℕ × RecEnc))

/-! ### State and events -/

/-- An open store. -/
structure State where
  store : Store
  /-- The lowest retained offset per stream, in memory and on disk. -/
  lwm : Stream → ℕ
  /-- How often records were removed other than as a prefix, since the store was opened. -/
  holes : Stream → ℕ := fun _ ↦ 0
  sigFrom : Stream → ℕ
  targetFrom : Stream → ℕ
  scans : ℕ → Option Scan := fun _ ↦ none
  history : List Change := []

/-- A call of a write path. -/
inductive WriteOp
  /-- A group commit of queued appends. -/
  | append (group : List AppendRequest)
  | appendAdvancing (st : Stream) (recs : List Record)
  | applyReplicated (group : List ReplRequest)
  | appendIfKVUnchanged (st : Stream) (r : Record) (ifKVOffset : ℕ)
  | moveRetained (st : Stream) (moves : List RetainedMove) (tomb : Record)
  | registryPut (st : Stream) (r : Record)
  | registryDelete (st : Stream) (r : Record) (also : List Record)
  | registryRetire (st : Stream) (r : Record) (also : List Record) (chosen : List (KVKey × Stream))
    (ts : ℤ) (child : String)

/-- What happens to an open store. -/
inductive Event
  /-- A write path commits, or its synced apply fails. -/
  | write (op : WriteOp) (ok : Bool)
  /-- `AdoptChildStore` forgets the marks kept for a child's old store. -/
  | adoptChildStore (child : String)
  /-- `EvictKV` deletes entries whose topics are doomed, chosen without the lock. -/
  | evictKV (keys : List KVKey)
  | begin_ (i : ℕ) (kind : Kind) (st : Stream)
  | readPrune (i upTo : ℕ)
  | readCompact (i : ℕ)
  | readEvict (i start maxScan : ℕ) (doomed : Topic → Bool)
  /-- Per-signal retention opens its iterator, and visits an index entry and reads the record there. -/
  | openIter (i : ℕ)
  | visit (i : ℕ) (signalID : String) (off : ℕ)
  /-- The commit of a prune: the lowest cursor it has to respect, and the gap markers it adds. -/
  | commitPrune (i floor : ℕ) (gaps : List Record)
  | commitCompact (i floor : ℕ)
  | commitEvict (i : ℕ)
  /-- `deleteSignalRecords` of the doomed among the records found, with the lowest cursor it has to
  respect and the gap markers it adds. -/
  | flushSignals (i floor : ℕ) (doomed : ℕ → Bool) (gaps : List Record)
  /-- A scan ends: it found nothing, or its commit failed. -/
  | abandon (i : ℕ)
  | reopen

variable (env : WriteEnv)

/-- The draft of a write path; `none` when it writes nothing. -/
def WriteOp.draft (s : Store) : WriteOp → Option Draft
  | append group => commitAppendBatch env s group
  | appendAdvancing st recs => appendLocked env s st recs
  | applyReplicated group => some (s.draft.addAll env.codec (replicatedRecords s.durableHWM group))
  | appendIfKVUnchanged st r off => Colca.appendIfKVUnchanged env s st r off
  | moveRetained st moves tomb => Colca.moveRetained env s st moves tomb
  | registryPut st r => Colca.registryPut env s st r
  | registryDelete st r also => Colca.registryDelete env s st r also
  | registryRetire st r also chosen ts _ => Colca.registryRetire env s st r also chosen ts

/-- The store a write path leaves. A replicated group goes through its own commit, which also writes
the marks of its children; a retirement forgets them. -/
def WriteOp.commit (s : Store) (b : Draft) : WriteOp → Store
  | applyReplicated group => (commitReplicated env.codec s group true).2
  | registryRetire _ _ _ _ _ child => (s.commit b).dropMarks child
  | _ => s.commit b

namespace State

variable (s : State)

def next (st : Stream) : ℕ := s.store.mem.next st

/-- A draft is written. -/
def wrote (store : Store) (b : Draft) : State :=
  { s with store := store, history := s.history ++ b.changes }

/-- The scan ends. -/
def drop (i : ℕ) : State := { s with scans := Function.update s.scans i none }

/-- The scan goes on. -/
def put (i : ℕ) (x : Scan) : State := { s with scans := Function.update s.scans i (some x) }

end State

/-! ### Removals -/

/-- What the commit of a scan takes from a stream. -/
structure Removal where
  stream : Stream
  gone : List Gone
  /-- The bytes it subtracts. -/
  shed : ℕ
  /-- The low-water mark it leaves. -/
  lwm : ℕ
  /-- Whether it is counted among the removals that are no prefix. -/
  holes : Bool

/-- The bytes of records. -/
def shedOf (c : Codec) (st : Stream) (recs : List (ℕ × RecEnc)) : ℕ :=
  (recs.map fun x ↦ streamKeyBytes st + c.recSize x.2).sum

/-- The keys of a record that go with it outside a prune: its own and its signal index entry. -/
def goneOf (x : ℕ × RecEnc) : List Gone :=
  .record x.1 :: if x.2.signalID = "" then [] else [.sig x.2.signalID x.1]

/-- The keys a prune of `[lwm, upTo)` takes: every record in the range, and the index entries of those
it read. -/
def pruneGone (lwm upTo : ℕ) (recs : List (ℕ × RecEnc)) : List Gone :=
  (List.range' lwm (upTo - lwm)).map .record ++ recs.flatMap fun x ↦
    (if x.2.signalID = "" then [] else [.sig x.2.signalID x.1]) ++
      match commandTarget x.2.topic with
      | some node => [.target node x.1]
      | none => []

/-- `PruneScanned` under the lock. -/
def pruneScanned (s : State) (st : Stream) (lwm holes upTo floor : ℕ) (recs : List (ℕ × RecEnc)) :
    Option Removal :=
  if s.lwm st ≠ lwm ∨ s.next st < upTo then none
  else if min upTo floor ≤ lwm then none
  else
    -- what was read is not what goes: scan again
    let stats :=
      if min upTo floor ≠ upTo ∨ s.holes st ≠ holes then
        recordsIn s.store.disk st lwm (min upTo floor)
      else recs
    some
      { stream := st
        gone := pruneGone lwm (min upTo floor) stats
        shed := shedOf env.codec st stats
        lwm := min upTo floor
        holes := false }

/-- `Compact` under the lock. -/
def compactScanned (s : State) (st : Stream) (lwm holes floor : ℕ) (recs : List (ℕ × RecEnc)) :
    Option Removal :=
  if s.lwm st ≠ lwm ∨ s.holes st ≠ holes then none
  else
    let dropped := recs.filter (KeyedLog.drops RecEnc.topic isRetraction recs floor)
    if dropped = [] then none
    else
      some
        { stream := st
          gone := dropped.flatMap goneOf
          shed := shedOf env.codec st dropped
          lwm := lwm
          holes := true }

/-- `EvictRecords` under the lock: only a prune makes it stop. -/
def evictScanned (s : State) (st : Stream) (lwm : ℕ) (recs : List (ℕ × RecEnc)) : Option Removal :=
  if s.lwm st ≠ lwm ∨ recs = [] then none
  else
    some
      { stream := st
        gone := recs.flatMap goneOf
        shed := shedOf env.codec st recs
        lwm := lwm
        holes := true }

/-- Of the records per-signal retention dooms, those that no prune took and no cursor protects. -/
def flushed (s : State) (st : Stream) (floor : ℕ) (doomed : List (String × ℕ × RecEnc)) :
    List (String × ℕ × RecEnc) :=
  doomed.filter fun x ↦ decide (x.2.1 < min floor (s.next st)) && decide (s.lwm st ≤ x.2.1)

/-- `deleteSignalRecords` under the lock. -/
def signalsScanned (s : State) (st : Stream) (floor : ℕ) (doomed : List (String × ℕ × RecEnc)) :
    Option Removal :=
  if flushed s st floor doomed = [] then none
  else
    some
      { stream := st
        gone := (flushed s st floor doomed).flatMap fun x ↦ [.record x.2.1, .sig x.1 x.2.1]
        shed := shedOf env.codec st ((flushed s st floor doomed).map Prod.snd)
        lwm := s.lwm st
        holes := true }

/-- The draft of a removal and of the gap markers that go with it. -/
def Removal.draft (s : Store) (x : Removal) (gaps : List Record) : Draft :=
  (s.draft.remove x.stream x.gone x.shed).addAll env.codec (gaps.map (x.stream, ·))

/-- The removal is committed. -/
def State.remove (s : State) (x : Removal) (gaps : List Record) : State :=
  { s with
    store := s.store.commit (x.draft env s.store gaps)
    lwm := Function.update s.lwm x.stream x.lwm
    holes := if x.holes then Function.update s.holes x.stream (s.holes x.stream + 1) else s.holes
    history := s.history ++ (x.draft env s.store gaps).changes }

/-- Commit what a scan takes, or nothing when it stops. -/
def State.removeOr (s : State) (x : Option Removal) (gaps : List Record) : State :=
  match x with
  | some x => s.remove env x gaps
  | none => s

/-! ### Steps -/

/-- The records an eviction dooms of those it examines. -/
def evicted (d : Disk) (st : Stream) (lo hi maxScan : ℕ) (doomed : Topic → Bool) : List (ℕ × RecEnc) :=
  ((recordsIn d st lo hi).take maxScan).filter fun x ↦ doomed x.2.topic

/-- What a scan has read under the lock when it begins. -/
def Scan.begin_ (s : State) (st : Stream) : Kind → Scan
  | .prune => .prune st (s.lwm st) (s.holes st) none
  | .compact => .compact st (s.next st) (s.lwm st) (s.holes st) none
  | .evict => .evict st (s.next st) (s.lwm st) none
  | .signals => .signals st (s.next st) (s.lwm st) none [] []

/-- An eviction of current-state entries. -/
def evictKVDraft (s : Store) (keys : List KVKey) : Draft := keys.foldl Draft.evict s.draft

/-- The store is closed, or its process dies, and it is opened again. -/
def State.reopen (s : State) : State :=
  let o := openIndexes s.store.reload (some ∘ s.sigFrom) (some ∘ s.targetFrom) false false
  { s with
    store := o.store
    holes := fun _ ↦ 0
    sigFrom := o.sigFrom
    targetFrom := o.targetFrom
    scans := fun _ ↦ none }

/-- One step. -/
def step (s : State) : Event → Option State
  | .write op ok =>
    match op.draft env s.store with
    | some b => some (if ok then s.wrote (op.commit env s.store b) b else s)
    | none => some s
  | .adoptChildStore child => some { s with store := s.store.dropMarks child }
  | .evictKV keys =>
    some (s.wrote (s.store.commit (evictKVDraft s.store keys)) (evictKVDraft s.store keys))
  | .begin_ i kind st =>
    if st.isFixed ∧ (s.scans i).isNone then some (s.put i (Scan.begin_ s st kind)) else none
  | .readPrune i upTo =>
    match s.scans i with
    | some (.prune st lwm holes none) =>
      if lwm < upTo ∧ upTo ≤ s.next st then
        some (s.put i (.prune st lwm holes (some (upTo, recordsIn s.store.disk st lwm upTo))))
      else none
    | _ => none
  | .readCompact i =>
    match s.scans i with
    | some (.compact st next lwm holes none) =>
      some (s.put i (.compact st next lwm holes (some (recordsIn s.store.disk st lwm next))))
    | _ => none
  | .readEvict i start maxScan doomed =>
    match s.scans i with
    | some (.evict st next lwm none) =>
      some (s.put i (.evict st next lwm
        (some (evicted s.store.disk st (max start lwm) next maxScan doomed))))
    | _ => none
  | .openIter i =>
    match s.scans i with
    | some (.signals st next lwm none visited found) =>
      some (s.put i (.signals st next lwm (some s.store.disk) visited found))
    | _ => none
  | .visit i signalID off =>
    match s.scans i with
    | some (.signals st next lwm (some d) visited found) =>
      -- the iterator moves on over the index entries between the mark and the head of its start
      if (d (.sig st signalID off)).isSome ∧ lwm ≤ off ∧ off < next ∧ (signalID, off) ∉ visited then
        some (s.put i (.signals st next lwm (some d) ((signalID, off) :: visited)
          (match recordAt s.store.disk st off with
            | some e => (signalID, off, e) :: found
            | none => found)))
      else none
    | _ => none
  | .commitPrune i floor gaps =>
    match s.scans i with
    | some (.prune st lwm holes (some (upTo, recs))) =>
      some ((s.removeOr env (pruneScanned env s st lwm holes upTo floor recs) gaps).drop i)
    | _ => none
  | .commitCompact i floor =>
    match s.scans i with
    | some (.compact st _ lwm holes (some recs)) =>
      some ((s.removeOr env (compactScanned env s st lwm holes floor recs) []).drop i)
    | _ => none
  | .commitEvict i =>
    match s.scans i with
    | some (.evict st _ lwm (some recs)) =>
      some ((s.removeOr env (evictScanned env s st lwm recs) []).drop i)
    | _ => none
  | .flushSignals i floor doomed gaps =>
    match s.scans i with
    | some (.signals st next lwm iter visited found) =>
      let batch := found.filter fun x ↦ doomed x.2.1
      some ((s.removeOr env (signalsScanned env s st floor batch) gaps).put i
        (.signals st next lwm iter visited (found.filter fun x ↦ !doomed x.2.1)))
    | _ => none
  | .abandon i => some (s.drop i)
  | .reopen => some s.reopen

/-- The store as it is opened first. -/
def start (f : Found) : State :=
  let o := openIndexes f.store.reload f.sigFrom f.targetFrom f.legacySig f.legacyKV
  { store := o.store, lwm := f.lwm, sigFrom := o.sigFrom, targetFrom := o.targetFrom }

/-- A store opened as found, in operation. -/
def system (f : Found) : StateMachine State Event where
  start := start f
  step := step env

end StoreRun

end Colca
