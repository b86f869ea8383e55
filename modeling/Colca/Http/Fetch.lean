import Colca.Store.Indexes
import Colca.Store.ReadPage

/-!
# A consumer of a stream

A consumer reads a stream in pages (`GET /fetch`), from its cursor or ahead of it from where one of its
pages ended, and acknowledges what it has processed (`POST /ack`). The store goes on meanwhile: records
are appended, pruned, compacted and evicted, and the store is opened again.

The handler of a fetch takes what it needs at different moments: the cursor, then the head and the page,
and last the low-water mark, from which it reports a gap. A page that is found shorter than it was is
therefore answered with the gap that made it so.

Of what the consumer was told and not told, the code keeps nothing. `written` is the record that was
appended at each offset, `view` what stood in the stream when a page was read; `overtaken` marks the
offsets whose record a prefix prune took while the cursor stood at or below them, and `missed` those of
them that no answered page had passed by then.
-/

namespace Colca.Fetch

open Uns

/-- A consumer and what it keeps fixed. -/
structure Consumer where
  stream : Stream
  /-- The signals it asks for, if it does. -/
  signals : Option (List String) := none
  /-- Its other filters and its grants; for the commands stream also which commands are retired. -/
  keep : ℕ × RecEnc → Bool := fun _ ↦ true
  /-- An empty signal is refused. -/
  named : ∀ ids, signals = some ids → "" ∉ ids := by simp

/-- The signal of a record: the one it was stored with, or the one in its payload. -/
def signalOf (c : Codec) (e : RecEnc) : String :=
  if e.signalID ≠ "" then e.signalID else c.metricSignalID e.topic e.payload

/-- The filter of a fetch. -/
def Consumer.accepts (u : Consumer) (c : Codec) (x : ℕ × RecEnc) : Bool :=
  u.keep x && u.signals.all fun ids ↦ decide (signalOf c x.2 ∈ ids)

/-- A page. -/
structure Page where
  start : ℕ
  next : ℕ
  records : List (ℕ × RecEnc)
  gap : Option (ℕ × ℕ) := none
  view : ℕ → Option RecEnc

/-- A fetch in flight. -/
inductive Request
  | asked (start : ℕ)
  | read (page : Page)

def Request.start : Request → ℕ
  | asked n => n
  | read p => p.start

structure State where
  run : StoreRun.State
  cursor : ℕ
  fetches : ℕ → Option Request := fun _ ↦ none
  /-- The pages returned to the consumer. -/
  pages : List Page := []
  written : ℕ → Option RecEnc
  overtaken : ℕ → Bool := fun _ ↦ false
  missed : ℕ → Bool := fun _ ↦ false

inductive Event
  /-- The store's business. -/
  | store (e : StoreRun.Event)
  /-- A fetch comes in and finds its position: the cursor, or the end of an earlier page (`from`). -/
  | ask (i : ℕ) (ahead : Option ℕ)
  /-- The page is read. A read through the records takes the head before its iterator. -/
  | read (i limit maxScan maxBytes head : ℕ)
  /-- The gap is looked for and the page returned. -/
  | answer (i : ℕ)
  /-- The request or its answer is lost. -/
  | drop (i : ℕ)
  /-- An offset below the end of a returned page is acknowledged. -/
  | ack (off : ℕ)

variable (env : WriteEnv) (u : Consumer)

/-! ### Reading -/

/-- The records of a page, and its `next`. -/
def readOut (s : StoreRun.State) (start limit maxScan maxBytes head : ℕ) : PageOut :=
  let L : PageLimits RecEnc := ⟨limit, maxScan, maxBytes, env.codec.recSize⟩
  match u.signals with
  | some ids => readSignals L (u.accepts env.codec) s.store.disk u.stream ids (s.sigFrom u.stream)
      (s.lwm u.stream) start (s.next u.stream)
  | none => readRecordsBounded L (u.accepts env.codec) s.store.disk u.stream start head

/-- The page of a fetch, before the gap is looked for. -/
def readPage (s : StoreRun.State) (start limit maxScan maxBytes head : ℕ) : Page where
  start := start
  next := (readOut env u s start limit maxScan maxBytes head).2
  records := (readOut env u s start limit maxScan maxBytes head).1
  view := recordAt s.store.disk u.stream

/-- `Gap`: the part of the pruned prefix that lies at or after a position. -/
def gapAt (lwm position : ℕ) : Option (ℕ × ℕ) :=
  if lwm = 0 ∨ lwm ≤ max position 1 then none else some (max position 1, lwm - 1)

/-- The page reports the offset as pruned. -/
def Page.reports (p : Page) (o : ℕ) : Prop := ∃ g, p.gap = some g ∧ g.1 ≤ o ∧ o ≤ g.2

/-! ### Steps -/

/-- A step of the store takes the record at an offset with the prefix it prunes. -/
def prunes (run run' : StoreRun.State) (st : Stream) (o : ℕ) : Bool :=
  (recordAt run.store.disk st o).isSome && (recordAt run'.store.disk st o).isNone &&
    decide (o < run'.lwm st)

/-- The store has moved. -/
def State.moved (s : State) (st : Stream) (run : StoreRun.State) (fetches : ℕ → Option Request) : State :=
  { s with
    run := run
    fetches := fetches
    written := fun o ↦ if o < s.run.next st then s.written o else recordAt run.store.disk st o
    overtaken := fun o ↦ s.overtaken o || (prunes s.run run st o && decide (s.cursor ≤ o))
    missed := fun o ↦ s.missed o ||
      (prunes s.run run st o && decide (s.cursor ≤ o) && s.pages.all fun p ↦ decide (p.next ≤ o)) }

/-- A fetch goes on, or ends. -/
def State.put (s : State) (i : ℕ) (r : Option Request) : State :=
  { s with fetches := Function.update s.fetches i r }

/-- A restart ends every fetch. -/
def fetchesAfter (f : ℕ → Option Request) : StoreRun.Event → ℕ → Option Request
  | .reopen => fun _ ↦ none
  | _ => f

def step (s : State) : Event → Option State
  | .store e =>
    (StoreRun.step env s.run e).map fun run ↦ s.moved u.stream run (fetchesAfter s.fetches e)
  | .ask i ahead =>
    if s.run.next u.stream ≠ 0 ∧ (s.fetches i).isNone ∧ ∀ n ∈ ahead, ∃ p ∈ s.pages, p.next = n then
      some (s.put i (some (.asked (max s.cursor (ahead.getD 0)))))
    else none
  | .read i limit maxScan maxBytes head =>
    match s.fetches i with
    | some (.asked start) =>
      if 1 ≤ limit ∧ head ≤ s.run.next u.stream then
        some (s.put i (some (.read (readPage env u s.run start limit maxScan maxBytes head))))
      else none
    | _ => none
  | .answer i =>
    match s.fetches i with
    | some (.read p) =>
      some { s.put i none with
        pages := { p with gap := gapAt (s.run.lwm u.stream) p.start } :: s.pages }
    | _ => none
  | .drop i => some (s.put i none)
  | .ack off =>
    if (∃ p ∈ s.pages, off < p.next) ∧ off < s.run.next u.stream then
      some { s with cursor := max s.cursor (off + 1) }
    else none

/-- A store as found, and a consumer that has acknowledged the offset `acked`. -/
def system (f : Found) (acked : ℕ) : StateMachine State Event where
  start :=
    { run := StoreRun.start f
      cursor := acked + 1
      written := recordAt (StoreRun.start f).store.disk u.stream }
  step := step env u

/-! ### What a consumer may rely on -/

/-- **A consumer that is told everything.** -/
structure State.Informed (s : State) (acked : ℕ) : Prop where
  /-- The record at an offset the cursor has passed was on a page, or is rejected by the filter, or was
  gone when the page that passed it was read. -/
  passed : ∀ o e, acked < o → o < s.cursor → s.written o = some e →
    ∃ p ∈ s.pages, p.start ≤ o ∧ o < p.next ∧
      ((o, e) ∈ p.records ∨ u.accepts env.codec (o, e) = false ∨ p.view o = none)
  /-- What a prune took before a page went past it is reported. -/
  reported : ∀ o, s.missed o = true → o < s.cursor → ∃ p ∈ s.pages, p.reports o
  /-- A page repeats nothing of one that ends where it starts, or before. -/
  fresh : ∀ p ∈ s.pages, ∀ q ∈ s.pages, p.next ≤ q.start →
    ∀ x ∈ p.records, ∀ y ∈ q.records, x.1 ≠ y.1
  /-- No page has a record twice. -/
  once : ∀ p ∈ s.pages, p.records.Pairwise (·.1 < ·.1)

/-- From the coverage of the signal index on, records carry the signal of their payload. -/
def SignalsStored (c : Codec) (s : StoreRun.State) : Prop :=
  ∀ st o e, s.sigFrom st ≤ o → recordAt s.store.disk st o = some e → e.signalID = "" →
    c.metricSignalID e.topic e.payload = ""

end Colca.Fetch
