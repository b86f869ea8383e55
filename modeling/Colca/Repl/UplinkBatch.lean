import Colca.Store.Record
import Colca.Lib.OffsetLog

/-!
# What an uplink lane pushes

One pass of `pushOnce` over a lane: the page it reads, which records of the page rise to the parent,
the batch it builds from them, and how a batch is cut down. This module is about one page and one
batch; `Colca.Repl.UplinkSystem` runs the lanes against a parent.

## Three kinds of records

* A record the lane may **not** push (a node-private or retired contract, a command on the commands
  lane, a log below the forwarded level) is not in the page's records; the cursor moves past it.
* A source-local-only metric is pushed as a **skip range**: it advances the parent's mark and stores
  nothing. Adjacent ones share a range.
* Every other record **rises** (`Config.rises`): it is pushed as itself.

A batch may then be cut to a prefix twice, by the size of the request and by the limit of a lane that
isolates a refused record. `BatchInv.cut` says what survives: below the position the cut
batch moves the cursor to, every record of the page that rises is in the batch.
-/

namespace Colca.Uplink

open Uns List

/-! ### Which records leave the node -/

/-- The commands lane lets acks and gap markers rise, never a command. -/
def ackOnly (t : Topic) : Bool :=
  match parse t with
  | .ok p => p.contract = "_Ack" || p.contract = "_StreamGap"
  | .error _ => false

/-- Node-private records and records of retired contracts stay home; unparseable topics pass. -/
def leavesTheNode (t : Topic) : Bool :=
  match parse t with
  | .ok p => !isNodePrivate p.contract && !isRetired p.contract
  | .error _ => true

/-- The lane's own filter. -/
def laneFilter : Stream → Topic → Bool
  | .commands => ackOnly
  | _ => fun _ ↦ true

/-- The keep-home rule and the lane's own filter. -/
def pushable (st : Stream) (t : Topic) : Bool := leavesTheNode t && laneFilter st t

/-- The level segments of log records, lowest first. -/
def logLevels : List String := ["DEBUG", "INFO", "WARNING", "ERROR", "CRITICAL"]

/-- The rank of a log level. -/
def logLevelRank (level : String) : Option ℕ := logLevels.idxOf? level

/-- The lowest level forwarded to the parent, with overrides per service. -/
structure LogForwarding where
  minRank : ℕ := 2
  services : String → Option ℕ := fun _ ↦ none

/-- A logs-stream record goes to the parent. Only log lines of a known level are held back. -/
def LogForwarding.forward (f : LogForwarding) (t : Topic) : Bool :=
  match parse t with
  | .error _ => true
  | .ok p =>
    if p.contract ≠ "_Log" then true
    else
      match logLevelRank (p.path.getLastD "") with
      | none => true
      | some rank =>
        let service := if 2 ≤ p.path.length then f.services (p.path.dropLast.getLastD "") else none
        service.getD f.minRank ≤ rank

/-- What a replication request says besides its records. Store incarnations are numbers here, `none`
for the empty id. -/
structure Envelope where
  /-- The child's own incarnation. -/
  store : ℕ
  stream : Stream
  /-- The parent incarnation the child recorded. -/
  parent : Option ℕ
  /-- The highest offset of the stream the parent confirmed. -/
  acked : ℕ
  deriving DecidableEq, Repr

/-- The child and parent as they are configured, and what they take from libraries. -/
structure Config where
  /-- The child's identity at the parent. -/
  child : String
  /-- Where the child is mounted in the parent's namespace. -/
  mount : Path
  /-- The parent's contract classes. -/
  classOf : String → Uns.Class := Uns.classOf
  codec : Codec
  /-- The length of the JSON body of a push. -/
  bodySize : Envelope → List ReplRecord → ℕ
  /-- The child's and the parent's bound on that body. -/
  maxReplicateBody : ℕ
  replicateBodyLimit : ℕ
  logs : LogForwarding := {}
  /-- How long a record may be refused alone before it is set aside. -/
  grace : ℤ

/-- The lane may push the record. -/
def Config.mayPush (cfg : Config) (st : Stream) (t : Topic) : Bool :=
  pushable st t && (st != .logs || cfg.logs.forward t)

/-- A metric whose signal is not replicated to parents. -/
def localOnly (st : Stream) (e : RecEnc) : Bool := st == .metrics && e.sourceLocalOnly

/-- The record is to reach the parent as itself. -/
def Config.rises (cfg : Config) (st : Stream) (e : RecEnc) : Bool :=
  cfg.mayPush st e.topic && !localOnly st e

/-! ### From a page to a batch -/

/-- The most records of one page and of one request. -/
def replBatch : ℕ := 200

/-- A stored record as it is sent. -/
def toRepl (x : ℕ × RecEnc) : ReplRecord :=
  { childOffset := x.1, originOffset := x.2.originOffset, topic := x.2.topic
    payload := x.2.payload, ts := x.2.ts, by_ := x.2.by_ }

@[simp] theorem toRepl_childOffset (x : ℕ × RecEnc) : (toRepl x).childOffset = x.1 := rfl
@[simp] theorem toRepl_skipFrom (x : ℕ × RecEnc) : (toRepl x).skipFrom = 0 := rfl

/-- Add one record of the page to the batch; a source-local-only metric extends the skip range the
batch ends with, or starts one. -/
def pushRecord (st : Stream) (batch : List ReplRecord) (x : ℕ × RecEnc) : List ReplRecord :=
  if localOnly st x.2 then
    match batch.getLast? with
    | some last =>
      if last.skipFrom ≠ 0 ∧ last.childOffset + 1 = x.1 then
        batch.dropLast ++ [{ last with childOffset := x.1 }]
      else batch ++ [{ childOffset := x.1, skipFrom := x.1 }]
    | none => [{ childOffset := x.1, skipFrom := x.1 }]
  else batch ++ [toRepl x]

/-- The batch of a page's records. -/
def buildBatch (st : Stream) (recs : List (ℕ × RecEnc)) : List ReplRecord :=
  recs.foldl (pushRecord st) []

/-- What the batch of a page's records is: in offset order, ending where the records end, holding
exactly the records that are not source-local-only as themselves. -/
structure BatchOf (st : Stream) (recs : List (ℕ × RecEnc)) (batch : List ReplRecord) : Prop where
  increasing : batch.Pairwise (·.childOffset < ·.childOffset)
  last_eq : batch.getLast?.map ReplRecord.childOffset = recs.getLast?.map Prod.fst
  data : ∀ r ∈ batch, r.skipFrom = 0 → ∃ x ∈ recs, localOnly st x.2 = false ∧ r = toRepl x
  mem : ∀ x ∈ recs, localOnly st x.2 = false → toRepl x ∈ batch
  offset : ∀ r ∈ batch, ∃ x ∈ recs, x.1 = r.childOffset

theorem BatchOf.nil (st : Stream) : BatchOf st [] [] where
  increasing := List.Pairwise.nil
  last_eq := rfl
  data _ h := by cases h
  mem _ h := by cases h
  offset _ h := by cases h

section Push

variable {st : Stream} {recs : List (ℕ × RecEnc)} {batch : List ReplRecord} {x : ℕ × RecEnc}

/-- Every offset of the batch is below a record that follows the page's records. -/
theorem BatchOf.lt_of_mem (h : BatchOf st recs batch) (hx : ∀ y ∈ recs, y.1 < x.1) :
    ∀ r ∈ batch, r.childOffset < x.1 := by
  intro r hr
  obtain ⟨y, hy, heq⟩ := h.offset r hr
  exact heq ▸ hx y hy

/-- Appending an entry of its own for the next record. -/
theorem BatchOf.concat (h : BatchOf st recs batch) (hx : ∀ y ∈ recs, y.1 < x.1) {r : ReplRecord}
    (hoff : r.childOffset = x.1) (hdata : r.skipFrom = 0 → localOnly st x.2 = false ∧ r = toRepl x)
    (hmem : localOnly st x.2 = false → r = toRepl x) : BatchOf st (recs ++ [x]) (batch ++ [r]) where
  increasing := by
    refine pairwise_append.mpr ⟨h.increasing, pairwise_singleton _ _, ?_⟩
    intro r' hr' y hy
    rw [mem_singleton.mp hy, hoff]
    exact h.lt_of_mem hx r' hr'
  last_eq := by simp [hoff]
  data r' hr' hskip := by
    rcases mem_append.mp hr' with hr' | hr'
    · obtain ⟨y, hy, hd⟩ := h.data r' hr' hskip
      exact ⟨y, mem_append_left _ hy, hd⟩
    · obtain rfl := mem_singleton.mp hr'
      exact ⟨x, by simp, hdata hskip⟩
  mem y hy hl := by
    rcases mem_append.mp hy with hy | hy
    · exact mem_append_left _ (h.mem y hy hl)
    · obtain rfl := mem_singleton.mp hy
      rw [← hmem hl]
      exact mem_append_right _ (by simp)
  offset r' hr' := by
    rcases mem_append.mp hr' with hr' | hr'
    · obtain ⟨y, hy, heq⟩ := h.offset r' hr'
      exact ⟨y, mem_append_left _ hy, heq⟩
    · obtain rfl := mem_singleton.mp hr'
      exact ⟨x, by simp, hoff.symm⟩

/-- Extending the skip range the batch ends with. -/
theorem BatchOf.extend {init : List ReplRecord} {last : ReplRecord}
    (h : BatchOf st recs (init ++ [last])) (hx : ∀ y ∈ recs, y.1 < x.1) (hl : localOnly st x.2)
    (hskip : last.skipFrom ≠ 0) :
    BatchOf st (recs ++ [x]) (init ++ [{ last with childOffset := x.1 }]) where
  increasing := by
    obtain ⟨hinit, -, -⟩ := pairwise_append.mp h.increasing
    refine pairwise_append.mpr ⟨hinit, pairwise_singleton _ _, ?_⟩
    intro r' hr' y hy
    rw [mem_singleton.mp hy]
    exact h.lt_of_mem hx r' (mem_append_left _ hr')
  last_eq := by simp
  data r' hr' hs := by
    rcases mem_append.mp hr' with hr' | hr'
    · obtain ⟨y, hy, hd⟩ := h.data r' (mem_append_left _ hr') hs
      exact ⟨y, mem_append_left _ hy, hd⟩
    · rw [mem_singleton.mp hr'] at hs
      exact absurd hs hskip
  mem y hy hly := by
    rcases mem_append.mp hy with hy | hy
    · -- the range that was extended is no record, so every record is in front of it
      rcases mem_append.mp (h.mem y hy hly) with hm | hm
      · exact mem_append_left _ hm
      · rw [← mem_singleton.mp hm] at hskip
        exact absurd rfl hskip
    · rw [mem_singleton.mp hy, hl] at hly
      cases hly
  offset r' hr' := by
    rcases mem_append.mp hr' with hr' | hr'
    · obtain ⟨y, hy, heq⟩ := h.offset r' (mem_append_left _ hr')
      exact ⟨y, mem_append_left _ hy, heq⟩
    · rw [mem_singleton.mp hr']
      exact ⟨x, by simp, rfl⟩

theorem BatchOf.pushRecord (h : BatchOf st recs batch) (hx : ∀ y ∈ recs, y.1 < x.1)
    (hpos : 0 < x.1) : BatchOf st (recs ++ [x]) (pushRecord st batch x) := by
  unfold Uplink.pushRecord
  split
  · rename_i hl
    -- a range of its own, which is no record because offsets are positive
    have hrange : BatchOf st (recs ++ [x]) (batch ++ [{ childOffset := x.1, skipFrom := x.1 }]) :=
      h.concat hx rfl (fun hs ↦ absurd hs hpos.ne') fun hnl ↦ by
        rw [hl] at hnl
        cases hnl
    split
    · rename_i last hlast
      split
      · rename_i hmerge
        obtain ⟨init, rfl⟩ := getLast?_eq_some_iff.mp hlast
        rw [dropLast_concat]
        exact h.extend hx hl hmerge.1
      · exact hrange
    · rename_i hlast
      rw [getLast?_eq_none_iff.mp hlast] at hrange
      exact hrange
  · rename_i hl
    have hl : localOnly st x.2 = false := by simpa using hl
    exact h.concat hx rfl (fun _ ↦ ⟨hl, rfl⟩) fun _ ↦ rfl

/-- **The batch of a page's records.** -/
theorem buildBatch_spec (st : Stream) (hinc : recs.Pairwise (·.1 < ·.1))
    (hpos : ∀ x ∈ recs, 0 < x.1) : BatchOf st recs (buildBatch st recs) := by
  induction recs using List.reverseRecOn with
  | nil => exact BatchOf.nil st
  | append_singleton recs x ih =>
    obtain ⟨hrecs, -, hlt⟩ := pairwise_append.mp hinc
    have hih := ih hrecs fun y hy ↦ hpos y (mem_append_left _ hy)
    rw [buildBatch, foldl_append]
    exact hih.pushRecord (fun y hy ↦ hlt y hy x (by simp)) (hpos x (by simp))

end Push

/-! ### Cutting a batch down -/

/-- The binary search of `fitReplicationBatch` for the longest prefix that fits. Every turn makes the
interval `low … high` shorter, so the length of the batch is fuel enough. -/
def fitSearch (fits : ℕ → Bool) : (fuel low high best : ℕ) → ℕ
  | 0, _, _, best => best
  | fuel + 1, low, high, best =>
    if low ≤ high then
      let mid := low + (high - low) / 2
      if fits mid then fitSearch fits fuel (mid + 1) high mid
      else fitSearch fits fuel low (mid - 1) best
    else best

/-- The batch, or its longest prefix found whose request fits; `none` when not one record does. -/
def Config.fitReplicationBatch (cfg : Config) (env : Envelope) (batch : List ReplRecord) :
    Option (List ReplRecord) :=
  if cfg.bodySize env batch ≤ cfg.maxReplicateBody then some batch
  else
    let fits n := decide (cfg.bodySize env (batch.take n) ≤ cfg.maxReplicateBody)
    let best := fitSearch fits batch.length 1 (batch.length - 1) 0
    if best = 0 then none else some (batch.take best)

theorem Config.fitReplicationBatch_isPrefix {cfg : Config} {env : Envelope}
    {batch fit : List ReplRecord} (h : cfg.fitReplicationBatch env batch = some fit) : fit <+: batch := by
  unfold Config.fitReplicationBatch at h
  split at h
  · cases h
    exact prefix_refl _
  · simp only at h
    split at h
    · cases h
    · cases h
      exact take_prefix _ _

theorem Config.fitReplicationBatch_ne_nil {cfg : Config} {env : Envelope}
    {batch fit : List ReplRecord} (hb : batch ≠ [])
    (h : cfg.fitReplicationBatch env batch = some fit) : fit ≠ [] := by
  unfold Config.fitReplicationBatch at h
  split at h
  · cases h
    exact hb
  · simp only at h
    split at h
    · cases h
    · rename_i hbest
      cases h
      simp [hbest, hb]

/-- What a lane knows about the refusals it is isolating. -/
structure LaneHold where
  /-- The most records the next batch may carry, `0` for no limit beyond the usual ones. -/
  limit : ℕ := 0
  /-- The record the parent refuses alone, `0` for none. -/
  offset : ℕ := 0
  /-- Since when it is refused alone. -/
  since : ℤ := 0
  deriving DecidableEq, Repr, Inhabited

/-- The hold after the parent refused a batch for good, and whether the batch was the one record the
hold names and its grace is over. A skip range is only ever held. -/
def LaneHold.refused (h : LaneHold) (batch : List ReplRecord) (now grace : ℤ) : LaneHold × Bool :=
  match batch with
  | [r] =>
    let since := if h.offset ≠ r.childOffset then now else h.since
    (⟨1, r.childOffset, since⟩, r.skipFrom = 0 && decide (grace ≤ now - since))
  | _ => (⟨max 1 (batch.length / 2), 0, h.since⟩, false)

/-- Only a batch of one record runs out of grace. -/
theorem LaneHold.refused_snd {h : LaneHold} {batch : List ReplRecord} {now grace : ℤ}
    (he : (h.refused batch now grace).2) : ∃ r, batch = [r] := by
  unfold LaneHold.refused at he
  split at he
  · exact ⟨_, rfl⟩
  · cases he

/-- Grow the batch back after the parent took one. -/
def LaneHold.accepted (h : LaneHold) : LaneHold :=
  { h with offset := 0, limit := if replBatch ≤ h.limit * 2 then 0 else h.limit * 2 }

/-- The limit of a lane that isolates a refused record. -/
def LaneHold.cut (h : LaneHold) (batch : List ReplRecord) : List ReplRecord :=
  if 0 < h.limit ∧ h.limit < batch.length then batch.take h.limit else batch

theorem LaneHold.cut_ne_nil (h : LaneHold) {batch : List ReplRecord} (hb : batch ≠ []) :
    h.cut batch ≠ [] := by
  unfold LaneHold.cut
  split
  · rename_i hlim
    simp [hlim.1.ne', hb]
  · exact hb

theorem LaneHold.cut_isPrefix (h : LaneHold) (batch : List ReplRecord) : h.cut batch <+: batch := by
  unfold LaneHold.cut
  split
  · exact take_prefix _ _
  · exact prefix_refl _

end Colca.Uplink
