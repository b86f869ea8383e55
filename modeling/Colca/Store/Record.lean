import Colca.Lib.Batch
import Colca.Uns.Topic

/-!
# Records and the on-disk layout of a store

The records of the eight streams, the keys and values a store keeps on disk, and `addRecord`, which
turns one record into the writes of a batch. A disk is a `KeyStore`: the engine below the store
applies a batch atomically, so batches are the only way a disk changes.

Two things outside the modelled code enter as parameters, collected in `Codec`: the length of the
JSON encoding of a record, which the byte counter of a stream adds up, and the signal id inside a
metric payload.
-/

namespace Colca

open Uns

/-- A record payload. -/
abbrev Payload := List UInt8

/-- The empty string as a path or topic. -/
def noPath : Path := [""]

/-- Who a record is attributed to. Empty fields are absent on the wire and on disk. -/
structure Attribution where
  writtenBy : String := ""
  actorID : String := ""
  actorLabel : String := ""
  actorKind : String := ""
  actorGroups : List String := []
  actorClient : String := ""
  actorEmail : String := ""
  actorClasses : List String := []
  actorCredential : String := ""
  deriving DecidableEq, Repr, Inhabited

/-- A record as handed to the store. -/
structure Record where
  sourceLocalOnly : Bool := false
  topic : Topic
  payload : Payload := []
  ts : ℤ := 0
  by_ : Attribution := {}
  originOffset : ℕ := 0
  /-- The door that admitted a command on this node; never leaves the node. -/
  door : String := ""
  /-- The hierarchy path of the key-value projection, empty for none. -/
  kvPath : Path := noPath
  kvNode : String := ""
  /-- A tombstone: the key-value entry is deleted instead of set. -/
  delete : Bool := false
  deriving DecidableEq, Repr, Inhabited

/-- A record as it travels from a child node to its parent. -/
structure ReplRecord where
  /-- Nonzero on a skip range: an inclusive omitted metric range ending at `childOffset`. -/
  skipFrom : ℕ := 0
  childOffset : ℕ
  originOffset : ℕ := 0
  topic : Topic := noPath
  payload : Payload := []
  ts : ℤ := 0
  by_ : Attribution := {}
  kvPath : Path := noPath
  kvNode : String := ""
  delete : Bool := false
  deriving DecidableEq, Repr, Inhabited

/-! ### The disk -/

/-- A stream record as encoded on disk. -/
structure RecEnc where
  sourceLocalOnly : Bool
  topic : Topic
  payload : Payload
  ts : ℤ
  by_ : Attribution
  originOffset : ℕ
  door : String
  signalID : String
  deriving DecidableEq, Repr, Inhabited

/-- A key-value entry as encoded on disk. -/
structure KVEnc where
  topic : Topic
  payload : Payload
  ts : ℤ
  offset : ℕ
  originOffset : ℕ
  writtenBy : String
  actorID : String
  actorLabel : String
  actorKind : String
  deriving DecidableEq, Repr, Inhabited

/-- The keys of a disk. -/
inductive Key
  /-- A stream record. -/
  | stream (s : Stream) (off : ℕ)
  /-- The signal index entry of a record. -/
  | sig (s : Stream) (signalID : String) (off : ℕ)
  /-- The target index entry of a command. -/
  | target (s : Stream) (node : String) (off : ℕ)
  /-- A current-state entry. -/
  | kv (path : Path) (node : String) (topic : Topic)
  /-- The contract index entry of a current-state entry. -/
  | kvIndex (contract : String) (path : Path) (node : String) (topic : Topic)
  /-- The next offset of a stream. -/
  | head (s : Stream)
  /-- The mark that the records below the head have their index entries. -/
  | indexed (s : Stream)
  /-- The live bytes of a stream. -/
  | bytes (s : Stream)
  /-- The high-water mark kept for a child's stream. -/
  | hwm (child : String) (s : Stream)
  deriving DecidableEq, Repr

/-- The values of a disk. -/
inductive Val
  /-- A big-endian counter. -/
  | num (n : ℕ)
  /-- An encoded record. -/
  | record (e : RecEnc)
  /-- An encoded current-state entry. -/
  | kv (e : KVEnc)
  /-- The empty value of an index entry. -/
  | mark
  deriving DecidableEq, Repr

/-- A disk. -/
abbrev Disk := KeyStore Key Val

/-- A counter, with the value it has when the key is absent or does not hold a counter. -/
def readU64 (d : Disk) (k : Key) (dflt : ℕ) : ℕ :=
  match d k with
  | some (.num n) => n
  | _ => dflt

@[simp] theorem readU64_of_num {d : Disk} {k : Key} {n dflt : ℕ} (h : d k = some (.num n)) :
    readU64 d k dflt = n := by
  simp [readU64, h]

theorem readU64_congr {d d' : Disk} {k : Key} (h : d k = d' k) (dflt : ℕ) :
    readU64 d k dflt = readU64 d' k dflt := by
  simp [readU64, h]

/-! ### Adding a record to a batch -/

/-- What the store takes from the JSON library. -/
structure Codec where
  /-- The length of a record's encoding. -/
  recSize : RecEnc → ℕ
  /-- The `signal_id` of a metric payload, empty when it does not decode or has none. -/
  signalID : Payload → String

/-- The signal of a metric record, empty for any other record. -/
def Codec.metricSignalID (c : Codec) (topic : Topic) (payload : Payload) : String :=
  match parse topic with
  | .ok p => if p.contract = "_Metric" then c.signalID payload else ""
  | .error _ => ""

/-- The topic is the ack of a command that fetches logs. -/
def isFetchLogsAck (topic : Topic) : Bool :=
  match parse topic with
  | .ok p => p.contract = "_Ack" && topic.getLastD "" = "fetchLogs"
  | .error _ => false

/-- The key acks with a page of log records are indexed under, for their short retention. -/
def fetchLogsAckKey : String := "_fetchLogsAck"

/-- Only a command keeps what its door witnessed about the person beyond who they are. -/
def keepsActorWitness (topic : Topic) : Bool :=
  match parse topic with
  | .ok p => (classOf p.contract).isCommand
  | .error _ => false

/-- The attribution as a record keeps it. -/
def Attribution.kept (a : Attribution) (topic : Topic) : Attribution :=
  if keepsActorWitness topic then a
  else { a with actorEmail := "", actorClasses := [], actorCredential := "" }

/-- The writes of a current-state entry and its contract index entry. -/
def setKV (path : Path) (node : String) (topic : Topic) (e : KVEnc) : Batch Key Val :=
  .set (.kv path node topic) (.kv e) ::
    match parse topic with
    | .ok p => [.set (.kvIndex p.contract path node topic) .mark]
    | .error _ => []

/-- The writes that retire a current-state entry. -/
def deleteKV (path : Path) (node : String) (topic : Topic) : Batch Key Val :=
  .delete (.kv path node topic) ::
    match parse topic with
    | .ok p => [.delete (.kvIndex p.contract path node topic)]
    | .error _ => []

/-- The length of a stream record's key. -/
def streamKeyBytes (s : Stream) : ℕ := 2 + s.name.utf8ByteSize + 1 + 8

/-- The encoding of a record at an offset. -/
def Codec.encode (c : Codec) (off : ℕ) (r : Record) : RecEnc :=
  let signalID := c.metricSignalID r.topic r.payload
  { sourceLocalOnly := r.sourceLocalOnly
    topic := r.topic
    payload := r.payload
    ts := r.ts
    by_ := r.by_.kept r.topic
    originOffset := if r.originOffset = 0 then off else r.originOffset
    door := r.door
    signalID := if isFetchLogsAck r.topic && signalID = "" then fetchLogsAckKey else signalID }

/-- The writes of the key-value projection of a record. -/
def kvWrites (off originOffset : ℕ) (r : Record) : Batch Key Val :=
  if r.kvPath = noPath then []
  else if r.delete then deleteKV r.kvPath r.kvNode r.topic
  else
    setKV r.kvPath r.kvNode r.topic
      { topic := r.topic, payload := r.payload, ts := r.ts, offset := off,
        originOffset := originOffset, writtenBy := r.by_.writtenBy, actorID := r.by_.actorID,
        actorLabel := r.by_.actorLabel, actorKind := r.by_.actorKind }

/-- The writes of one record at an offset, and its byte cost: key and value of the stream record,
not its index entries. -/
def addRecord (c : Codec) (s : Stream) (off : ℕ) (r : Record) : Batch Key Val × ℕ :=
  let e := c.encode off r
  ([.set (.stream s off) (.record e)] ++
    (if e.signalID = "" then [] else [.set (.sig s e.signalID off) .mark]) ++
    (match commandTarget r.topic with
      | some node => [.set (.target s node off) .mark]
      | none => []) ++
    kvWrites off e.originOffset r, streamKeyBytes s + c.recSize e)

/-- The new head of a stream, with the mark of its index coverage. -/
def setHead (s : Stream) (next : ℕ) : Batch Key Val :=
  [.set (.head s) (.num next), .set (.indexed s) (.num next)]

/-- The keys that hold the counters of a store: heads, byte counts and high-water marks. -/
def Key.isCounter : Key → Bool
  | .head _ | .indexed _ | .bytes _ | .hwm _ _ => true
  | _ => false

/-- Adding a record writes no counter. -/
theorem addRecord_not_counter {c : Codec} {s : Stream} {off : ℕ} {r : Record}
    {w : Write Key Val} (hw : w ∈ (addRecord c s off r).1) : w.key.isCounter = false := by
  simp only [addRecord, kvWrites, setKV, deleteKV, List.mem_append, List.mem_singleton] at hw
  rcases hw with ((rfl | hw) | hw) | hw
  · rfl
  · split at hw
    · cases hw
    · rw [List.mem_singleton] at hw
      rw [hw]; rfl
  · split at hw
    · rw [List.mem_singleton] at hw
      rw [hw]; rfl
    · cases hw
  · split at hw
    · cases hw
    · split at hw <;> rcases List.mem_cons.mp hw with rfl | hw
      · rfl
      · split at hw <;> simp_all [Key.isCounter]
      · rfl
      · split at hw <;> simp_all [Key.isCounter]

end Colca
