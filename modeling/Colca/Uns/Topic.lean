import Mathlib.Algebra.GroupWithZero.Nat
import Mathlib.Data.List.Infix
import Mathlib.Data.Nat.Notation

/-!
# Topics of the unified namespace

The topic grammar `colca/v1/_Contract/{node-id}/{path…}`, the routing classes of contracts, the
stream that stores each class, and the mount rewriting done on every hop between a child node and
its parent.

## Topics are lists of segments

The source handles topics and paths as strings and cuts them at `/` wherever it looks at them. Here
a topic **is** its list of segments (`strings.Split(topic, "/")`), and a path is the list of the
segments after the node id, joined by nothing. The empty string is the one-segment list `[""]`.
Splitting and joining at `/` are inverse to each other, so every operation below says on segments
what its source says on strings; the byte length that `Parse` bounds is `topicBytes`, the length of
the joined string.
-/

namespace Colca.Uns

/-- A `/`-separated path, as its segments. -/
abbrev Path := List String

/-- A topic, as its segments. -/
abbrev Topic := List String

/-- The length of the joined topic in bytes: the segments and the slashes between them. -/
def topicBytes (t : Topic) : ℕ := (t.map String.utf8ByteSize).sum + (t.length - 1)

/-- The longest topic MQTT can carry. -/
def maxTopicBytes : ℕ := 65535

/-- `strings.HasPrefix`. -/
def hasPrefix (s start : String) : Bool := start.toList.isPrefixOf s.toList

/-! ### The grammar -/

/-- A decomposed topic. -/
structure Parsed where
  /-- The first segment, the topic root. -/
  root : String
  /-- The second segment. -/
  version : String
  /-- The third segment, which starts with `_`. -/
  contract : String
  /-- The fourth segment, the id of the authoring or addressed node. -/
  nodeID : String
  /-- Everything after the node id; never empty. -/
  path : Path
  deriving DecidableEq, Repr

/-- Why a topic does not parse. -/
inductive ParseError
  /-- The topic is longer than MQTT carries. -/
  | tooLong (bytes : ℕ)
  /-- Fewer than five segments. -/
  | segments (got : ℕ)
  /-- The third segment is not a contract. -/
  | notContract (seg : String)
  deriving DecidableEq, Repr

/-- Decompose a topic: at least five segments, and a `_Contract` at index 2. -/
def parse (t : Topic) : Except ParseError Parsed :=
  if maxTopicBytes < topicBytes t then .error (.tooLong (topicBytes t))
  else
    match t with
    | root :: version :: contract :: nodeID :: seg :: rest =>
      if hasPrefix contract "_" then .ok ⟨root, version, contract, nodeID, seg :: rest⟩
      else .error (.notContract contract)
    | _ => .error (.segments t.length)

variable {p : Parsed} {t : Topic} {mount : Path}

/-- What a topic that parses looks like. -/
theorem parse_eq_ok (h : parse t = .ok p) :
    t = p.root :: p.version :: p.contract :: p.nodeID :: p.path ∧ p.path ≠ [] ∧
      topicBytes t ≤ maxTopicBytes ∧ hasPrefix p.contract "_" := by
  unfold parse at h
  split at h
  · cases h
  · rename_i hlen
    split at h
    · split at h
      · rename_i hc
        cases h
        exact ⟨rfl, List.cons_ne_nil _ _, Nat.le_of_not_lt hlen, hc⟩
      · cases h
    · cases h

/-! ### Routing classes -/

/-- The routing class of a contract. -/
inductive Class
  | none | data | entity | definition | cmd | ack | gap | audit | alarm | log | annot
  deriving DecidableEq, Repr

/-- Contracts of entity state. -/
def entityContracts : List String :=
  ["_EnrolledIdentity", "_Node", "_ServiceDetails", "_SystemElement", "_Signal", "_Constant",
    "_ExternalReference", "_Resource", "_EditOperation", "_AlarmNotificationConfig",
    "_NotificationConfigStatus", "_Finding", "_AlarmState", "_AlarmSilence", "_AlarmSubscription"]

/-- Contracts of definitions. -/
def definitionContracts : List String :=
  ["_Group", "_MetadataType", "_AnnotationType", "_DataModel", "_ExternalSystem", "_SemanticTag",
    "_PersonalAccessToken"]

/-- The built-in class of a contract. Exact names come before the `_Cmd` stem. -/
def classOf (contract : String) : Class :=
  if contract = "_Metric" then .data
  else if contract = "_AlarmStateChange" ∨ contract = "_NotificationDispatched" then .alarm
  else if contract = "_Annotation" then .annot
  else if contract = "_Log" then .log
  else if contract ∈ entityContracts then .entity
  else if contract ∈ definitionContracts then .definition
  else if contract = "_Ack" then .ack
  else if contract = "_StreamGap" then .gap
  else if contract = "_AuditEvent" then .audit
  else if hasPrefix contract "_Cmd" then .cmd
  else .none

namespace Class

/-- Latest value per path, projected into the key-value state, retired by an empty payload. -/
def isState (c : Class) : Bool := c == .data || c == .entity || c == .definition

/-- The contract resolved to a class this node handles. -/
def isKnown (c : Class) : Bool := c != .none

/-- The record belongs to the command flow. -/
def isCommand (c : Class) : Bool := c == .cmd

/-- State an identity authors under its own mount. -/
def isOwnedState (c : Class) : Bool := c == .data || c == .entity

/-- A child may offer the class to its parent. -/
def flowsUp (c : Class) : Bool :=
  c == .data || c == .entity || c == .ack || c == .gap || c == .audit || c == .alarm ||
    c == .annot || c == .log

end Class

/-! ### Streams -/

/-- The streams of a store. The source names streams by strings; `other` is any name outside the
fixed set. -/
inductive Stream
  | metrics | entities | commands | definitions | audit | alarms | annotations | logs
  | other (name : String)
  deriving DecidableEq, Repr

/-- The stream a name stands for. -/
def Stream.ofName (name : String) : Stream :=
  if name = "metrics" then .metrics
  else if name = "entities" then .entities
  else if name = "commands" then .commands
  else if name = "definitions" then .definitions
  else if name = "audit" then .audit
  else if name = "alarms" then .alarms
  else if name = "annotations" then .annotations
  else if name = "logs" then .logs
  else .other name

/-- The name of a stream. -/
def Stream.name : Stream → String
  | .metrics => "metrics"
  | .entities => "entities"
  | .commands => "commands"
  | .definitions => "definitions"
  | .audit => "audit"
  | .alarms => "alarms"
  | .annotations => "annotations"
  | .logs => "logs"
  | .other name => name

/-- The stream belongs to the fixed set a store keeps offsets for. -/
def Stream.isFixed : Stream → Bool
  | .other _ => false
  | _ => true

/-- The stream that stores a class. A gap marker has no fixed stream: it goes into the one its path
names. -/
def streamFor : Class → Option Stream
  | .data => some .metrics
  | .entity => some .entities
  | .definition => some .definitions
  | .cmd | .ack => some .commands
  | .audit => some .audit
  | .alarm => some .alarms
  | .annot => some .annotations
  | .log => some .logs
  | .gap | .none => Option.none

/-- The stream a gap marker describes: its last path segment, which no hop rewrites. -/
def gapStream (p : Parsed) : Stream := .ofName (p.path.getLastD "")

/-- An upward record's class and topic fit the stream the replication request names. -/
def matchesUplinkStream (c : Class) (p : Parsed) (stream : Stream) : Bool :=
  if !c.flowsUp then false
  else if c = .gap then gapStream p = stream
  else streamFor c = some stream

/-- The streams a child may replicate onto: those of the classes that flow up. -/
def isUplinkStream : Stream → Bool
  | .metrics | .entities | .commands | .audit | .alarms | .annotations | .logs => true
  | .definitions | .other _ => false

/-- State contracts only the authoring node reads; their records stay home. -/
def isNodePrivate (contract : String) : Bool := contract = "_EditOperation"

/-- Contracts no longer defined whose records can still exist. -/
def isRetired (contract : String) : Bool :=
  contract = "_ClockDefinition" || contract = "_ClockProgress"

/-- The identity a topic is a command for. -/
def commandTarget (t : Topic) : Option String :=
  if maxTopicBytes < topicBytes t then Option.none
  else
    match t with
    | _ :: _ :: contract :: node :: _ :: _ =>
      if hasPrefix contract "_" && node != "" && (classOf contract).isCommand then some node
      else Option.none
    | _ => Option.none

/-! ### Mounts

A child's subtree stands in its parent's namespace under a mount. Going up, the mount is inserted
at the head of the hierarchy path; going down, it is taken off again. -/

/-- Insert the mount directly after the node id. -/
def mountInsert (t : Topic) (mount : Path) : Topic :=
  if t.length < 5 then t else t.take 4 ++ mount ++ t.drop 4

/-- The path lies strictly below the mount; the empty mount covers nothing. -/
def underMount (path mount : Path) : Bool :=
  mount != [""] && mount.isPrefixOf path && decide (mount.length < path.length)

/-- Take the mount off the head of the hierarchy path; `none` when the path is not below it. -/
def mountStrip (t : Topic) (mount : Path) : Option Topic :=
  if t.length < 5 then none
  else if mount.isPrefixOf (t.drop 4) && decide (mount.length < (t.drop 4).length) then
    some (t.take 4 ++ (t.drop 4).drop mount.length)
  else none

/-- The contract of a topic does not change when a mount is inserted. -/
theorem parse_mountInsert (ht : parse t = .ok p) (hm : topicBytes (mountInsert t mount) ≤ maxTopicBytes) :
    parse (mountInsert t mount) = .ok { p with path := mount ++ p.path } := by
  obtain ⟨hshape, hpath, -, hc⟩ := parse_eq_ok ht
  obtain ⟨seg, rest, hseg⟩ :=
    List.exists_cons_of_ne_nil (List.append_ne_nil_of_right_ne_nil mount hpath)
  have hins : mountInsert t mount =
      p.root :: p.version :: p.contract :: p.nodeID :: seg :: rest := by
    have hlen : ¬ t.length < 5 := by
      have := List.length_pos_iff.mpr hpath
      rw [hshape]
      simp only [List.length_cons]
      omega
    rw [mountInsert, if_neg hlen, hshape, ← hseg]
    simp
  have hlong : ¬ maxTopicBytes < topicBytes (mountInsert t mount) := by omega
  unfold parse
  rw [if_neg hlong, hins]
  simp [hc, hseg]

/-- A command's topic that lies below a mount can be rewritten into the child's coordinates. -/
theorem mountStrip_isSome (ht : parse t = .ok p)
    (hu : underMount p.path mount) : (mountStrip t mount).isSome := by
  obtain ⟨hshape, hpath, -, -⟩ := parse_eq_ok ht
  have hdrop : t.drop 4 = p.path := by rw [hshape]; rfl
  have hlen : ¬ t.length < 5 := by
    have := List.length_pos_iff.mpr hpath
    rw [hshape]
    simp only [List.length_cons]
    omega
  simp only [underMount, Bool.and_eq_true] at hu
  simp [mountStrip, hlen, hdrop, hu.1.2, hu.2]

end Colca.Uns
