import Colca.Lib.FollowLinks
import Colca.Lib.StateMachine
import Colca.Uns.Topic
import Mathlib.Data.List.Sort

/-!
# Signal relationships

A signal links to other signals of its node, each link with a type. `CheckSignalRelationships` judges a
batch of records against the signals the node holds, and only around the signals whose links the batch
changes; `withRelationshipCleanup` puts into the batch what drops the links to the signals it retires.

The state is the node's `_Signal` records by topic. A record whose payload is no signal does not get here:
the schema refuses it.
-/

namespace Colca.Relationships

open Uns

/-- What a type allows. -/
structure Rule where
  /-- How many sources may name one target, `0` for no limit. -/
  maxSourcesPerTarget : ℕ
  /-- A target may be the source of a link of the type itself. -/
  chains : Bool
  dataTypes : String

def relationshipRules (kind : String) : Option Rule :=
  if kind = "actual" then some ⟨1, false, "same_or_numeric"⟩
  else if kind = "upper_limit" ∨ kind = "lower_limit" then some ⟨0, true, "numeric"⟩
  else if kind = "feedback" then some ⟨0, false, "any"⟩
  else none

/-- The types in order. -/
def relationshipTypeNames : List String := ["actual", "feedback", "lower_limit", "upper_limit"]

def numericDataTypes : List String := ["integer", "number", "int", "float"]

structure Link where
  kind : String
  target : String
  deriving DecidableEq

/-- The part of a `_Signal` record the rules read. -/
structure Signal where
  id : String
  dataType : String := ""
  links : List Link := []
  deriving DecidableEq

def relationshipTypesCompatible (rule source target : String) : Bool :=
  if rule = "any" ∨ source = "" ∨ target = "" then true
  else
    let bothNumeric := decide (source ∈ numericDataTypes) && decide (target ∈ numericDataTypes)
    if rule = "numeric" then bothNumeric else decide (source = target) || bothNumeric

/-- A broken rule. The message names the signals by their paths. -/
inductive Problem
  /-- `%s: unknown relationship type %q; use one of %v` -/
  | unknownType (source kind : String)
  /-- `%s: holds more than one %s relationship` -/
  | twice (source kind : String)
  /-- `%s: %s names the signal itself` -/
  | itself (source kind : String)
  /-- `%s: %s target %s does not exist` -/
  | missing (source kind target : String)
  /-- `%s: %s target %s has data type %q, not compatible with %q` -/
  | incompatible (source kind target targetType sourceType : String)
  /-- `%s is the %s target of more than one signal: %s` -/
  | sources (target kind : String) (sources : List String)
  /-- `%s: %s target %s holds a %s relationship itself; %s links do not chain` -/
  | chained (source kind target : String)
  /-- `%s links form a cycle: %s` -/
  | cycle (kind : String) (members : List String)
  deriving DecidableEq

section Problems

variable (ends : List Signal) (checked : String → Bool)

/-- The signal of an id. -/
def endAt (id : String) : Option Signal := ends.find? fun s ↦ decide (s.id = id)

/-- The links of a signal: what is wrong with them, and those that count, with their type and source.
`seen` are the types so far. -/
def scanLinks (s : Signal) : List String → List Link → List Problem × List (String × String × String)
  | _, [] => ([], [])
  | seen, l :: ls =>
    let report (p : Problem) := if checked s.id then [p] else []
    match relationshipRules l.kind with
    | none => (report (.unknownType s.id l.kind) ++ (scanLinks s seen ls).1, (scanLinks s seen ls).2)
    | some rule =>
      if l.kind ∈ seen then (report (.twice s.id l.kind) ++ (scanLinks s seen ls).1, (scanLinks s seen ls).2)
      else
        let rest := scanLinks s (l.kind :: seen) ls
        if l.target = s.id then (report (.itself s.id l.kind) ++ rest.1, rest.2)
        else
          match endAt ends l.target with
          | none => (report (.missing s.id l.kind l.target) ++ rest.1, rest.2)
          | some t =>
            ((if relationshipTypesCompatible rule.dataTypes s.dataType t.dataType then []
              else report (.incompatible s.id l.kind l.target t.dataType s.dataType)) ++ rest.1,
              (l.kind, s.id, l.target) :: rest.2)

/-- The signals in the order of their ids. -/
def ordered : List Signal :=
  ((ends.map Signal.id).dedup.insertionSort (· ≤ ·)).filterMap (endAt ends)

/-- The links that count. -/
def edges : List (String × String × String) :=
  (ordered ends).flatMap fun s ↦ (scanLinks ends checked s [] s.links).2

/-- The links of one type, from source to target. -/
def edgesOf (kind : String) : List (String × String) :=
  (edges ends checked).filterMap fun e ↦ if e.1 = kind then some e.2 else none

/-- The rules of one type across signals. -/
def kindProblems (kind : String) (rule : Rule) : List Problem :=
  let links := edgesOf ends checked kind
  (if 0 < rule.maxSourcesPerTarget then
    ((links.map Prod.snd).dedup.insertionSort (· ≤ ·)).filterMap fun target ↦
      let sources := (links.filter fun l ↦ l.2 = target).map Prod.fst
      if rule.maxSourcesPerTarget < sources.length ∧ sources.any checked then
        some (.sources target kind sources)
      else none
    else []) ++
  if rule.chains then (FollowLinks.cycles links checked [] (links.map Prod.fst)).map (.cycle kind)
  else
    links.filterMap fun l ↦
      if (links.lookup l.2).isSome ∧ (checked l.1 || checked l.2) then some (.chained l.1 kind l.2) else none

/-- The signals are those of a map that is walked in any order: of two with one id, one of them. -/
def relationshipProblems : List Problem :=
  ((ordered ends).flatMap fun s ↦ (scanLinks ends checked s [] s.links).1) ++
    relationshipTypeNames.flatMap fun kind ↦
      ((relationshipRules kind).map (kindProblems ends checked kind)).getD []

end Problems

/-! ### Batches -/

/-- The node's signals by topic. -/
abbrev KV := List (Topic × Signal)

/-- A record of a batch; without a signal it deletes what its topic holds. -/
structure StateRecord where
  topic : Topic
  signal : Option Signal
  deriving DecidableEq

/-- A record is committed. -/
def commitOne (kv : KV) (r : StateRecord) : KV :=
  (kv.filter fun x ↦ x.1 ≠ r.topic) ++ (r.signal.map (r.topic, ·)).toList

/-- The records of a batch are committed in order. -/
def commitAll (kv : KV) (records : List StateRecord) : KV := records.foldl commitOne kv

/-- The links of a signal before the batch. -/
def before (kv : KV) (id : String) : List Link :=
  ((kv.filter fun x ↦ x.2.id = id).getLast?.map (·.2.links)).getD []

/-- The signals whose links a batch changes. -/
def changed (kv : KV) (records : List StateRecord) : List String :=
  records.filterMap fun r ↦ r.signal.bind fun s ↦
    if s.links ≠ [] ∧ before kv s.id ≠ s.links then some s.id else none

/-- `CheckSignalRelationships`: the problems of a batch, none when it is accepted. -/
def checkSignalRelationships (kv : KV) (records : List StateRecord) : List Problem :=
  if changed kv records = [] then []
  else
    relationshipProblems ((commitAll kv records).map Prod.snd) fun id ↦ decide (id ∈ changed kv records)

/-- The ids at the topics a batch deletes, those it writes apart. -/
def removed (kv : KV) (records : List StateRecord) : List String :=
  (records.filterMap fun r ↦ if r.signal.isSome then none else (kv.lookup r.topic).map Signal.id).filter
    fun id ↦ !(records.any fun r ↦ r.signal.any fun s ↦ decide (s.id = id))

/-- The signal without its links to some ids. -/
def Signal.strip (s : Signal) (ids : List String) : Signal :=
  { s with links := s.links.filter fun l ↦ l.target ∉ ids }

/-- The records of the batch: the last one of each topic that held a signal is stripped. -/
def stripBatch (kv : KV) (ids : List String) : List StateRecord → List StateRecord
  | [] => []
  | r :: rs =>
    (if (rs.any fun r' ↦ r'.topic = r.topic) ∨ (kv.lookup r.topic).isNone then r
      else { r with signal := r.signal.map (·.strip ids) }) :: stripBatch kv ids rs

/-- The signals outside the batch that hold a link to some ids. -/
def stripOthers (kv : KV) (ids : List String) (records : List StateRecord) : List StateRecord :=
  kv.filterMap fun x ↦
    if (records.any fun r ↦ r.topic = x.1) ∨ (x.2.strip ids).links = x.2.links then none
    else some ⟨x.1, some (x.2.strip ids)⟩

/-- `withRelationshipCleanup`. The records it adds are of different topics; the code sorts them. -/
def withRelationshipCleanup (kv : KV) (records : List StateRecord) : List StateRecord :=
  if removed kv records = [] then records
  else
    stripBatch kv (removed kv records) records ++ stripOthers kv (removed kv records) records

/-- A batch is cleaned up, checked and committed. -/
def step (kv : KV) (records : List StateRecord) : Option KV :=
  if checkSignalRelationships kv (withRelationshipCleanup kv records) = [] then
    some (commitAll kv (withRelationshipCleanup kv records))
  else none

/-- Batches from the empty state. -/
def system : StateMachine KV (List StateRecord) where
  start := []
  step := step

/-! ### What is to hold -/

/-- There is a link of a type from one id to another. -/
def Names (signals : List Signal) (kind a b : String) : Prop :=
  ∃ s ∈ signals, s.id = a ∧ ⟨kind, b⟩ ∈ s.links

/-- **The relationships are well formed.** -/
structure WellFormed (signals : List Signal) : Prop where
  exist : ∀ s ∈ signals, ∀ l ∈ s.links, ∃ t ∈ signals, t.id = l.target
  one : ∀ s ∈ signals, (s.links.map Link.kind).Nodup
  actual : ∀ s ∈ signals, ∀ t ∈ signals, ∀ target, ⟨"actual", target⟩ ∈ s.links →
    ⟨"actual", target⟩ ∈ t.links → s = t
  unchained : ∀ kind ∈ ["actual", "feedback"], ∀ s ∈ signals, ∀ t ∈ signals, ⟨kind, t.id⟩ ∈ s.links →
    ∀ l ∈ t.links, l.kind ≠ kind
  acyclic : ∀ kind ∈ ["upper_limit", "lower_limit"], ∀ id, ¬ Relation.TransGen (Names signals kind) id id

/-- The batch takes the id away. -/
def Retires (kv : KV) (records : List StateRecord) (id : String) : Prop :=
  (∃ x ∈ kv, x.2.id = id) ∧ ∀ x ∈ commitAll kv records, x.2.id ≠ id

/-- The links to the id are cleaned up: its topic is deleted, it is not written, and no record at a topic
that held no signal names it. -/
def Cleaned (kv : KV) (records : List StateRecord) (id : String) : Prop :=
  id ∈ removed kv records ∧ ∀ r ∈ records, (kv.lookup r.topic).isNone →
    ∀ s, r.signal = some s → ∀ l ∈ s.links, l.target ≠ id

/-- **No link is left behind**: the batch leaves every id at one topic, and an id that it takes away is
named by no signal, or its links are cleaned up. -/
def LeavesNone (kv : KV) (records : List StateRecord) : Prop :=
  ((commitAll kv records).map (·.2.id)).Nodup ∧
    ∀ x ∈ kv, Retires kv records x.2.id → (∀ y ∈ commitAll kv records, ∀ l ∈ y.2.links, l.target ≠ x.2.id) ∨
      Cleaned kv records x.2.id

instance (kv : KV) (records : List StateRecord) (id : String) : Decidable (Retires kv records id) :=
  inferInstanceAs (Decidable (_ ∧ ∀ x ∈ commitAll kv records, _))

instance (kv : KV) (records : List StateRecord) (id : String) : Decidable (Cleaned kv records id) :=
  inferInstanceAs (Decidable (_ ∧ ∀ r ∈ records, _ → ∀ s, r.signal = some s → ∀ l ∈ s.links, _))

instance (kv : KV) (records : List StateRecord) : Decidable (LeavesNone kv records) :=
  inferInstanceAs (Decidable (_ ∧ ∀ x ∈ kv, _ → _))

end Colca.Relationships
