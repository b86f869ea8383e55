import Colca.Edit.Compose
import Colca.Lib.StateMachine
import Colca.Uns.Elements

/-!
# Identities, the elements they are bound to, and what retires those elements

An enrolled identity may name an **element**, and its position is where the element stands. Enrolling asks
the element index and persists under the registry's lock; retiring an element asks the registry who is bound
and commits under the lock of its own executor. The machine has all of it in steps:

* `enroll` resolves the element and takes the lock, `put` persists and releases it; `register` authors the
  missing elements of a mount through the configuring executor and then enrols;
* `elementDelete` reads the records of its positions, `check` asks about one position after the other,
  `commitDelete` appends the tombstones;
* `editDelete` takes a snapshot, `ask` asks the registry about one element, `compose` decides and
  `commitEdit` appends;
* a batch is in the store before the index **observes** it, record by record (`observe…`);
* `revoke` removes an identity, and `retire` also removes what a child node replicated.

The index is loaded: asking whether an element is placed loads it.
-/

namespace Colca.Registry

open Uns (Path ElementIndex underMount)
open Edit (KV Rec Addr Fields Snapshot Expected Kind Plan StateRecord rawString composeDelete readSnapshot
  validateSuppliedVersions)

/-- An identity enrolled at the node. -/
structure Entry where
  ulid : String
  pubkey : String
  name : String
  element : String
  /-- It is a child node. -/
  replicatesUp : Bool
  deriving DecidableEq, Repr

/-- An element record that a child node replicated; `id` is empty where its payload has none. -/
structure Replicated where
  node : String
  path : Path
  id : String
  deriving DecidableEq, Repr

/-- The position as the source writes it. -/
def Path.text (p : Path) : String := "/".intercalate p

/-! ### Element records -/

def elementAddr (p : Path) : Addr := ⟨.entity .systemElement, p⟩

/-- `placedElement`: the id and the parent's id, unless the payload does not decode. -/
def placedElement (r : Rec) : Option (String × String) :=
  match r.payload with
  | .unreadable => none
  | .object f => do
    let id ← rawString (f.get "id")
    let _ ← rawString (f.get "name")
    let parent ← rawString (f.get "parent_id")
    pure (id, parent)

/-- The id the index and the delete read; empty where there is none. -/
def elementID (r : Rec) : String := ((placedElement r).map (·.1)).getD ""

/-- The node's own element records. -/
def ownElements (kv : KV) : List (Path × String) :=
  (kv.filter (·.addr.contract = .entity .systemElement)).map fun r ↦ (r.addr.path, elementID r)

/-- `elementAt`: the element at a position, if its record has an id. -/
def elementAt (kv : KV) (p : Path) : Option String :=
  match kv.get (elementAddr p) with
  | none => none
  | some r =>
    match r.payload with
    | .unreadable => none
    | .object f => (rawString (f.get "id")).filter (· ≠ "")

/-- A new element (`authorElementAt`). -/
def newElement (id name parent : String) : Fields :=
  [("id", .str id), ("name", .str name)] ++ if parent = "" then [] else [("parent_id", .str parent)]

/-- `load`: the index of the element records. -/
def load (elements : List (Path × String)) : ElementIndex :=
  elements.foldl (fun x r ↦ x.apply r.1 r.2) {}

/-! ### Enrolling -/

/-- `BoundTo`. -/
def boundTo (entries : List Entry) (element : String) : List String :=
  if element = "" then []
  else ((entries.filter (·.element = element)).map (·.ulid)).insertionSort (· ≤ ·)

/-- The checks of `Enroll`, under the lock. -/
def enrollRefusal (entries : List Entry) (index : ElementIndex) (e : Entry) : Option String :=
  let others := entries.filter (·.ulid ≠ e.ulid)
  let refuse (m : String) : Option String := some ("enroll " ++ e.ulid ++ ": " ++ m)
  match others.find? fun x ↦ e.pubkey ≠ "" ∧ x.pubkey = e.pubkey with
  | some x => refuse ("pubkey already enrolled for " ++ x.ulid ++ ": enrollment conflict")
  | none =>
    match others.find? fun x ↦ e.name ≠ "" ∧ x.name = e.name with
    | some x => refuse ("name " ++ e.name.quote ++ " already enrolled for " ++ x.ulid ++
        ": enrollment conflict")
    | none =>
      if e.element = "" then none
      else
        match others.find? (·.element = e.element) with
        | some x => refuse ("element " ++ e.element ++ " already bound by " ++ x.ulid ++
            ": enrollment conflict")
        | none =>
          if (index.pathOf e.element).isSome then none
          else refuse ("element " ++ e.element ++
            " is not placed at this node — author it first: unknown element")

/-- The entry of an identity is written, new or over the one it had. -/
def putEntry (entries : List Entry) (e : Entry) : List Entry := entries.filter (·.ulid ≠ e.ulid) ++ [e]

/-- `replicatedBy`: what a child and the nodes below it replicated. -/
def replicatedBy (entries : List Entry) (index : ElementIndex) (e : Entry) (r : Replicated) : Bool :=
  r.node = e.ulid ||
    match index.pathOf e.element with
    | none => false
    | some mount =>
      underMount r.path mount &&
        -- what stands at or below another child nested there is that child's
        !(entries.any fun other ↦ other.ulid ≠ e.ulid && other.replicatesUp &&
          (index.pathOf other.element).any fun om ↦
            underMount om mount && (r.path = om || underMount r.path om))

/-! ### Deleting -/

/-- A position of a delete and the id its record had when it was read. -/
structure Pending where
  path : Path
  id : String
  deriving DecidableEq, Repr

/-- The first path that an earlier entry named. -/
def firstRepeat : ℕ → List Path → List Path → Option (ℕ × Path)
  | _, _, [] => none
  | i, seen, p :: rest => if p ∈ seen then some (i, p) else firstRepeat (i + 1) (p :: seen) rest

/-- The first pass of `elementDelete`: the records of all positions, or why not. -/
def readPending (kv : KV) (paths : List Path) : Except String (List Pending) :=
  if paths = [] then .error "element/delete: no paths given"
  else
    match firstRepeat 0 [] paths with
    | some (i, p) => .error ("element/delete: entry " ++ toString i ++ " repeats path " ++ Path.text p)
    | none =>
      match paths.filter fun p ↦ (kv.get (elementAddr p)).isNone with
      | [] => .ok (paths.filterMap fun p ↦ (kv.get (elementAddr p)).map fun r ↦ ⟨p, elementID r⟩)
      | missing => .error ("element/delete: no element at " ++ ", ".intercalate (missing.map Path.text))

/-- The position is strictly below the other one. -/
def below (path root : Path) : Bool := root.isPrefixOf path && decide (root.length < path.length)

/-- `occupantsBelow`: the elements on a position, by their path or by the parent they name, that are not
retired with it. -/
def occupantsBelow (kv : KV) (path : Path) (retiring : List Path) : List String :=
  let target := ((kv.get (elementAddr path)).map elementID).getD ""
  let held := kv.filter fun r ↦ r.addr.contract = .entity .systemElement && r.addr.path ∉ retiring &&
    (below r.addr.path path ||
      (target ≠ "" && (placedElement r).any (·.2 = target)))
  (held.map fun r ↦ Path.text r.addr.path).insertionSort (· ≤ ·)

/-- `resourcesBelow`. -/
def resourcesBelow (kv : KV) (path : Path) : List String :=
  let held := kv.filter fun r ↦ r.addr.contract = .resource && (r.addr.path = path || below r.addr.path path)
  (held.map fun r ↦ Path.text r.addr.path).insertionSort (· ≤ ·)

/-- What stands on a position in the store. -/
def holdsStill (kv : KV) (paths : List Path) (p : Pending) : Option String :=
  let refuse (held : List String) : Option String :=
    some ("element/delete: " ++ Path.text p.path ++ " still holds " ++ ", ".intercalate held)
  match occupantsBelow kv p.path paths with
  | [] =>
    match resourcesBelow kv p.path with
    | [] => none
    | held => refuse held
  | held => refuse held

/-- What the configuring executor is at. -/
inductive ConfigJob
  /-- A delete of positions; `checked` passed, `todo` did not yet. -/
  | deleting (paths : List Path) (checked todo : List Pending)
  /-- The mount of a service is walked; `walked` is done and ends at the element `leaf`. -/
  | authoring (name : String) (walked : Path) (todo : List String) (leaf : String)
  deriving DecidableEq, Repr

/-- What the editing executor is at. -/
inductive EditJob
  /-- A delete is asking who is bound to the elements it selected. -/
  | asking (expected : Expected) (kind : Kind) (id : String) (cascade : Bool) (sn : Snapshot)
      (answers : List (String × List String))
  /-- A plan is decided and not committed. -/
  | decided (plan : Plan)
  deriving DecidableEq, Repr

/-- The elements a delete asks about: those of its selection, unless it was refused for its extent. -/
def asks (sn : Snapshot) (kind : Kind) (id : String) (cascade : Bool) : List String :=
  match sn.entity kind id with
  | none => []
  | some e =>
    let inside := Edit.selection sn e
    if kind = .systemElement ∧ ¬ (1 < inside.length ∧ !cascade) then
      (inside.filter (·.kind = .systemElement)).map (·.id)
    else []

/-- The answers so far. -/
def answered (answers : List (String × List String)) (id : String) : List String :=
  (answers.lookup id).getD []

/-- How far a service's registration is. -/
inductive Registering
  | authoring | authored (name leaf : String) | enrolling
  deriving DecidableEq, Repr

/-! ### The machine -/

structure State where
  /-- The node's own records, and the next offset. -/
  kv : KV
  next : ℕ
  replicated : List Replicated
  index : ElementIndex
  entries : List Entry
  /-- Checked and not persisted: its `Enroll` holds the registry's lock. -/
  enrolling : Option Entry
  registering : Option Registering
  config : Option ConfigJob
  /-- Committed by the configuring executor and not observed by the index. -/
  configUnseen : List (Path × String)
  edit : Option EditJob
  editUnseen : List (Path × String)
  /-- Positions of retired children that the index has not observed. -/
  retiredUnseen : List Path
  /-- The refusals so far, latest first. -/
  said : List String

namespace State

variable (s : State)

/-- All element records, the node's own and those of its children. -/
def elements : List (Path × String) := ownElements s.kv ++ s.replicated.map fun r ↦ (r.path, r.id)

instance (x : Path × String) : Decidable (x ∈ s.elements) :=
  inferInstanceAs (Decidable (x ∈ ownElements s.kv ++ _))

/-- What was committed and not observed. -/
def unseen : List (Path × String) :=
  s.configUnseen ++ s.editUnseen ++ s.retiredUnseen.map fun p ↦ (p, "")

/-- A minted id is new. -/
def fresh (id : String) : Bool := id ≠ "" && id ∉ s.elements.map (·.2)

/-- No operation is in progress. -/
def Quiet : Prop :=
  s.enrolling = none ∧ s.registering = none ∧ s.config = none ∧ s.edit = none ∧ s.unseen = []

instance : Decidable s.Quiet := inferInstanceAs (Decidable (_ ∧ _))

/-- The element stands at a position of the node: the index has it, and so has the store. -/
def Placed (element : String) : Prop := ∃ p ∈ s.index.pathOf element, (p, element) ∈ s.elements

instance (element : String) : Decidable (s.Placed element) :=
  match h : s.index.pathOf element with
  | none => isFalse (by simp [Placed, h])
  | some p => decidable_of_iff ((p, element) ∈ s.elements) (by simp [Placed, h])

/-- A refusal. -/
def say (m : String) : State := { s with said := m :: s.said }

/-- The next element a walk authors, if its position has none. -/
def authoringAt : Option Path :=
  match s.config with
  | some (.authoring _ walked (seg :: _) _) =>
    if (elementAt s.kv (walked ++ [seg])).isNone then some (walked ++ [seg]) else none
  | _ => none

/-- A walk was refused, and the registration with it. -/
def authorFails (m : String) : State :=
  { s with config := none, registering := none, said := m :: s.said }

end State

/-- What can happen. `ok` says whether the store, or a check that is not written out, let it through. -/
inductive Event
  | enroll (e : Entry)
  | put (ok : Bool)
  | register (name : String) (mount : List String)
  | author (id : String) (ok : Bool)
  | registered (ulid : String)
  | elementDelete (paths : List Path)
  | check
  | commitDelete (ok : Bool)
  | editDelete (expected : Expected) (kind : Kind) (id : String) (cascade : Bool)
  | ask (id : String)
  | compose
  | commitEdit (ok : Bool)
  | observeConfig
  | observeEdit
  | observeRetired (i : ℕ)
  | revoke (ulid : String) (ok : Bool)
  | retire (ulid : String) (ok : Bool)
  deriving DecidableEq, Repr

namespace State

variable (s : State)

/-- `Enroll` up to its write; the lock is free. -/
def enroll (e : Entry) : State :=
  match enrollRefusal s.entries s.index e with
  | some m => s.say m
  | none => { s with enrolling := some e }

/-- The entry of the pending `Enroll` is written, or its write fails; the lock is released. -/
def put (ok : Bool) : Option State :=
  match s.enrolling with
  | none => none
  | some e =>
    some { s with
      enrolling := none
      registering := if s.registering = some .enrolling then none else s.registering
      entries := if ok then putEntry s.entries e else s.entries }

/-- `Register` up to its `Enroll`: a known name is returned as it is. -/
def register (name : String) (mount : List String) : Option State :=
  if s.registering ≠ none ∨ s.enrolling ≠ none then none
  else if s.entries.any (·.name = name) then some s
  else if mount = [] then some { s with registering := some (.authored name "") }
  else if s.config ≠ none ∨ s.configUnseen ≠ [] then none
  else some { s with
    registering := some .authoring
    config := some (.authoring name [] (mount.filter (· ≠ "")) "") }

/-- `elementUpsert` of one new element. -/
def upsertNew (name : String) (walked : Path) (seg : String) (todo : List String) (leaf id : String)
    (ok : Bool) : State :=
  let p := walked ++ [seg]
  let failed := "author element at " ++ Path.text p ++ ": element/upsert: "
  match (s.kv.get (elementAddr p)).bind placedElement with
  | some held => s.authorFails (failed ++ Path.text p ++ " is already element " ++ held.1 ++
      " — two elements cannot share one position")
  | none =>
    if ok then
      { s with
        kv := s.kv.commit s.next [⟨elementAddr p, some (.object (newElement id seg leaf))⟩]
        next := s.next + 1
        config := some (.authoring name p todo id)
        configUnseen := [(p, id)] }
    else s.authorFails (failed ++ "rejected")

/-- One segment of `authorElementAt`. -/
def author (id : String) (ok : Bool) : Option State :=
  if s.configUnseen ≠ [] then none
  else
    match s.config with
    | some (.authoring name walked (seg :: todo) leaf) =>
      match elementAt s.kv (walked ++ [seg]) with
      | some held => some { s with config := some (.authoring name (walked ++ [seg]) todo held) }
      | none => if s.fresh id then some (s.upsertNew name walked seg todo leaf id ok) else none
    | some (.authoring name _ [] leaf) =>
      some { s with config := none, registering := some (.authored name leaf) }
    | _ => none

/-- The entry of a service, whose elements are authored. -/
def localEntry (ulid name leaf : String) : Entry := ⟨ulid, "", name, leaf, false⟩

/-- `Register` enrols the new entry. -/
def registered (ulid : String) : Option State :=
  match s.registering, s.enrolling with
  | some (.authored name leaf), none =>
    match enrollRefusal s.entries s.index (localEntry ulid name leaf) with
    | some m => some { s with registering := none, said := m :: s.said }
    | none => some { s with registering := some .enrolling, enrolling := some (localEntry ulid name leaf) }
  | _, _ => none

def elementDelete (paths : List Path) : Option State :=
  if s.config ≠ none ∨ s.configUnseen ≠ [] then none
  else
    match readPending s.kv paths with
    | .error m => some (s.say m)
    | .ok pendings => some { s with config := some (.deleting paths [] pendings) }

/-- The second pass of `elementDelete` over one position. The registry answers when no `Enroll` holds its
lock. -/
def check : Option State :=
  match s.config with
  | some (.deleting paths checked (p :: todo)) =>
    match holdsStill s.kv paths p with
    | some m => some { s with config := none, said := m :: s.said }
    | none =>
      if s.enrolling ≠ none then none
      else
        match boundTo s.entries p.id with
        | [] => some { s with config := some (.deleting paths (checked ++ [p]) todo) }
        | held => some { s with
            config := none
            said := ("element/delete: " ++ Path.text p.path ++ " is still bound by " ++
              ", ".intercalate held) :: s.said }
  | _ => none

def commitDelete (ok : Bool) : Option State :=
  match s.config with
  | some (.deleting _ checked []) =>
    if ok then
      some { s with
        kv := s.kv.commit s.next (checked.map fun p ↦ ⟨elementAddr p.path, none⟩)
        next := s.next + checked.length
        config := none
        configUnseen := s.configUnseen ++ checked.map fun p ↦ (p.path, "") }
    else some { s with config := none, said := "element/delete: failed" :: s.said }
  | _ => none

/-- An edit delete up to its snapshot. -/
def editDelete (expected : Expected) (kind : Kind) (id : String) (cascade : Bool) : Option State :=
  if s.edit ≠ none ∨ s.editUnseen ≠ [] then none
  else
    match readSnapshot s.kv with
    | .error e => some (s.say e.message)
    | .ok sn =>
      match validateSuppliedVersions expected sn with
      | some m => some (s.say m)
      | none => some { s with edit := some (.asking expected kind id cascade sn []) }

/-- `composeDelete` asks about one element; the registry answers when no `Enroll` holds its lock. -/
def ask (id : String) : Option State :=
  match s.edit with
  | some (.asking expected kind eid cascade sn answers) =>
    if s.enrolling = none ∧ id ∈ asks sn kind eid cascade ∧ answers.lookup id = none then
      some { s with
        edit := some (.asking expected kind eid cascade sn (answers ++ [(id, boundTo s.entries id)])) }
    else none
  | _ => none

/-- `composeDelete` has its answers. -/
def compose : Option State :=
  match s.edit with
  | some (.asking expected kind id cascade sn answers) =>
    if ∀ x ∈ asks sn kind id cascade, answers.lookup x ≠ none then
      match composeDelete (answered answers) expected sn kind id cascade with
      | .error r => some { s with edit := none, said := r.message :: s.said }
      | .ok plan => some { s with edit := some (.decided plan) }
    else none
  | _ => none

/-- The element positions a plan retires. -/
def retiredElements (plan : Plan) : List Path :=
  (plan.records.filter (·.addr.contract = .entity .systemElement)).map (·.addr.path)

def commitEdit (ok : Bool) : Option State :=
  match s.edit with
  | some (.decided plan) =>
    if ok then
      some { s with
        kv := s.kv.commit s.next plan.records
        next := s.next + plan.records.length
        edit := none
        editUnseen := s.editUnseen ++ (retiredElements plan).map fun p ↦ (p, "") }
    else some { s with edit := none, said := "edit: not committed" :: s.said }
  | _ => none

def observeConfig : Option State :=
  match s.configUnseen with
  | [] => none
  | x :: rest => some { s with index := s.index.apply x.1 x.2, configUnseen := rest }

def observeEdit : Option State :=
  match s.editUnseen with
  | [] => none
  | x :: rest => some { s with index := s.index.apply x.1 x.2, editUnseen := rest }

def observeRetired (i : ℕ) : Option State :=
  match s.retiredUnseen[i]? with
  | none => none
  | some p => some { s with index := s.index.apply p "", retiredUnseen := s.retiredUnseen.eraseIdx i }

/-- What `Retire` of an identity takes out of the store. -/
def taken (ulid : String) : List Replicated :=
  match s.entries.find? (·.ulid = ulid) with
  | none => []
  | some e => s.replicated.filter (replicatedBy s.entries s.index e)

def revoke (ulid : String) (ok : Bool) : Option State :=
  if s.enrolling ≠ none then none
  else
    match s.entries.find? (·.ulid = ulid) with
    | none => some (s.say ("revoke " ++ ulid ++ ": identity not enrolled at this node"))
    | some _ =>
      if ok then some { s with entries := s.entries.filter (·.ulid ≠ ulid) }
      else some (s.say ("revoke " ++ ulid))

def retire (ulid : String) (ok : Bool) : Option State :=
  if s.enrolling ≠ none then none
  else
    match s.entries.find? (·.ulid = ulid) with
    | none => some (s.say ("retire " ++ ulid ++ ": identity not enrolled at this node"))
    | some e =>
      if !e.replicatesUp then some (s.say ("retire " ++ ulid ++ ": retire applies only to kind=node entries"))
      else if ok then
        some { s with
          entries := s.entries.filter (·.ulid ≠ ulid)
          replicated := s.replicated.filter (· ∉ s.taken ulid)
          retiredUnseen := s.retiredUnseen ++ (s.taken ulid).map (·.path) }
      else some (s.say ("retire " ++ ulid))

end State

/-- One step. -/
def step (s : State) : Event → Option State
  | .enroll e => if s.enrolling = none then some (s.enroll e) else none
  | .put ok => s.put ok
  | .register name mount => s.register name mount
  | .author id ok => s.author id ok
  | .registered ulid => s.registered ulid
  | .elementDelete paths => s.elementDelete paths
  | .check => s.check
  | .commitDelete ok => s.commitDelete ok
  | .editDelete expected kind id cascade => s.editDelete expected kind id cascade
  | .ask id => s.ask id
  | .compose => s.compose
  | .commitEdit ok => s.commitEdit ok
  | .observeConfig => s.observeConfig
  | .observeEdit => s.observeEdit
  | .observeRetired i => s.observeRetired i
  | .revoke ulid ok => s.revoke ulid ok
  | .retire ulid ok => s.retire ulid ok

/-- A node at rest: its records, what its children replicated and its identities, whose elements the index
of these records has. -/
structure AtRest where
  kv : KV
  next : ℕ
  replicated : List Replicated
  entries : List Entry
  distinct : kv.Distinct
  placed : ∀ x ∈ entries, x.element ≠ "" →
    ((load (ownElements kv ++ replicated.map fun r ↦ (r.path, r.id))).pathOf x.element).isSome

def machine (n : AtRest) : StateMachine State Event where
  start := {
    kv := n.kv
    next := n.next
    replicated := n.replicated
    index := load (ownElements n.kv ++ n.replicated.map fun r ↦ (r.path, r.id))
    entries := n.entries
    enrolling := none
    registering := none
    config := none
    configUnseen := []
    edit := none
    editUnseen := []
    retiredUnseen := []
    said := [] }
  step := step

/-- **No identity is bound to a missing element**: where no operation is in progress, the element of every
identity that names one is placed. -/
def BoundPlaced (s : State) : Prop := s.Quiet → ∀ x ∈ s.entries, x.element ≠ "" → s.Placed x.element

instance (s : State) : Decidable (BoundPlaced s) := inferInstanceAs (Decidable (_ → _))

end Colca.Registry
