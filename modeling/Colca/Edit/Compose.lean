import Colca.Edit.Records
import Colca.Uns.Grants

/-!
# What an edit intent writes

The composers: from the caller's intent, the versions sent and a snapshot they make the records of one
batch, or a refusal. They write nothing. A composer that builds on a record of the snapshot **requires** its
version: the caller must have sent one, and all versions sent were compared with the snapshot before. The
plan names the keys that were required.

The intents of entities are written out (create, update, delete, placement and metadata), and so are
annotations and node attachments, which are not committed as state. For the others (bindings, data models,
resources, alarm configurations) any plan that requires only what was sent stands in.
-/

namespace Colca.Edit

open List
open Uns (Path)
open Uns.Authz (validElementID)
open Uns.TopicText (bytes)

/-- Why a command does not answer 200. -/
inductive Failure
  | denied | missing | conflict | invalid | failed
  deriving DecidableEq, Repr

def Failure.code : Failure → ℕ
  | .denied => 403
  | .missing => 404
  | .conflict => 409
  | .invalid => 422
  | .failed => 500

/-- A refusal and its message. -/
structure Refusal where
  why : Failure
  message : String
  deriving DecidableEq, Repr

/-- `editMutationLimit`. -/
def editMutationLimit : ℕ := 200

/-- What a metadata key is expected to hold; `none` is absent. -/
abbrev MetadataExpect := Option Raw

inductive AttachAction
  | drain | remount
  deriving DecidableEq, Repr

/-- An intent. -/
inductive Intent
  | create (kind : Kind) (id parentID segment : String) (attributes : Fields)
  | update (kind : Kind) (id : String) (attributes : Fields)
  | delete (kind : Kind) (id : String) (cascade : Bool)
  | placement (kind : Kind) (id targetParentID : String)
  | metadata (kind : Kind) (id key : String) (expect : MetadataExpect) (value : Option Raw)
  | annotate (id : String) (fields : Fields) (message : String)
  | attachment (ulid : String) (action : AttachAction) (mountElement : String)
  | other (name : String)
  | unreadable (message : String)
  deriving DecidableEq, Repr

/-- What a command is going to commit. -/
structure Plan where
  required : List Key
  records : List StateRecord
  message : String
  deriving DecidableEq, Repr

/-- Stands for the plan of another intent where there is none. -/
def noPlan : Plan := ⟨[], [], ""⟩

/-- A check of a composer. -/
def refuseIf (c : Prop) [Decidable c] (why : Failure) (message : String) : Except Refusal Unit :=
  if c then .error ⟨why, message⟩ else .ok ()

/-- The command's name in front of a refusal. -/
def named {α : Type} (name : String) (x : Except Refusal α) : Except Refusal α :=
  x.mapError fun r ↦ { r with message := name ++ ": " ++ r.message }

/-- All of a selection pass a check. -/
def checkAll {α : Type} (check : α → Except Refusal Unit) : List α → Except Refusal Unit
  | [] => .ok ()
  | x :: rest => do
    check x
    checkAll check rest

section Compose

variable (binds : String → Bool) (kv : KV) (boundTo : String → List String) (expected : Expected)
  (sn : Snapshot)

def requireExpected (k : Key) : Except Refusal Unit :=
  refuseIf ((expected.lookup k).isNone) .invalid ("missing_expected_version: " ++ k.text)

def requireEntity (kind : Kind) (id : String) : Except Refusal Entity := do
  refuseIf (id = "") .invalid "entity kind and id are required"
  requireExpected expected (.entity kind id)
  match sn.entity kind id with
  | some e => pure e
  | none => .error ⟨.conflict, "entity_not_found: " ++ (Key.entity kind id).text⟩

/-- `sanitize`: a name as one level of a path. -/
def sanitize (name : String) : String :=
  let marked := name.toList.map fun c ↦
    if c = '/' ∨ c = '+' ∨ c = '#' ∨ c = ' ' ∨ c.toNat < 0x20 then '_' else c
  let out := ((marked.dropWhile (· = '_')).reverse.dropWhile (· = '_')).reverse
  if out = [] then "tag" else String.ofList out

/-- `validatePositionPath`. -/
def validatePositionPath (path : Path) : Except Refusal Unit :=
  if path = [] then .error ⟨.invalid, "path is required"⟩
  else if path.any (· = "") then .error ⟨.invalid, "path is not canonical"⟩
  else if path.any fun s ↦ s.toList.any fun c ↦ c = '+' ∨ c = '#' then
    .error ⟨.invalid, "path contains an MQTT wildcard"⟩
  else if path.any fun s ↦ s.toList.any fun c ↦ c.toNat < 0x20 ∨ c.toNat = 0x7f then
    .error ⟨.invalid, "path contains a control character"⟩
  else .ok ()

/-- The field that names the element an entity stands on. -/
def parentField : Kind → String
  | .systemElement => "parent_id"
  | _ => "system_element_id"

/-- The position of a parent element. That of the node's own element is the root, and its record lives at
the node's parent, which checked its version. -/
def requireParent (parentID : String) : Except Refusal (List Key × Path) :=
  if binds parentID then .ok ([], [])
  else (requireEntity expected sn .systemElement parentID).map fun e ↦ ([e.key], e.record.addr.path)

/-- What `composeCreate` requires for an entity, its position and its attributes. -/
def createAt (kind : Kind) (id parentID segment : String) (attributes : Fields) :
    Except Refusal (List Key × Path × Fields) :=
  match kind with
  | .externalReference => .ok ([], ["_colca", "external-references", id], attributes)
  | .colcaNode => .error ⟨.invalid, "unsupported entity kind"⟩
  | _ => do
    let parent ← requireParent binds expected sn parentID
    let name := textOf (attributes.get "name")
    refuseIf (name = "") .invalid "attributes.name is required"
    refuseIf (kind = .systemElement ∧ !validElementID (bytes id)) .invalid
      ("element " ++ id.quote ++ ": an element is named by identity, not by path")
    let path := parent.2 ++ [if segment = "" then sanitize name else segment]
    -- a root of this node names no parent: an ancestor places it below the mount
    let attributes := if kind = .systemElement ∧ binds parentID then attributes.erase "parent_id"
      else attributes.set (parentField kind) (.str parentID)
    pure (parent.1, path, attributes)

/-- `composeCreate`. -/
def composeCreate (kind : Kind) (id parentID segment : String) (attributes : Fields) :
    Except Refusal Plan := do
  refuseIf (id = "") .invalid "create: entity kind and id are required"
  refuseIf (sn.entity kind id).isSome .conflict
    ("entity_already_exists: " ++ (Key.entity kind id).text)
  refuseIf (attributes = []) .invalid "create: attributes are required"
  let x ← named "create" (createAt binds expected sn kind id parentID segment (attributes.set "id" (.str id)))
  named "create" (validatePositionPath x.2.1)
  let addr : Addr := ⟨.entity kind, x.2.1⟩
  refuseIf (kv.get addr).isSome .conflict "duplicate_name: position is already occupied"
  pure ⟨x.1, [⟨addr, some (.object x.2.2)⟩], "created " ++ (Key.entity kind id).text⟩

/-- The attributes of an update over the current ones; where an entity stands is not an attribute. -/
def mergeAttributes (e : Entity) (attributes : Fields) : Fields :=
  let merged := (attributes.foldl (fun f x ↦ f.set x.1 x.2) e.fields).set "id" (.str e.id)
  match e.kind with
  | .systemElement | .signal | .constant =>
    match e.fields.get (parentField e.kind) with
    | some parent => merged.set (parentField e.kind) parent
    | none => merged.erase (parentField e.kind)
  | _ => merged

/-- `composeUpdate`, without external references. -/
def composeUpdate (kind : Kind) (id : String) (attributes : Fields) : Except Refusal Plan := do
  let e ← named "update" (requireEntity expected sn kind id)
  refuseIf (attributes = []) .invalid "update: attributes or external_references are required"
  let merged := mergeAttributes e attributes
  refuseIf (merged.same e.fields) .conflict ("update_unchanged: " ++ e.key.text)
  pure ⟨[e.key], [⟨e.record.addr, some (.object merged)⟩],
    "updated " ++ e.key.text ++ " with 1 state changes"⟩

/-- The position is the other one or below it. -/
def atOrBelow (path root : Path) : Bool := root.isPrefixOf path

/-- The name of a kind in a reference to it (`editSourceEntity`). -/
def editSourceEntity : Kind → String
  | .systemElement => "SystemElement"
  | .signal => "Signal"
  | .constant => "Constant"
  | .colcaNode => "Node"
  | .externalReference => ""

/-- An external reference names the entity as its source. -/
def Entity.refersTo (ref e : Entity) : Bool :=
  ref.kind = .externalReference ∧ editSourceEntity e.kind ≠ "" ∧ e.id ≠ "" ∧
    textOf (ref.fields.get "source_entity") = editSourceEntity e.kind ∧
    textOf (ref.fields.get "source_object_id") = e.id

def sortByTopic (es : List Entity) : List Entity :=
  es.insertionSort fun x y ↦ x.record.addr.text ≤ y.record.addr.text

/-- The elements of a selection that identities stand on, whatever `cascade` says. -/
def occupied (selected : List Entity) : List String :=
  (selected.filter fun e ↦ e.kind = .systemElement ∧ boundTo e.id ≠ []).map fun e ↦
    "/".intercalate e.record.addr.path ++ " by " ++
      ", ".intercalate ((boundTo e.id).insertionSort (· ≤ ·))

/-- What goes with a deleted or moved entity: of an element everything at or below it. -/
def selection (e : Entity) : List Entity :=
  if e.kind = .systemElement then
    sn.entities.filter fun c ↦ atOrBelow c.record.addr.path e.record.addr.path
  else [e]

/-- The external references of a selection. -/
def references (selected : List Entity) : List Entity :=
  sn.entities.filter fun ref ↦ selected.any ref.refersTo

/-- `composeDelete`. -/
def composeDelete (kind : Kind) (id : String) (cascade : Bool) : Except Refusal Plan := do
  let e ← named "delete" (requireEntity expected sn kind id)
  let inside := selection sn e
  refuseIf (kind = .systemElement ∧ 1 < inside.length ∧ !cascade) .conflict
    ("delete_impact: " ++ e.key.text ++ " still contains " ++ toString (inside.length - 1) ++ " entities")
  let held := if kind = .systemElement then occupied boundTo inside else []
  refuseIf (held ≠ []) .conflict
    ("delete_impact: still bound — " ++ "; ".intercalate (held.insertionSort (· ≤ ·)))
  let selected := inside ++ references sn inside
  checkAll (fun c ↦ named "delete" (requireExpected expected c.key)) selected
  refuseIf (editMutationLimit < selected.length) .invalid
    "delete: at most 200 entities may be changed atomically"
  pure ⟨selected.map (·.key), (sortByTopic selected).map fun c ↦ ⟨c.record.addr, none⟩,
    "deleted " ++ toString selected.length ++ " entities"⟩

/-- `retire`: the positions that are left, except those another record of the batch fills. -/
def retire (vacated written : List Addr) : List StateRecord :=
  (vacated.filter (· ∉ written)).map fun a ↦ ⟨a, none⟩

/-- The record of a moved entity: below the new root, and the moved one itself with its new parent. -/
def movedRecord (e : Entity) (newRoot : Path) (targetParentID : String) (c : Entity) : StateRecord :=
  let path := newRoot ++ c.record.addr.path.drop e.record.addr.path.length
  let fields := if c.record.addr ≠ e.record.addr then c.fields
    else if e.kind = .systemElement ∧ binds targetParentID then c.fields.erase "parent_id"
    else c.fields.set (parentField e.kind) (.str targetParentID)
  ⟨⟨c.record.addr.contract, path⟩, some (.object fields)⟩

/-- `composePlacement`. -/
def composePlacement (kind : Kind) (id targetParentID : String) : Except Refusal Plan := do
  refuseIf (kind ≠ .systemElement ∧ kind ≠ .signal ∧ kind ≠ .constant) .invalid
    "placement: entity kind is not positionable"
  let e ← named "placement" (requireEntity expected sn kind id)
  let old := e.record.addr.path
  let target ← named "placement" (requireParent binds expected sn targetParentID)
  refuseIf (!binds targetParentID ∧ kind = .systemElement ∧ atOrBelow target.2 old) .conflict
    "descendant_cycle"
  let newRoot := target.2 ++ [old.getLastD ""]
  refuseIf (newRoot = old) .conflict "placement_unchanged"
  let selected := selection sn e
  checkAll (fun c ↦ named "placement" (requireExpected expected c.key)) selected
  refuseIf (editMutationLimit < selected.length) .invalid
    "placement: at most 200 entities may be changed atomically"
  let leaving := (sortByTopic selected).map (·.record.addr)
  let moved := (sortByTopic selected).map (movedRecord binds e newRoot targetParentID)
  refuseIf (moved.any fun x ↦ (kv.get x.addr).isSome ∧ x.addr ∉ leaving) .conflict
    "duplicate_name: destination is occupied"
  -- what is new goes first, so that a consumer sees an entity move and not vanish
  pure ⟨e.key :: target.1 ++ selected.map (·.key), moved ++ retire leaving (moved.map (·.addr)),
    "moved " ++ toString selected.length ++ " entities"⟩

/-- The key of one metadata entry among an entity's fields. -/
def metadataField (key : String) : String := "metadata/" ++ key

/-- `composeMetadata`: one key is compared and set, and no version is required. -/
def composeMetadata (kind : Kind) (id key : String) (expect : MetadataExpect) (value : Option Raw) :
    Except Refusal Plan := do
  refuseIf (id = "") .invalid "metadata: entity kind and id are required"
  refuseIf (kind = .externalReference) .invalid "metadata: external references carry no metadata"
  refuseIf (key = "") .invalid "metadata: key is required"
  refuseIf (value = some .null) .invalid "metadata: value must not be null: remove the key instead"
  match sn.entity kind id with
  | none => .error ⟨.conflict, "metadata: entity_not_found: " ++ (Key.entity kind id).text⟩
  | some e => do
    let held := e.fields.get (metadataField key)
    refuseIf (held ≠ expect) .conflict ("stale_metadata: " ++ key)
    let fields := match value with
      | some v => e.fields.set (metadataField key) v
      | none => e.fields.erase (metadataField key)
    pure (if held = value then ⟨[], [], "metadata_unchanged: " ++ key⟩
      else ⟨[], [⟨e.record.addr, some (.object fields)⟩], "set metadata " ++ key ++ " on " ++ e.key.text⟩)

/-- `composeAnnotation`: an event, not state. -/
def composeAnnotation (id : String) (fields : Fields) (message : String) : Except Refusal Plan :=
  .ok ⟨[], [⟨⟨.annotations, ["_colca", "annotations", id]⟩, some (.object fields)⟩], message⟩

/-- Where the registry keeps an identity. -/
def identityAddr (ulid : String) : Addr := ⟨.enrolledIdentity, ["_colca", "identities", ulid]⟩

/-- `executeNodeAttachment` up to the registry's write. A remount hands the registry the entry of the
snapshot with its new element. -/
def composeAttachment (ulid : String) (action : AttachAction) (mountElement : String) :
    Except Refusal Plan := do
  refuseIf (ulid = "") .invalid "node_attachment: entity must identify a colca-node"
  named "node_attachment" (requireExpected expected (.attachment ulid))
  match sn.attachment ulid, action with
  | none, _ => .error ⟨.conflict, "node_attachment_not_found: " ++ ulid⟩
  | some x, .drain => do
    refuseIf (mountElement ≠ "") .invalid
      "node_attachment: drain does not accept mount_system_element_id"
    pure ⟨[.attachment ulid],
      [⟨identityAddr ulid, some (.object (x.fields.set "status" (.str "draining")))⟩],
      "node attachment draining"⟩
  | some x, .remount => do
    refuseIf (textOf (x.fields.get "status") = "draining") .conflict
      ("node_attachment_draining: " ++ ulid)
    refuseIf (mountElement = "") .invalid
      "node_attachment: remount requires mount_system_element_id"
    let target ← named "node_attachment" (requireEntity expected sn .systemElement mountElement)
    pure ⟨[.attachment ulid, target.key],
      [⟨identityAddr ulid, some (.object (x.fields.set "element" (.str mountElement)))⟩],
      "node attachment remounted"⟩

/-- A plan of another intent: what it requires was sent. -/
def composeOther (plan : Plan) : Except Refusal Plan := do
  checkAll (requireExpected expected) plan.required
  pure plan

/-- `compose`; `other` is the plan of an intent that is not written out. -/
def compose (other : Plan) : Intent → Except Refusal Plan
  | .create kind id parentID segment attributes =>
    composeCreate binds kv expected sn kind id parentID segment attributes
  | .update kind id attributes => composeUpdate expected sn kind id attributes
  | .delete kind id cascade => composeDelete boundTo expected sn kind id cascade
  | .placement kind id targetParentID => composePlacement binds kv expected sn kind id targetParentID
  | .metadata kind id key expect value => composeMetadata sn kind id key expect value
  | .annotate id fields message => composeAnnotation id fields message
  | .attachment ulid action mountElement => composeAttachment expected sn ulid action mountElement
  | .other _ => composeOther expected other
  | .unreadable message => .error ⟨.invalid, "intent must be an object: " ++ message⟩

end Compose

/-! ### What a plan requires was sent -/

section Required

variable {α β : Type}

theorem named_eq_ok {name : String} {x : Except Refusal α} {a : α} : named name x = .ok a ↔ x = .ok a := by
  cases x <;> simp [named, Except.mapError]

variable {u : Unit} {other : Plan}

theorem refuseIf_eq_ok {c : Prop} [Decidable c] {why : Failure} {message : String} :
    refuseIf c why message = .ok u ↔ ¬ c := by
  unfold refuseIf
  split <;> simp_all

theorem checkAll_eq_ok {check : α → Except Refusal Unit} {l : List α}
    (h : checkAll check l = .ok u) : ∀ x ∈ l, check x = .ok () := by
  induction l with
  | nil => simp
  | cons x rest ih =>
    rw [checkAll, bind_eq_ok] at h
    obtain ⟨_, hx, hrest⟩ := h
    intro y hy
    rcases mem_cons.mp hy with rfl | hy
    · exact hx
    · exact ih hrest y hy

variable {binds : String → Bool} {kv : KV} {boundTo : String → List String} {expected : Expected}
  {sn : Snapshot} {kind : Kind} {id : String} {plan : Plan}

theorem requireExpected_eq_ok {k : Key} :
    requireExpected expected k = .ok u ↔ (expected.lookup k).isSome := by
  rw [requireExpected, refuseIf_eq_ok]
  simp

theorem requireEntity_eq_ok {e : Entity} (h : requireEntity expected sn kind id = .ok e) :
    sn.entity kind id = some e ∧ (expected.lookup e.key).isSome := by
  simp only [requireEntity, bind_eq_ok] at h
  obtain ⟨_, -, _, hsent, h⟩ := h
  split at h
  · rename_i x hx
    cases h
    have hfound := find?_some hx
    simp only [decide_eq_true_eq] at hfound
    refine ⟨hx, ?_⟩
    rw [Entity.key, hfound.1, hfound.2]
    exact requireExpected_eq_ok.mp hsent
  · cases h

theorem requireParent_sent {parentID : String} {x : List Key × Uns.Path}
    (h : requireParent binds expected sn parentID = .ok x) : ∀ k ∈ x.1, (expected.lookup k).isSome := by
  unfold requireParent at h
  split at h
  · cases h
    simp
  · cases he : requireEntity expected sn .systemElement parentID with
    | error r =>
      rw [he] at h
      cases h
    | ok e =>
      rw [he] at h
      cases h
      exact fun k hk ↦ mem_singleton.mp hk ▸ (requireEntity_eq_ok he).2

/-- **Every key a plan requires was sent.** -/
theorem required_sent {intent : Intent} (h : compose binds kv boundTo expected sn other intent = .ok plan) :
    ∀ k ∈ plan.required, (expected.lookup k).isSome := by
  cases intent with
  | create kind id parentID segment attributes =>
    simp only [compose, composeCreate, named_eq_ok, bind_eq_ok] at h
    obtain ⟨_, -, _, -, _, -, x, hx, _, -, _, -, h⟩ := h
    cases h
    show ∀ k ∈ x.1, _
    unfold createAt at hx
    split at hx
    · cases hx
      simp
    · cases hx
    · simp only [bind_eq_ok] at hx
      obtain ⟨parent, hparent, _, -, _, -, hx⟩ := hx
      cases hx
      exact requireParent_sent hparent
  | update kind id attributes =>
    simp only [compose, composeUpdate, named_eq_ok, bind_eq_ok] at h
    obtain ⟨e, he, _, -, _, -, h⟩ := h
    cases h
    exact fun k hk ↦ mem_singleton.mp hk ▸ (requireEntity_eq_ok he).2
  | delete kind id cascade =>
    simp only [compose, composeDelete, named_eq_ok, bind_eq_ok] at h
    obtain ⟨e, he, _, -, _, -, _, hall, _, -, h⟩ := h
    cases h
    intro k hk
    obtain ⟨c, hc, rfl⟩ := mem_map.mp hk
    exact requireExpected_eq_ok.mp (named_eq_ok.mp (checkAll_eq_ok hall c hc))
  | placement kind id targetParentID =>
    simp only [compose, composePlacement, named_eq_ok, bind_eq_ok] at h
    obtain ⟨_, -, e, he, target, htarget, _, -, _, -, _, hall, _, -, _, -, h⟩ := h
    cases h
    intro k hk
    rcases mem_append.mp hk with hk | hk
    · rcases mem_cons.mp hk with rfl | hk
      · exact (requireEntity_eq_ok he).2
      · exact requireParent_sent htarget k hk
    · obtain ⟨c, hc, rfl⟩ := mem_map.mp hk
      exact requireExpected_eq_ok.mp (named_eq_ok.mp (checkAll_eq_ok hall c hc))
  | metadata kind id key expect value =>
    simp only [compose, composeMetadata, bind_eq_ok] at h
    obtain ⟨_, -, _, -, _, -, _, -, h⟩ := h
    split at h
    · cases h
    · simp only [bind_eq_ok] at h
      obtain ⟨_, -, h⟩ := h
      cases h
      split <;> simp
  | annotate id fields message =>
    cases h
    simp
  | attachment ulid action mountElement =>
    simp only [compose, composeAttachment, named_eq_ok, bind_eq_ok] at h
    obtain ⟨_, -, _, hsent, h⟩ := h
    have hsent := requireExpected_eq_ok.mp hsent
    split at h
    · cases h
    · simp only [bind_eq_ok] at h
      obtain ⟨_, -, h⟩ := h
      cases h
      exact fun k hk ↦ mem_singleton.mp hk ▸ hsent
    · simp only [named_eq_ok, bind_eq_ok] at h
      obtain ⟨_, -, _, -, target, htarget, h⟩ := h
      cases h
      intro k hk
      rcases mem_cons.mp hk with rfl | hk
      · exact hsent
      · exact mem_singleton.mp hk ▸ (requireEntity_eq_ok htarget).2
  | other name =>
    simp only [compose, composeOther, bind_eq_ok] at h
    obtain ⟨_, hall, h⟩ := h
    cases h
    exact fun k hk ↦ requireExpected_eq_ok.mp (checkAll_eq_ok hall k hk)
  | unreadable message => cases h

/-- The one record of an attachment is the identity's, and its version is required. -/
theorem attachment_plan {ulid mountElement : String} {action : AttachAction}
    (h : compose binds kv boundTo expected sn other (.attachment ulid action mountElement) = .ok plan) :
    plan.records.map (·.addr) = [identityAddr ulid] ∧ Key.attachment ulid ∈ plan.required := by
  simp only [compose, composeAttachment, named_eq_ok, bind_eq_ok] at h
  obtain ⟨_, -, _, -, h⟩ := h
  split at h
  · cases h
  · simp only [bind_eq_ok] at h
    obtain ⟨_, -, h⟩ := h
    cases h
    simp
  · simp only [named_eq_ok, bind_eq_ok] at h
    obtain ⟨_, -, _, -, target, -, h⟩ := h
    cases h
    simp

end Required

/-! ### What a delete retires -/

section Retired

variable {boundTo : String → List String} {expected : Expected} {sn : Snapshot} {kind : Kind} {id : String}
  {cascade : Bool} {plan : Plan}

theorem eq_nil_of_occupied {selected : List Entity} (h : occupied boundTo selected = []) {c : Entity}
    (hc : c ∈ selected) (hkind : c.kind = .systemElement) : boundTo c.id = [] := by
  by_contra hbound
  rw [occupied, map_eq_nil_iff, filter_eq_nil_iff] at h
  exact h c hc (by simp [hkind, hbound])

/-- **A delete retires only elements of its selection, and of these none that an identity is bound to.** -/
theorem retired_of_composeDelete (h : composeDelete boundTo expected sn kind id cascade = .ok plan)
    {r : StateRecord} (hr : r ∈ plan.records) :
    ∃ e c, sn.entity kind id = some e ∧ c ∈ sn.entities ∧ c.record.addr = r.addr ∧
      (c.kind = .systemElement → kind = .systemElement ∧ ¬ (1 < (selection sn e).length ∧ !cascade) ∧
        c ∈ selection sn e ∧ boundTo c.id = []) := by
  simp only [composeDelete, named_eq_ok, bind_eq_ok, refuseIf_eq_ok] at h
  obtain ⟨e, he, _, himpact, _, hheld, _, -, _, -, h⟩ := h
  have hentity := (requireEntity_eq_ok he).1
  have hkind : e.kind = kind := by
    have hfound := find?_some hentity
    simp only [decide_eq_true_eq] at hfound
    exact hfound.1
  cases h
  obtain ⟨c, hc, rfl⟩ := mem_map.mp hr
  have hc : c ∈ selection sn e ++ references sn (selection sn e) :=
    (perm_insertionSort _ _).mem_iff.mp hc
  refine ⟨e, c, hentity, ?_, rfl, ?_⟩
  · rcases mem_append.mp hc with hc | hc
    · unfold selection at hc
      split at hc
      · exact (mem_filter.mp hc).1
      · rw [mem_singleton.mp hc]
        exact mem_of_find?_eq_some hentity
    · exact (mem_filter.mp hc).1
  · intro helement
    rcases mem_append.mp hc with hc | hc
    · have hkind : kind = .systemElement := by
        by_contra hother
        rw [selection, if_neg (by rwa [hkind]), mem_singleton] at hc
        rw [hc, hkind] at helement
        exact hother helement
      refine ⟨hkind, fun h ↦ himpact ⟨hkind, h⟩, hc, ?_⟩
      rw [if_pos hkind, not_not] at hheld
      exact eq_nil_of_occupied hheld hc helement
    · -- the references of a selection are no elements
      obtain ⟨s, -, hs⟩ := any_eq_true.mp (mem_filter.mp hc).2
      simp [Entity.refersTo, helement] at hs

/-- It writes nothing else. -/
theorem payload_of_composeDelete (h : composeDelete boundTo expected sn kind id cascade = .ok plan)
    {r : StateRecord} (hr : r ∈ plan.records) : r.payload = none := by
  simp only [composeDelete, bind_eq_ok] at h
  obtain ⟨e, -, _, -, _, -, _, -, _, -, h⟩ := h
  cases h
  obtain ⟨c, -, rfl⟩ := mem_map.mp hr
  rfl

end Retired

end Colca.Edit
