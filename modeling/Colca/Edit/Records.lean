import Colca.Uns.Topic
import Mathlib.Data.List.Sort
import Mathlib.Tactic.Basic

/-!
# The records an edit command reads and writes

The current records of a node, addressed by contract and position, with the offset they stand at and the
version an edit command compares: the offset the owner wrote them at, which a re-append by retention keeps.

An edit command works on a **snapshot**: one scan of the contracts it may touch, with a key and a version
for each record (`readSnapshot`). `validateSuppliedVersions` compares the versions the caller sent with it.

Payloads are objects of raw values, as the source decodes them. A raw value is a JSON string, `null`, or a
text that is neither.
-/

namespace Colca.Edit

open List
open Uns (Path Stream)

variable {α β : Type}

theorem bind_eq_ok {ε : Type} {x : Except ε α} {f : α → Except ε β} {b : β} :
    (x >>= f) = .ok b ↔ ∃ a, x = .ok a ∧ f a = .ok b := by
  cases x with
  | error e => simp [bind, Except.bind]
  | ok a => simp [bind, Except.bind]

/-- What a loop over a list gives comes from its elements. -/
theorem exists_of_mem_mapM {ε : Type} {f : α → Except ε β} {l : List α} {r : List β}
    (h : l.mapM f = .ok r) : ∀ y ∈ r, ∃ x ∈ l, f x = .ok y := by
  induction l generalizing r with
  | nil =>
    cases h
    simp
  | cons a l ih =>
    simp only [mapM_cons, bind_eq_ok] at h
    obtain ⟨b, hb, rest, hrest, h⟩ := h
    cases h
    intro y hy
    rcases mem_cons.mp hy with rfl | hy
    · exact ⟨a, mem_cons_self, hb⟩
    · obtain ⟨x, hx, hxy⟩ := ih hrest y hy
      exact ⟨x, mem_cons_of_mem _ hx, hxy⟩

/-- The kinds of entities (`editKinds`). -/
inductive Kind
  | systemElement | signal | constant | colcaNode | externalReference
  deriving DecidableEq, Repr

def Kind.name : Kind → String
  | .systemElement => "system-element"
  | .signal => "signal"
  | .constant => "constant"
  | .colcaNode => "colca-node"
  | .externalReference => "external-reference"

/-- The contract a kind is stored under (`editContracts`). -/
def Kind.contract : Kind → String
  | .systemElement => "_SystemElement"
  | .signal => "_Signal"
  | .constant => "_Constant"
  | .colcaNode => "_Node"
  | .externalReference => "_ExternalReference"

/-- The contracts of a node's own records. -/
inductive Contract
  | entity (k : Kind) | enrolledIdentity | resource | dataTags | editOperation | annotations
  | other (name : String)
  deriving DecidableEq, Repr

def Contract.name : Contract → String
  | .entity k => k.contract
  | .enrolledIdentity => "_EnrolledIdentity"
  | .resource => "_Resource"
  | .dataTags => "_DataTags"
  | .editOperation => "_EditOperation"
  | .annotations => "_Annotation"
  | .other name => name

/-- A topic of this node: the contract and the position; the levels in between are the node's own. -/
structure Addr where
  contract : Contract
  path : Path
  deriving DecidableEq, Repr

/-- The text topics are ordered by. -/
def Addr.text (a : Addr) : String := a.contract.name ++ "/" ++ "/".intercalate a.path

/-! ### Payloads -/

/-- A raw JSON value. -/
inductive Raw
  | str (s : String) | null | other (text : String)
  deriving DecidableEq, Repr

/-- A decoded object. -/
abbrev Fields := List (String × Raw)

namespace Fields

def get (f : Fields) (name : String) : Option Raw := f.lookup name

def erase (f : Fields) (name : String) : Fields := f.filter (·.1 ≠ name)

def set (f : Fields) (name : String) (v : Raw) : Fields := (name, v) :: f.erase name

theorem get_set_self (f : Fields) (name : String) (v : Raw) : (f.set name v).get name = some v := by
  simp [get, set]

theorem get_set_of_ne (f : Fields) {name other : String} (v : Raw) (h : other ≠ name) :
    (f.set name v).get other = f.get other := by
  have hlookup : ∀ l : Fields, List.lookup other (l.filter (·.1 ≠ name)) = List.lookup other l := by
    intro l
    induction l with
    | nil => rfl
    | cons x l ih =>
      by_cases hx : x.1 = name
      · have hne : (other == x.1) = false := by simpa [hx] using h
        rw [filter_cons_of_neg (by simpa using hx), ih, lookup_cons, hne]
      · rw [filter_cons_of_pos (by simpa using hx), lookup_cons, lookup_cons, ih]
  have hne : (other == name) = false := by simpa using h
  rw [get, set, lookup_cons, hne]
  exact hlookup f

/-- `rawMapsEqual`: both objects have the same values. -/
def same (f g : Fields) : Bool := (f ++ g).all fun x ↦ f.get x.1 = g.get x.1

end Fields

/-- `rawString`: a missing or null value is empty, and what is not a string is an error. -/
def rawString : Option Raw → Option String
  | none => some ""
  | some .null => some ""
  | some (.str s) => some s
  | some (.other _) => none

/-- `rawString` where the error is ignored. -/
def textOf (v : Option Raw) : String := (rawString v).getD ""

/-- A stored payload. -/
inductive Payload
  | object (f : Fields) | unreadable
  deriving DecidableEq, Repr

/-! ### Records -/

/-- A current record (`KVRecord`). -/
structure Rec where
  addr : Addr
  payload : Payload
  /-- Where it stands in the stream. -/
  offset : ℕ
  /-- Where its owner wrote it. -/
  version : ℕ
  deriving DecidableEq, Repr

/-- One state change a command produces; no payload is a tombstone. -/
structure StateRecord where
  addr : Addr
  payload : Option Payload
  deriving DecidableEq, Repr

/-- One state record that a command wrote. -/
structure StateWrite where
  stream : Stream
  offset : ℕ
  addr : Addr
  deriving DecidableEq, Repr

/-- The current records. -/
abbrev KV := List Rec

namespace KV

/-- `KVGet`. -/
def get (kv : KV) (a : Addr) : Option Rec := kv.find? (·.addr = a)

def remove (kv : KV) (a : Addr) : KV := kv.filter (·.addr ≠ a)

def put (kv : KV) (r : Rec) : KV := kv.remove r.addr ++ [r]

/-- A record is appended: it replaces what stands at its position, or retires it. -/
def apply (kv : KV) (off : ℕ) (r : StateRecord) : KV :=
  match r.payload with
  | none => kv.remove r.addr
  | some p => kv.put ⟨r.addr, p, off, off⟩

/-- The records of one batch are appended at consecutive offsets. -/
def commit : KV → ℕ → List StateRecord → KV
  | kv, _, [] => kv
  | kv, off, r :: rest => (kv.apply off r).commit (off + 1) rest

/-- Retention appends the record of a position again: it moves, and keeps its version. -/
def refresh (kv : KV) (off : ℕ) (a : Addr) : KV :=
  match kv.get a with
  | none => kv
  | some r => kv.put { r with offset := off }

/-- The version of what stands at a position. -/
def versionAt (kv : KV) (a : Addr) : Option ℕ := (kv.get a).map (·.version)

variable {kv : KV} {a b : Addr} {off : ℕ}

theorem get_remove : (kv.remove a).get b = if b = a then none else kv.get b := by
  rw [get, remove, find?_filter]
  split
  · rename_i h
    subst h
    simp [find?_eq_none]
  · rename_i h
    refine congrArg (List.find? · kv) (funext fun r ↦ ?_)
    by_cases hr : r.addr = b
    · simp [hr, h]
    · simp [hr]

theorem get_put (r : Rec) : (kv.put r).get b = if b = r.addr then some r else kv.get b := by
  have hrem : (kv.remove r.addr).find? (·.addr = b) = if b = r.addr then none else kv.get b := get_remove
  rw [get, put, find?_append, hrem]
  split
  · rename_i h
    simp [h]
  · rename_i h
    have hlast : List.find? (fun x : Rec ↦ decide (x.addr = b)) [r] = none := by
      simp [Ne.symm h]
    rw [hlast, Option.or_none]

theorem get_apply_of_ne {r : StateRecord} (h : a ≠ r.addr) : (kv.apply off r).get a = kv.get a := by
  unfold apply
  split
  · rw [get_remove, if_neg h]
  · rw [get_put, if_neg h]

variable {batch : List StateRecord}

/-- A batch touches the positions of its records only. -/
theorem get_commit_of_notMem (h : a ∉ batch.map (·.addr)) : (kv.commit off batch).get a = kv.get a := by
  induction batch generalizing kv off with
  | nil => rfl
  | cons r rest ih =>
    simp only [map_cons, mem_cons, not_or] at h
    rw [commit, ih h.2, get_apply_of_ne h.1]

variable {r : Rec}

theorem addr_of_get (h : kv.get a = some r) : r.addr = a := by
  simpa using find?_some h

/-- **A re-append keeps every version.** -/
@[simp] theorem versionAt_refresh : (kv.refresh off a).versionAt b = kv.versionAt b := by
  unfold refresh
  split
  · rfl
  · rename_i r hr
    rw [versionAt, get_put]
    split
    · rename_i h
      rw [h, show r.addr = a from addr_of_get hr, versionAt, hr]
      rfl
    · rfl

/-- One record per position. -/
def Distinct (kv : KV) : Prop := (kv.map (·.addr)).Nodup

theorem Distinct.get (h : kv.Distinct) (hr : r ∈ kv) : kv.get r.addr = some r := by
  induction kv with
  | nil => cases hr
  | cons x kv ih =>
    have hnodup := nodup_cons.mp h
    rcases mem_cons.mp hr with rfl | hr
    · simp [KV.get]
    · have hne : x.addr ≠ r.addr := by
        intro heq
        exact hnodup.1 (mem_map.mpr ⟨r, hr, heq.symm⟩)
      rw [KV.get, find?_cons_of_neg (by simpa using hne)]
      exact ih hnodup.2 hr

theorem Distinct.remove (h : kv.Distinct) (a : Addr) : (kv.remove a).Distinct :=
  h.sublist (filter_sublist.map _)

theorem Distinct.put (h : kv.Distinct) (r : Rec) : (kv.put r).Distinct := by
  show ((kv.remove r.addr ++ [r]).map (·.addr)).Nodup
  rw [map_append, map_singleton, nodup_append]
  refine ⟨h.remove r.addr, nodup_singleton _, ?_⟩
  intro a ha b hb
  obtain ⟨x, hx, rfl⟩ := mem_map.mp ha
  rw [mem_singleton.mp hb]
  simpa using (mem_filter.mp hx).2

theorem Distinct.apply (h : kv.Distinct) (off : ℕ) (r : StateRecord) : (kv.apply off r).Distinct := by
  unfold KV.apply
  split
  · exact h.remove _
  · exact h.put _

theorem Distinct.commit (h : kv.Distinct) (off : ℕ) (batch : List StateRecord) :
    (kv.commit off batch).Distinct := by
  induction batch generalizing kv off with
  | nil => exact h
  | cons r rest ih => exact ih (h.apply off r) (off + 1)

theorem Distinct.refresh (h : kv.Distinct) (off : ℕ) (a : Addr) : (kv.refresh off a).Distinct := by
  unfold KV.refresh
  split
  · exact h
  · exact h.put _

variable {x : Rec}

theorem mem_remove (h : x ∈ kv.remove a) : x ∈ kv ∧ x.addr ≠ a := by
  simpa using mem_filter.mp h

theorem mem_put (h : x ∈ kv.put r) : (x ∈ kv ∧ x.addr ≠ r.addr) ∨ x = r := by
  rcases mem_append.mp h with h | h
  · exact .inl (mem_remove h)
  · exact .inr (mem_singleton.mp h)

/-- A record after a batch was there before and not the batch's to replace, or is the batch's and has an
offset of the batch. -/
theorem mem_commit (h : x ∈ kv.commit off batch) :
    (x ∈ kv ∧ x.addr ∉ batch.map (·.addr)) ∨ ∃ r ∈ batch, x.addr = r.addr ∧ r.payload = some x.payload ∧
      off ≤ x.version ∧ x.version < off + batch.length := by
  induction batch generalizing kv off with
  | nil => exact .inl ⟨h, not_mem_nil⟩
  | cons r rest ih =>
    rcases ih h with ⟨h, hrest⟩ | ⟨y, hy, haddr, hpayload, hle, hlt⟩
    · have hkept : x ∈ kv → x.addr ≠ r.addr → x ∈ kv ∧ x.addr ∉ (r :: rest).map (·.addr) := by
        intro hx hne
        refine ⟨hx, ?_⟩
        rw [map_cons, mem_cons, not_or]
        exact ⟨hne, hrest⟩
      unfold KV.apply at h
      split at h
      · obtain ⟨hx, hne⟩ := mem_remove h
        exact .inl (hkept hx hne)
      · rename_i p hp
        rcases mem_put h with ⟨hx, hne⟩ | rfl
        · exact .inl (hkept hx hne)
        · exact .inr ⟨r, mem_cons_self, rfl, hp, le_rfl, by simp⟩
    · refine .inr ⟨y, mem_cons_of_mem _ hy, haddr, hpayload, by omega, ?_⟩
      rw [length_cons]
      omega

theorem mem_refresh (h : x ∈ kv.refresh off a) : x ∈ kv ∨ ∃ r ∈ kv, x = { r with offset := off } := by
  unfold KV.refresh at h
  split at h
  · exact .inl h
  · rename_i r hr
    rcases mem_put h with h | rfl
    · exact .inl h.1
    · exact .inr ⟨r, mem_of_find?_eq_some hr, rfl⟩

theorem versionAt_commit_of_notMem (h : a ∉ batch.map (·.addr)) :
    (kv.commit off batch).versionAt a = kv.versionAt a := by
  rw [versionAt, get_commit_of_notMem h, versionAt]

end KV

/-! ### Snapshots -/

/-- What a version is sent for. -/
inductive Key
  | entity (k : Kind) (id : String)
  | attachment (ulid : String)
  | resource (id : String)
  | catalogue (connector : String)
  deriving DecidableEq, Repr

def Key.text : Key → String
  | .entity k id => k.name ++ ":" ++ id
  | .attachment ulid => "node-attachment:" ++ ulid
  | .resource id => "resource:" ++ id
  | .catalogue connector => "catalogue:" ++ connector

/-- A retained entity. -/
structure Entity where
  kind : Kind
  id : String
  record : Rec
  fields : Fields
  deriving DecidableEq, Repr

def Entity.key (e : Entity) : Key := .entity e.kind e.id

/-- The enrolled identity of a child node. -/
structure Attachment where
  ulid : String
  record : Rec
  fields : Fields
  deriving DecidableEq, Repr

structure Snapshot where
  entities : List Entity
  attachments : List Attachment
  /-- The records with a version, under their keys. -/
  held : List (Key × Rec)
  deriving DecidableEq, Repr

/-- Why a snapshot cannot be taken. -/
inductive SnapshotError
  | unreadable (a : Addr) | noIdentity (a : Addr) | duplicate (k : Key)
  deriving DecidableEq, Repr

def SnapshotError.message : SnapshotError → String
  | .unreadable a => "retained " ++ a.contract.name ++ " at " ++ "/".intercalate a.path ++ " is unreadable"
  | .noIdentity a => "retained " ++ a.contract.name ++ " at " ++ "/".intercalate a.path ++ " has no identity"
  | .duplicate k => "duplicate retained identity " ++ k.text

/-- The object of a record. -/
def Rec.object (r : Rec) : Except SnapshotError Fields :=
  match r.payload with
  | .object f => .ok f
  | .unreadable => .error (.unreadable r.addr)

/-- The identity a payload carries in a field. -/
def Rec.identity (r : Rec) (f : Fields) (name : String) : Except SnapshotError String :=
  match rawString (f.get name) with
  | some id => if id = "" then .error (.noIdentity r.addr) else .ok id
  | none => .error (.noIdentity r.addr)

/-- The entity of a record, unless its contract is not an entity's. -/
def readEntity (r : Rec) : Except SnapshotError (Option Entity) :=
  match r.addr.contract with
  | .entity k => do
    let f ← r.object
    let id ← r.identity f "id"
    pure (some ⟨k, id, r, f⟩)
  | _ => pure none

/-- The key of a record that has a version without being an entity. -/
def readOther (r : Rec) : Except SnapshotError (Option (Key × Fields)) :=
  match r.addr.contract with
  | .enrolledIdentity => do
    let f ← r.object
    let ulid ← r.identity f "ulid"
    -- only nodes are attached
    pure (if textOf (f.get "kind") = "node" then some (.attachment ulid, f) else none)
  | .resource => do
    let f ← r.object
    let id ← r.identity f "id"
    pure (some (.resource id, f))
  | .dataTags => do
    let f ← r.object
    let connector ← r.identity f "connector"
    pure (some (.catalogue connector, f))
  | _ => pure none

/-- `snapshot`. Entities of one key at two positions make it fail; of other records of one key the later
one counts. -/
def readSnapshot (kv : KV) : Except SnapshotError Snapshot := do
  let entities := (← kv.mapM readEntity).filterMap id
  let others := (← kv.mapM fun r ↦ do pure ((← readOther r).map fun x ↦ (x.1, x.2, r))).filterMap id
  match entities.find? fun e ↦ 1 < (entities.filter (·.key = e.key)).length with
  | some e => .error (.duplicate e.key)
  | none =>
    pure {
      entities
      attachments := others.filterMap fun x ↦
        match x.1 with
        | .attachment ulid => some ⟨ulid, x.2.2, x.2.1⟩
        | _ => none
      held := others.reverse.map (fun x ↦ (x.1, x.2.2)) ++ entities.map fun e ↦ (e.key, e.record) }

namespace Snapshot

variable (sn : Snapshot)

/-- The record of a key. -/
def recordOf (k : Key) : Option Rec := sn.held.lookup k

def entity (kind : Kind) (id : String) : Option Entity :=
  sn.entities.find? fun e ↦ e.kind = kind ∧ e.id = id

def attachment (ulid : String) : Option Attachment :=
  sn.attachments.reverse.find? (·.ulid = ulid)

end Snapshot

theorem mem_of_lookup [BEq α] [LawfulBEq α] {l : List (α × β)} {k : α} {b : β}
    (h : l.lookup k = some b) : (k, b) ∈ l := by
  obtain ⟨l₁, l₂, rfl, -⟩ := lookup_eq_some_iff.mp h
  simp

variable {e : Entity}

/-- The entity of a record has that record. -/
theorem record_of_readEntity (h : readEntity r = .ok (some e)) : e.record = r := by
  unfold readEntity at h
  split at h
  · simp only [bind_eq_ok] at h
    obtain ⟨f, -, id, -, h⟩ := h
    cases h
    rfl
  · cases h

/-- An entity is what its record says: of the record's contract, with the id in its object. -/
theorem readEntity_eq_ok (h : readEntity r = .ok (some e)) :
    r.addr.contract = .entity e.kind ∧ r.payload = .object e.fields ∧
      rawString (e.fields.get "id") = some e.id := by
  unfold readEntity at h
  split at h
  · rename_i k hk
    simp only [bind_eq_ok] at h
    obtain ⟨f, hf, id, hid, h⟩ := h
    cases h
    have hpayload : r.payload = .object f := by
      unfold Rec.object at hf
      split at hf
      · cases hf
        assumption
      · cases hf
    unfold Rec.identity at hid
    split at hid
    · split at hid
      · cases hid
      · cases hid
        exact ⟨hk, hpayload, by assumption⟩
    · cases hid
  · cases h

variable {k : Key}

/-- **Everything in a snapshot was read from a record.** -/
structure ReadFrom (kv : KV) (sn : Snapshot) : Prop where
  entities : ∀ e ∈ sn.entities, e.record ∈ kv ∧ readEntity e.record = .ok (some e)
  attachments : ∀ x ∈ sn.attachments, ∃ r ∈ kv, readOther r = .ok (some (.attachment x.ulid, x.fields))
  held : ∀ x ∈ sn.held, (∃ f, x.2 ∈ kv ∧ readOther x.2 = .ok (some (x.1, f))) ∨
    ∃ e ∈ sn.entities, x = (e.key, e.record)

theorem readSnapshot_from {kv : KV} {sn : Snapshot} (h : readSnapshot kv = .ok sn) : ReadFrom kv sn := by
  simp only [readSnapshot, bind_eq_ok] at h
  obtain ⟨es, hes, others, hothers, h⟩ := h
  have hother : ∀ x ∈ others.filterMap id, x.2.2 ∈ kv ∧ readOther x.2.2 = .ok (some (x.1, x.2.1)) := by
    intro x hx
    obtain ⟨y, hy, rfl⟩ := mem_filterMap.mp hx
    obtain ⟨r, hr, hread⟩ := exists_of_mem_mapM hothers _ hy
    obtain ⟨z, hz, hw⟩ := bind_eq_ok.mp hread
    obtain ⟨w, rfl, rfl⟩ := Option.map_eq_some_iff.mp (Except.ok.inj hw)
    exact ⟨hr, hz⟩
  split at h
  · cases h
  · cases h
    refine ⟨fun e he ↦ ?_, fun x hx ↦ ?_, fun x hx ↦ ?_⟩
    · obtain ⟨x, hx, hsome⟩ := mem_filterMap.mp he
      obtain ⟨r, hr, hread⟩ := exists_of_mem_mapM hes x hx
      cases hsome
      rw [record_of_readEntity hread]
      exact ⟨hr, hread⟩
    · obtain ⟨y, hy, hsome⟩ := mem_filterMap.mp hx
      split at hsome
      · rename_i ulid hulid
        cases hsome
        exact ⟨y.2.2, (hother y hy).1, hulid ▸ (hother y hy).2⟩
      · cases hsome
    · rcases mem_append.mp hx with hx | hx
      · obtain ⟨y, hy, rfl⟩ := mem_map.mp hx
        exact .inl ⟨y.2.1, hother y (mem_reverse.mp hy)⟩
      · obtain ⟨e, he, rfl⟩ := mem_map.mp hx
        exact .inr ⟨e, he, rfl⟩

/-- The entities of a snapshot are read from its records. -/
theorem exists_of_mem_entities {kv : KV} {sn : Snapshot} (h : readSnapshot kv = .ok sn)
    (he : e ∈ sn.entities) : e.record ∈ kv ∧ readEntity e.record = .ok (some e) :=
  (readSnapshot_from h).entities e he

/-- A key that is not an entity's comes from the record's object; that of an attachment is the identity the
record names. -/
theorem object_of_readOther {f : Fields} (h : readOther r = .ok (some (k, f))) :
    r.payload = .object f ∧ ∀ ulid, k = .attachment ulid →
      r.addr.contract = .enrolledIdentity ∧ textOf (f.get "ulid") = ulid := by
  have hobject : ∀ {g : Fields}, r.object = .ok g → r.payload = .object g := by
    intro g hg
    unfold Rec.object at hg
    split at hg
    · cases hg
      assumption
    · cases hg
  have hidentity : ∀ {g : Fields} {name id : String}, r.identity g name = .ok id →
      textOf (g.get name) = id := by
    intro g name id hid
    unfold Rec.identity at hid
    split at hid
    · rename_i x hx
      split at hid
      · cases hid
      · cases hid
        simp [textOf, hx]
    · cases hid
  unfold readOther at h
  split at h
  · rename_i hcontract
    simp only [bind_eq_ok] at h
    obtain ⟨g, hg, ulid, hulid, h⟩ := h
    have h := Except.ok.inj h
    split at h
    · cases h
      refine ⟨hobject hg, fun u hu ↦ ?_⟩
      cases hu
      exact ⟨hcontract, hidentity hulid⟩
    · cases h
  · simp only [bind_eq_ok] at h
    obtain ⟨g, hg, id, -, h⟩ := h
    cases h
    exact ⟨hobject hg, fun u hu ↦ by cases hu⟩
  · simp only [bind_eq_ok] at h
    obtain ⟨g, hg, id, -, h⟩ := h
    cases h
    exact ⟨hobject hg, fun u hu ↦ by cases hu⟩
  · cases h

/-- What a snapshot has under a key is one of the records. -/
theorem mem_of_recordOf {kv : KV} {sn : Snapshot} (h : readSnapshot kv = .ok sn)
    (hk : sn.recordOf k = some r) : r ∈ kv := by
  have hfrom := readSnapshot_from h
  rcases hfrom.held _ (mem_of_lookup hk) with ⟨f, hr, -⟩ | ⟨e, he, heq⟩
  · exact hr
  · cases heq
    exact (hfrom.entities e he).1

/-- The attachments of a snapshot are identities that name themselves. -/
theorem identity_of_recordOf {kv : KV} {sn : Snapshot} (h : readSnapshot kv = .ok sn)
    {ulid : String} (hk : sn.recordOf (.attachment ulid) = some r) :
    r.addr.contract = .enrolledIdentity ∧ ∃ f, r.payload = .object f ∧ textOf (f.get "ulid") = ulid := by
  rcases (readSnapshot_from h).held _ (mem_of_lookup hk) with ⟨f, -, hread⟩ | ⟨e, -, heq⟩
  · obtain ⟨hobject, hulid⟩ := object_of_readOther hread
    exact ⟨(hulid ulid rfl).1, f, hobject, (hulid ulid rfl).2⟩
  · cases heq

theorem ulid_of_attachment {kv : KV} {sn : Snapshot} (h : readSnapshot kv = .ok sn) {ulid : String}
    {x : Attachment} (hx : sn.attachment ulid = some x) : textOf (x.fields.get "ulid") = ulid := by
  have hfound : x.ulid = ulid := by simpa using find?_some hx
  have hmem := mem_reverse.mp (mem_of_find?_eq_some hx)
  obtain ⟨r, -, hread⟩ := (readSnapshot_from h).attachments x hmem
  exact hfound ▸ ((object_of_readOther hread).2 x.ulid rfl).2

/-- The versions a caller sent. -/
abbrev Expected := List (Key × ℕ)

/-- `validateSuppliedVersions`: the first sent version, in the order of the keys, that the snapshot does not
have. -/
def validateSuppliedVersions (expected : Expected) (sn : Snapshot) : Option String :=
  ((expected.insertionSort fun x y ↦ x.1.text ≤ y.1.text).filterMap fun x ↦
    match sn.recordOf x.1 with
    | none => some ("stale_version: " ++ x.1.text ++ " no longer exists")
    | some r =>
      if r.version = x.2 then none
      else some ("stale_version: " ++ x.1.text ++ " expected " ++ toString x.2 ++ " got " ++
        toString r.version)).head?

theorem version_of_validateSuppliedVersions {expected : Expected} {sn : Snapshot}
    (h : validateSuppliedVersions expected sn = none) {v : ℕ} (hk : (k, v) ∈ expected) :
    ∃ r, sn.recordOf k = some r ∧ r.version = v := by
  rw [validateSuppliedVersions, head?_eq_none_iff, filterMap_eq_nil_iff] at h
  have hmem : (k, v) ∈ expected.insertionSort fun x y ↦ x.1.text ≤ y.1.text :=
    (perm_insertionSort _ _).mem_iff.mpr hk
  have hnone := h _ hmem
  split at hnone
  · cases hnone
  · rename_i r hr
    split at hnone
    · exact ⟨r, hr, by assumption⟩
    · cases hnone

end Colca.Edit
