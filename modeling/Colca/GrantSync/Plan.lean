import Colca.Uns.Grants
import Mathlib.Data.List.AList
import Mathlib.Data.List.Sort
import Mathlib.Data.String.Basic

/-!
# A cycle of the grant sync

Administrators author grants in Keycloak; nodes resolve them from the `_Group` definitions of the tree. A cycle
reads both whole, compiles Keycloak's permissions to grants, and writes the differences: elements become
resources in Keycloak, and groups become definitions of the root node.

Both plans are functions of what was read. `Tree` is what the root node holds: definitions by any number of
nodes, one for each node and group id. The node lists its current state in key order, which for definitions is
by group id and then by author, and `parseKV` folds the listing into a map by group id. Of several authors the
last one listed is the one the plan sees.

Texts that came out of JSON are strings. The messages of problems are left out, and memberships, which the cycle
keeps in step too, touch neither resources nor definitions.
-/

namespace Colca.GrantSync

open Colca.Uns.TopicText Colca.Uns.Authz

/-- A Go map with text keys. -/
abbrev Map (α : Type) := AList fun _ : String ↦ α

/-- `sortedKeys`. -/
def sortedKeys {α : Type} (m : Map α) : List String := m.keys.insertionSort (· ≤ ·)

/-! ### Compiling -/

/-- One permission, resolved: group names, element ids and scope names. -/
structure Permission where
  groups : List String
  elements : List String
  scopes : List String

inductive Problem
  | unknownScope (scope : String)
  | unnamedResource
  | badResource (name : String)
  | badGrant (group grant : String)
  deriving DecidableEq, Repr

/-- The classes a `cmd` grant may name. -/
def classNames : List String :=
  ["acknowledge", "admin", "annotate", "configure", "maintain", "operate", "param"]

/-- `FormatGrant` of a `read` grant of an element. -/
def formatRead (element : String) : String := "read:" ++ element ++ "/#"

/-- `FormatGrant` of a `cmd` grant of an element; the classes are sorted. -/
def formatCmd (element : String) (classes : List String) : String :=
  "cmd:" ++ element ++ "/#:" ++ ",".intercalate (classes.insertionSort (· ≤ ·))

/-- A text a node accepts as a grant. -/
def isGrant (s : String) : Bool :=
  match parseGrant (bytes s) with
  | .ok _ => true
  | .error _ => false

/-- The grants of a permission on one element, for each of its groups. -/
def Permission.grantsOn (perm : Permission) (element : String) : List (String × String) :=
  let read := if "read" ∈ perm.scopes then [formatRead element] else []
  let classes := perm.scopes.filter fun s ↦ s ≠ "read" && classNames.contains s
  let cmd := if classes = [] then [] else [formatCmd element classes]
  (read ++ cmd).flatMap fun grant ↦ perm.groups.map (·, grant)

/-- What a permission adds, and what is wrong with it. -/
def Permission.compile (perm : Permission) : List (String × String) × List Problem :=
  let scopes := perm.scopes.filterMap fun s ↦
    if s = "read" ∨ s ∈ classNames then none else some (Problem.unknownScope s)
  let check (element : String) : Option Problem :=
    if element = "" then some .unnamedResource
    else if validElementID (bytes element) then none
    else some (.badResource element)
  ((perm.elements.filter fun x ↦ (check x).isNone).flatMap perm.grantsOn, scopes ++ perm.elements.filterMap check)

/-- Add a grant to a group's set. -/
def addGrant (buckets : Map (List String)) (x : String × String) : Map (List String) :=
  buckets.insert x.1 (((buckets.lookup x.1).getD []).insert x.2)

/-- `CompileGrants`: the grants of each group, sorted; a group without any is left out. -/
def compileGrants (perms : List Permission) (attrs : Map (List String)) : Map (List String) × List Problem :=
  let compiled := perms.map Permission.compile
  let direct := attrs.keys.flatMap fun g ↦ ((attrs.lookup g).getD []).map (g, ·)
  let buckets := ((compiled.flatMap (·.1)) ++ direct.filter fun x ↦ isGrant x.2).foldl addGrant ∅
  let out := buckets.keys.foldl (fun (m : Map (List String)) g ↦
    let grants := ((buckets.lookup g).getD []).filter isGrant
    if grants = [] then m else m.insert g (grants.insertionSort (· ≤ ·))) ∅
  let unusable := (direct.filter fun x ↦ !isGrant x.2).map fun x ↦ Problem.badGrant x.1 x.2
  let refused := buckets.keys.flatMap fun g ↦
    (((buckets.lookup g).getD []).filter (!isGrant ·)).map (Problem.badGrant g)
  (out, compiled.flatMap (·.2) ++ unusable ++ refused)

/-! ### Resources -/

def elementResourceType : String := "colca:element"

/-- An authz resource; `managedBy` are the values of the marker attribute. -/
structure Resource where
  id : String
  name : String
  displayName : String
  type : String
  managedBy : List String
  deriving DecidableEq, Repr

structure ResourcePlan where
  create : List Resource
  update : List Resource
  delete : List Resource
  unmanaged : List String
  deriving DecidableEq, Repr

/-- The resource of an element. -/
def elementResource (owner id name path : String) : Resource := ⟨id, name, path, elementResourceType, [owner]⟩

/-- `byName`: of several resources of one name the last. -/
def byName (existing : List Resource) (name : String) : Option Resource :=
  (existing.filter (·.name = name)).getLast?

/-- The names of the resources, sorted. -/
def resourceNames (existing : List Resource) : List String :=
  (existing.map (·.name)).dedup.insertionSort (· ≤ ·)

/-- `PlanResources`. -/
def planResources (elements : Map String) (existing : List Resource) (owner : String) : ResourcePlan where
  create := (sortedKeys elements).filterMap fun id ↦
    match byName existing id with
    | none => (elements.lookup id).map (elementResource owner "" id)
    | some _ => none
  update := (sortedKeys elements).filterMap fun id ↦
    match byName existing id, elements.lookup id with
    | some current, some path =>
      if current.displayName ≠ path ∨ owner ∉ current.managedBy then
        some (elementResource owner current.id id path)
      else none
    | _, _ => none
  delete := (resourceNames existing).filterMap fun name ↦
    (byName existing name).filter fun r ↦
      (elements.lookup name).isNone && r.type = elementResourceType && r.managedBy.contains owner
  unmanaged := (resourceNames existing).filter fun name ↦
    (byName existing name).any fun r ↦
      (elements.lookup name).isNone && r.type = elementResourceType && !r.managedBy.contains owner

/-- How Keycloak names what is created: with an id no resource has. -/
structure Ids where
  new : List Resource → String
  fresh : ∀ l, new l ∉ l.map (·.id)

/-- Keycloak's resources. A resource has an id and a name of its own. -/
structure Registry where
  resources : List Resource
  ids : (resources.map (·.id)).Nodup
  names : (resources.map (·.name)).Nodup

/-- `CreateResource`. -/
def createResource (ids : Ids) (l : List Resource) (r : Resource) : List Resource := l ++ [{ r with id := ids.new l }]

/-- `UpdateResource`: the body replaces everything but the id. -/
def updateResource (l : List Resource) (r : Resource) : List Resource :=
  l.map fun x ↦ if x.id = r.id then r else x

/-- `DeleteResource`. -/
def deleteResource (l : List Resource) (r : Resource) : List Resource := l.filter (·.id ≠ r.id)

/-- `applyResources`, every write of which succeeds. -/
def applyResources (ids : Ids) (l : List Resource) (plan : ResourcePlan) : List Resource :=
  plan.delete.foldl deleteResource (plan.update.foldl updateResource (plan.create.foldl (createResource ids) l))

/-! ### Definitions -/

/-- A `_Group` definition the root node holds. -/
structure Def where
  author : String
  id : String
  grants : List String
  deriving DecidableEq, Repr

/-- The order of the listing. -/
def Def.Before (d e : Def) : Prop := d.id < e.id ∨ (d.id = e.id ∧ d.author < e.author)

instance (d e : Def) : Decidable (d.Before e) :=
  inferInstanceAs (Decidable (d.id < e.id ∨ (d.id = e.id ∧ d.author < e.author)))

/-- What the root node holds, as it lists it: the elements with their paths, and the definitions. A definition has
an id, its address. -/
structure Tree where
  elements : List (String × String)
  defs : List Def
  sorted : defs.Pairwise Def.Before
  named : ∀ d ∈ defs, d.id ≠ ""

/-- An entry of the listing, parsed and decoded: the contract and node of its topic, the node it is stored
under, and of the payload the id and the grants. A payload that does not decode is `none`. -/
structure KVEntry where
  contract : String
  topicNode : String
  path : String
  nodeID : String
  payload : Option (String × List String)
  deriving DecidableEq, Repr

/-- `/kv` for the two contracts. -/
def listing (elements : List (String × String)) (defs : List Def) : List KVEntry :=
  (elements.map fun x ↦ ⟨"_SystemElement", "", x.2, "", some (x.1, [])⟩) ++
    defs.map fun d ↦ ⟨"_Group", d.author, d.id, d.author, some (d.id, d.grants)⟩

structure HeldGroup where
  id : String
  grants : List String
  author : String
  deriving DecidableEq, Repr

structure TreeView where
  elements : Map String
  groups : Map HeldGroup

/-- One entry is folded into the view. -/
def TreeView.take (v : TreeView) (x : KVEntry) : TreeView :=
  match x.payload with
  | none => v
  | some (id, grants) =>
    if id = "" then v
    else if x.contract = "_SystemElement" then { v with elements := v.elements.insert id x.path }
    else if x.contract = "_Group" then
      { v with groups := v.groups.insert id ⟨id, grants, if x.nodeID = "" then x.topicNode else x.nodeID⟩ }
    else v

/-- `ParseKV`. -/
def parseKV (entries : List KVEntry) : TreeView := entries.foldl TreeView.take ⟨∅, ∅⟩

structure GroupDefinition where
  id : String
  name : String
  grants : List String
  deriving DecidableEq, Repr

/-- A grant naming an element no node in the tree holds. -/
structure Orphan where
  group : String
  element : Text
  deriving DecidableEq

structure DefinitionPlan where
  upsert : List GroupDefinition
  retract : List String
  foreign : List String
  unresolvable : List Orphan

/-- `elementOf`: the element a grant names. -/
def elementOf (grant : String) : Option Text :=
  match parseGrant (bytes grant) with
  | .error _ => none
  | .ok parsed =>
    if parsed.element = hashLevel ∨ (nodeRelative parsed.element).isSome then none else some parsed.element

/-- `PlanDefinitions`. -/
def planDefinitions (desired : Map (List String)) (tree : TreeView) (rootULID : String) : DefinitionPlan where
  upsert := (sortedKeys desired).filterMap fun group ↦
    (desired.lookup group).bind fun grants ↦
      if (tree.groups.lookup group).any (·.grants = grants) then none else some ⟨group, group, grants⟩
  retract := (sortedKeys tree.groups).filter fun id ↦
    (desired.lookup id).isNone && (tree.groups.lookup id).any (·.author = rootULID)
  foreign := (sortedKeys tree.groups).filter fun id ↦
    (desired.lookup id).isNone && !(tree.groups.lookup id).any (·.author = rootULID)
  unresolvable := (sortedKeys desired).flatMap fun group ↦
    ((desired.lookup group).getD []).filterMap fun grant ↦
      (elementOf grant).bind fun element ↦
        if tree.elements.keys.any (bytes · = element) then none else some ⟨group, element⟩

/-- The definition with the key of `new` is replaced, or `new` is put at its place. -/
def putDef (new : Def) : List Def → List Def
  | [] => [new]
  | d :: rest =>
    if d.id = new.id ∧ d.author = new.author then new :: rest
    else if new.Before d then new :: d :: rest
    else d :: putDef new rest

/-- The definition an author has under an id is removed. -/
def dropDef (author id : String) (defs : List Def) : List Def := defs.filter fun d ↦ ¬(d.id = id ∧ d.author = author)

/-- `applyDefinitions`: the node carries out every command on its own definition. -/
def applyDefinitions (root : String) (plan : DefinitionPlan) (defs : List Def) : List Def :=
  plan.retract.foldl (fun defs id ↦ dropDef root id defs)
    (plan.upsert.foldl (fun defs x ↦ putDef ⟨root, x.id, x.grants⟩ defs) defs)

end Colca.GrantSync
