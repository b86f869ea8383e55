import Colca.Uns.TopicFilter

/-!
# Grants

The texts of grants: `read:<zone>`, `write:<zone>`, `cmd:<zone>:<class,...>` and `admin:#`, where a zone is `#`,
the id of a system element, or `$node` with a local path behind it, each with or without a trailing `/#`.
-/

namespace Colca.Uns.Authz

open Segments TopicText

inductive Verb
  | read | write | cmd | admin
  deriving DecidableEq, Repr

/-- One parsed grant. The element is `#` for everything; the classes are those of a `cmd` grant. -/
structure Grant where
  verb : Verb
  element : Text
  classes : List Text
  deriving DecidableEq

/-- Why a text is no grant. -/
inductive GrantError
  | verb | shape | emptyZone | unknownZone | nodePath | notElement | scopedAdmin | noClass | unknownClass
  deriving DecidableEq, Repr

def colon : UInt8 := 58
def comma : UInt8 := 44

/-- The hazard classes. -/
def cmdClasses : List Text :=
  [bytes "acknowledge", bytes "admin", bytes "annotate", bytes "configure", bytes "maintain", bytes "operate",
    bytes "param"]

/-- `ValidElementID`: an element is named by identity, not by path. -/
def validElementID (id : Text) : Bool := !containsAny id (bytes "/+#:")

/-- The zone of the node a person signed in at. -/
def nodeZone : Text := bytes "$node"

/-- `NodeRelative`: the local path of a node-relative zone, empty for the whole node. -/
def nodeRelative (element : Text) : Option Text :=
  if element = nodeZone then some [] else cutPrefix element (nodeZone ++ [slash])

/-- `strings.TrimSuffix`. -/
def trimSuffix (s suffix : Text) : Text :=
  if suffix.isSuffixOf s then s.take (s.length - suffix.length) else s

/-- `parseNodeZone`. -/
def parseNodeZone (z : Text) : Except GrantError Text :=
  match nodeRelative z with
  | none => .error .unknownZone
  | some path =>
    if path = [] then .ok nodeZone
    else if (levels path).any fun seg ↦ seg = [] || containsAny seg (bytes "+#:$") then .error .nodePath
    else .ok z

/-- `parseZone`. -/
def parseZone (z : Text) : Except GrantError Text :=
  if z = hashLevel then .ok hashLevel
  else
    let z := trimSuffix z (bytes "/#")
    if z = [] then .error .emptyZone
    else if (bytes "$").isPrefixOf z then parseNodeZone z
    else if validElementID z then .ok z
    else .error .notElement

/-- `ParseGrant`. -/
def parseGrant (s : Text) : Except GrantError Grant :=
  match splitN colon 3 s with
  | [] => .error .verb
  | verb :: parts =>
    if verb = bytes "read" then
      match parts with
      | [z] => (parseZone z).map (⟨.read, ·, []⟩)
      | _ => .error .shape
    else if verb = bytes "write" then
      match parts with
      | [z] => (parseZone z).map (⟨.write, ·, []⟩)
      | _ => .error .shape
    else if verb = bytes "admin" then
      match parts with
      | [z] => (parseZone z).bind fun z ↦ if z ≠ hashLevel then .error .scopedAdmin else .ok ⟨.admin, hashLevel, []⟩
      | _ => .error .shape
    else if verb = bytes "cmd" then
      match parts with
      | [z, classes] =>
        (parseZone z).bind fun z ↦
          if classes = [] then .error .noClass
          else if (List.splitOn comma classes).all (· ∈ cmdClasses) then
            .ok ⟨.cmd, z, List.splitOn comma classes⟩
          else .error .unknownClass
      | _ => .error .shape
    else .error .verb

end Colca.Uns.Authz
