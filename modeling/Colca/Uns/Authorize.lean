import Colca.Uns.Grants

/-!
# Who may subscribe to what

`Authorize`, the one decision about reading, subscribing, commanding and publishing: an identity's zones are
resolved through what the node knows of its elements, and compared with the path of a topic.

A subscription is decided from the levels of its filter before the first wildcard, and what arrives on it later
is not decided again. `subscription_sound` says that this is enough for everything under the topic root: what
matches an allowed filter may be read. Outside the root the node is a plain broker, every subscription is
allowed there, and nothing is stored that a read could ask for (`foreignRoot_unreadable`).
-/

namespace Colca.Uns.Authz

open Segments TopicText List

inductive Kind
  | external | node | local | human
  deriving DecidableEq, Repr

/-- An identity, as far as authorization reads it. -/
structure Entry where
  kind : Kind
  /-- The element it is placed at; empty when it is placed nowhere. -/
  element : Text
  grants : List Text
  signedInHere : Bool
  deriving DecidableEq

/-- What a node knows about where elements are. -/
structure Scope where
  pathOf : Text → Option Text
  reaches : Text → Bool

inductive Action
  | sub | readRecord | cmd | pub
  deriving DecidableEq, Repr

/-! ### Zones -/

/-- `coverPath`: the zone itself or below it. -/
def coverPath (zone path : Text) : Bool :=
  zone = hashLevel || path = zone || (zone ++ [slash]).isPrefixOf path

/-- `zoneOf`. -/
def zoneOf (sc : Option Scope) (element : Text) : Option Text :=
  if element = hashLevel then some hashLevel
  else
    match sc with
    | none => none
    | some sc =>
      if element = [] then none
      else if sc.reaches element then some hashLevel
      else sc.pathOf element

/-- `grantZone`: a node-relative grant is for a person who signed in here. -/
def grantZone (sc : Option Scope) (e : Entry) (element : Text) : Option Text :=
  match nodeRelative element with
  | some path =>
    if e.kind ≠ .human ∨ !e.signedInHere then none
    else if path = [] then some hashLevel
    else some path
  | none => zoneOf sc element

/-- The zones of the grants of one verb; a text that is no grant counts as absent. -/
def grantZones (sc : Option Scope) (e : Entry) (verb : Verb) : List Text :=
  e.grants.filterMap fun g ↦
    match parseGrant g with
    | .ok pg => if pg.verb = verb then grantZone sc e pg.element else none
    | .error _ => none

/-- `readZones`. -/
def readZones (sc : Option Scope) (e : Entry) : List Text :=
  (if e.kind = .local ∧ e.element = [] then [hashLevel] else (zoneOf sc e.element).toList) ++ grantZones sc e .read

/-- `writeZones`: a place gives an external identity no write. -/
def writeZones (sc : Option Scope) (e : Entry) : List Text :=
  (if e.kind = .local then (if e.element = [] then [hashLevel] else (zoneOf sc e.element).toList) else []) ++
    grantZones sc e .write

/-- `AuthorizeCmdAt`. -/
def authorizeCmdAt (sc : Option Scope) (e : Entry) (cls path : Text) : Bool :=
  e.grants.any fun g ↦
    match parseGrant g with
    | .ok pg => pg.verb = .cmd && (grantZone sc e pg.element).any (coverPath · path) && pg.classes.contains cls
    | .error _ => false

/-- `HoldsCmdClass`. -/
def Entry.holdsCmdClass (e : Entry) (cls : Text) : Bool :=
  e.grants.any fun g ↦
    match parseGrant g with
    | .ok pg => pg.verb = .cmd && pg.classes.contains cls
    | .error _ => false

/-! ### Topics and filters -/

/-- `localServiceRead`: services of the deployment find each other. -/
def localServiceRead (root : Text) (e : Entry) (topic : Text) : Bool :=
  e.kind = .local &&
    match levels topic with
    | r :: v :: c :: _ :: _ => r = root && v = bytes "v1" && c = bytes "_ServiceDetails"
    | _ => false

/-- `isReservedFilter`. -/
def isReservedFilter (filter : Text) : Bool := (bytes "$").isPrefixOf filter

/-- The levels of the path before the first wildcard; the four before them may be wildcards. -/
def fixedLevels : ℕ → List Text → List Text
  | _, [] => []
  | i, s :: rest =>
    if s = hashLevel then []
    else if i < 4 then fixedLevels (i + 1) rest
    else if s = plusLevel then []
    else s :: fixedLevels (i + 1) rest

/-- `fixedPathPrefix`: `none` for a filter that matches nothing under the topic root. -/
def fixedPathPrefix (root filter : Text) : Option Text :=
  match levels filter with
  | [] => none
  | s :: rest =>
    if s ≠ root ∧ s ≠ plusLevel ∧ s ≠ hashLevel then none else some (join slash (fixedLevels 0 (s :: rest)))

/-- `CmdClass`: unknown command contracts get the highest class. -/
def cmdClass (contract : Text) : Text :=
  if contract = bytes "_CmdAcknowledge" then bytes "acknowledge"
  else if contract = bytes "_CmdParam" then bytes "param"
  else if contract = bytes "_CmdOperate" then bytes "operate"
  else if contract = bytes "_CmdMaintain" then bytes "maintain"
  else if contract = bytes "_CmdConfigure" ∨ contract = bytes "_CmdEdit" then bytes "configure"
  else bytes "admin"

/-- `ClassOf` is that of commands: none of the names it looks at first starts with `_Cmd`, so the stem decides. -/
def isCmd (contract : Text) : Bool := (bytes "_Cmd").isPrefixOf contract

/-- `ReadAuthorizedAct`: the place of an alarm somebody asks to be told about. -/
def readAuthorizedAct (contract path : Text) : Option Text :=
  if contract ≠ bytes "_CmdOperate" then none
  else
    match (levels path).reverse with
    | action :: before =>
      let place := join slash before.reverse
      if before = [] ∨ (action ≠ bytes "subscribe" ∧ action ≠ bytes "unsubscribe") ∨ place = [] then none
      else some place
    | [] => none

/-- `Authorize`. -/
def authorize (root : Text) (sc : Option Scope) (e : Entry) (a : Action) (topic : Text) : Bool :=
  match a with
  | .readRecord =>
    match TopicText.parse topic with
    | .error _ => false
    | .ok p => localServiceRead root e topic || (readZones sc e).any (coverPath · p.path)
  | .sub =>
    if isReservedFilter topic then false
    else if localServiceRead root e topic then true
    else
      match fixedPathPrefix root topic with
      | none => true
      | some fixed => (readZones sc e).any fun z ↦ z = hashLevel || (fixed ≠ [] && coverPath z fixed)
  | .cmd =>
    match TopicText.parse topic with
    | .error _ => false
    | .ok p =>
      if !isCmd p.contract then false
      else
        match readAuthorizedAct p.contract p.path with
        | some place => (readZones sc e).any (coverPath · place)
        | none =>
          if p.contract = bytes "_CmdEdit" then
            e.holdsCmdClass (cmdClass p.contract) || e.holdsCmdClass (bytes "annotate") ||
              e.holdsCmdClass (bytes "operate") || e.holdsCmdClass (bytes "param")
          else authorizeCmdAt sc e (cmdClass p.contract) p.path
  | .pub =>
    match TopicText.parse topic with
    | .error _ => false
    | .ok p => (writeZones sc e).any (coverPath · p.path)

/-! ### What a filter fixes -/

/-- The fixed levels of a filter are the first levels of the path of everything it matches. -/
theorem fixedLevels_prefix {fl tl : List Text} (h : LevelsMatch fl tl) (i : ℕ) :
    fixedLevels i fl <+: tl.drop (4 - i) := by
  induction h generalizing i with
  | nil => exact nil_prefix
  | hash ts => exact nil_prefix
  | @level l ls ts _ ih =>
    rw [fixedLevels]
    split
    · exact nil_prefix
    split
    · rename_i hi
      have hdrop : (l :: ts).drop (4 - i) = ts.drop (4 - (i + 1)) := by
        rw [show 4 - i = 4 - (i + 1) + 1 by omega, drop_succ_cons]
      rw [hdrop]
      exact ih (i + 1)
    split
    · exact nil_prefix
    · rename_i hi _
      have hrest := ih (i + 1)
      rw [show 4 - (i + 1) = 0 by omega, drop_zero] at hrest
      rw [show 4 - i = 0 by omega, drop_zero]
      exact cons_prefix_cons.mpr ⟨rfl, hrest⟩
  | @plus t ls ts _ ih =>
    rw [fixedLevels]
    split
    · exact nil_prefix
    split
    · rename_i hi
      have hdrop : (t :: ts).drop (4 - i) = ts.drop (4 - (i + 1)) := by
        rw [show 4 - i = 4 - (i + 1) + 1 by omega, drop_succ_cons]
      rw [hdrop]
      exact ih (i + 1)
    · rw [if_pos rfl]
      exact nil_prefix

/-- A zone that covers the first levels of a path covers the path. -/
theorem coverPath_of_prefix {zone : Text} {fixed path : List Text} (hpre : fixed <+: path) (hne : fixed ≠ [])
    (h : coverPath zone (join slash fixed) = true) : coverPath zone (join slash path) = true := by
  obtain ⟨more, rfl⟩ := hpre
  rcases eq_or_ne more [] with rfl | hmore
  · rwa [append_nil]
  simp only [coverPath, Bool.or_eq_true, decide_eq_true_eq, isPrefixOf_iff_prefix] at h ⊢
  rw [join_append hne hmore]
  rcases h with (rfl | rfl) | hbelow
  · exact .inl (.inl rfl)
  · exact .inr ⟨join slash more, by simp⟩
  · exact .inr (hbelow.trans (prefix_append _ _))

variable {root f t : Text} {p : TopicText.Parsed}

/-- The levels of a topic that parses. -/
theorem levels_of_parse (h : TopicText.parse t = .ok p) :
    levels t = p.root :: p.version :: p.contract :: p.nodeID :: levels p.path := by
  obtain ⟨rfl, hv⟩ := parse_eq_ok_iff.mp h
  exact TopicText.Parsed.splitOn_topic hv

/-- What a filter for the services' details matches are such details. -/
theorem localServiceRead_of_match {e : Entry} (h : localServiceRead root e f = true) (ht : TopicText.parse t = .ok p)
    (hroot : p.root = root) (hm : LevelsMatch (levels f) (levels t)) : localServiceRead root e t = true := by
  have hpath := levels_of_parse ht
  obtain ⟨seg, rest, hseg⟩ := exists_cons_of_ne_nil (levels_ne_nil p.path)
  simp only [localServiceRead, Bool.and_eq_true, decide_eq_true_eq] at h ⊢
  refine ⟨h.1, ?_⟩
  have hf := h.2
  split at hf
  · rename_i r v c n more hlevels
    simp only [Bool.and_eq_true, decide_eq_true_eq] at hf
    obtain ⟨⟨-, hv⟩, hc⟩ := hf
    rw [hlevels, hpath] at hm
    rw [hpath]
    -- the version and the contract of the filter are no wildcards
    have hm' : LevelsMatch (v :: c :: n :: more) (p.version :: p.contract :: p.nodeID :: levels p.path) := by
      cases hm with
      | level _ hm => exact hm
      | plus _ hm => exact hm
    obtain ⟨hversion, hm''⟩ := (levelsMatch_cons_iff (by rw [hv]; decide)).mp hm'
    obtain ⟨hcontract, -⟩ := (levelsMatch_cons_iff (by rw [hc]; decide)).mp hm''
    have hv' : p.version = bytes "v1" := by
      rw [← hversion.resolve_left (by rw [hv]; decide), hv]
    have hc' : p.contract = bytes "_ServiceDetails" := by
      rw [← hcontract.resolve_left (by rw [hc]; decide), hc]
    simp [hroot, hv', hc']
  · cases hf

/-- A filter that matches a topic under the root has a fixed path. -/
theorem fixedPathPrefix_of_match (ht : TopicText.parse t = .ok p) (hroot : p.root = root)
    (hm : LevelsMatch (levels f) (levels t)) :
    fixedPathPrefix root f = some (join slash (fixedLevels 0 (levels f))) := by
  rw [levels_of_parse ht] at hm
  unfold fixedPathPrefix
  split
  · rename_i hnil
    exact absurd hnil (levels_ne_nil f)
  · rename_i s rest hlevels
    rw [hlevels] at hm ⊢
    rw [if_neg]
    rintro ⟨hne, hplus, hhash⟩
    have hfirst := ((levelsMatch_cons_iff hhash).mp hm).1
    rcases hfirst with heq | heq
    · exact hplus heq
    · exact hne (heq.trans hroot)

/-- **What matches an allowed filter may be read.** -/
theorem authorize_read_of_sub {sc : Option Scope} {e : Entry} (ht : TopicText.parse t = .ok p) (hroot : p.root = root)
    (hm : LevelsMatch (levels f) (levels t)) (hsub : authorize root sc e .sub f = true) :
    authorize root sc e .readRecord t = true := by
  have hread : authorize root sc e .readRecord t =
      (localServiceRead root e t || (readZones sc e).any (coverPath · p.path)) := by
    rw [authorize, ht]
  rw [hread, Bool.or_eq_true]
  rw [authorize] at hsub
  split at hsub
  · cases hsub
  split at hsub
  · rename_i hservices
    exact .inl (localServiceRead_of_match hservices ht hroot hm)
  · refine .inr ?_
    rw [fixedPathPrefix_of_match ht hroot hm] at hsub
    obtain ⟨z, hz, hcover⟩ := any_eq_true.mp hsub
    refine any_eq_true.mpr ⟨z, hz, ?_⟩
    have hpath : join slash (levels p.path) = p.path := intercalate_splitOn slash
    have hfixed := fixedLevels_prefix hm 0
    rw [levels_of_parse ht] at hfixed
    simp only [Bool.or_eq_true, Bool.and_eq_true, decide_eq_true_eq] at hcover
    rcases hcover with rfl | ⟨hne, hcover⟩
    · rfl
    · rw [← hpath]
      refine coverPath_of_prefix hfixed ?_ hcover
      intro hnil
      rw [hnil] at hne
      exact hne rfl

/-- **Subscriptions under the topic root are sound**, and a filter matches what the MQTT rule says. -/
theorem subscription_sound (root : Text) (sc : Option Scope) (e : Entry) {f : Text} (hf : validFilter f = true) :
    (∀ t, matchFilter f t = true ↔ LevelsMatch (levels f) (levels t)) ∧
      ∀ t p, TopicText.parse t = .ok p → p.root = root → authorize root sc e .sub f = true → matchFilter f t = true →
        authorize root sc e .readRecord t = true := by
  refine ⟨fun t ↦ matchFilter_iff hf t, fun t p ht hroot hsub hm ↦ ?_⟩
  exact authorize_read_of_sub ht hroot ((matchFilter_iff hf t).mp hm) hsub

/-- A machine placed at a line. -/
def lineMachine : Entry := ⟨.external, bytes "e1", [], false⟩

/-- The line stands at `werk1/line1`. -/
def lineScope : Scope := ⟨fun id ↦ if id = bytes "e1" then some (bytes "werk1/line1") else none, fun _ ↦ false⟩

theorem line_subscription_sound :
    validFilter (bytes "colca/v1/_Metric/+/werk1/line1/#") = true ∧
      authorize (bytes "colca") (some lineScope) lineMachine .sub (bytes "colca/v1/_Metric/+/werk1/line1/#") =
        true ∧
      authorize (bytes "colca") (some lineScope) lineMachine .readRecord
        (bytes "colca/v1/_Metric/n7/werk1/line1/m1/speed") = true := by
  have hvalid : validFilter (bytes "colca/v1/_Metric/+/werk1/line1/#") = true := by decide +kernel
  have hsub : authorize (bytes "colca") (some lineScope) lineMachine .sub
      (bytes "colca/v1/_Metric/+/werk1/line1/#") = true := by decide +kernel
  have hsound := subscription_sound (bytes "colca") (some lineScope) lineMachine hvalid
  refine ⟨hvalid, hsub, hsound.2 _ ⟨bytes "colca", bytes "v1", bytes "_Metric", bytes "n7",
    bytes "werk1/line1/m1/speed"⟩ (by decide +kernel) rfl hsub ((hsound.1 _).mpr ?_)⟩
  exact .level _ (.level _ (.level _ (.plus _ (.level _ (.level _ (.hash _))))))

/-- Under another root everybody may subscribe, and nobody without a zone may read. -/
theorem foreignRoot_unreadable : ¬ ∀ (sc : Option Scope) (e : Entry) (f t : Text), validFilter f = true →
    (∃ p, TopicText.parse t = .ok p) → authorize (bytes "colca") sc e .sub f = true → matchFilter f t = true →
      authorize (bytes "colca") sc e .readRecord t = true := by
  intro h
  have hvalid : validFilter (bytes "plant/#") = true := by decide +kernel
  have hmatch : matchFilter (bytes "plant/#") (bytes "plant/v1/_Metric/n7/m1") = true :=
    (matchFilter_iff hvalid _).mpr (.level (bytes "plant") (.hash _))
  have hread := h (some lineScope) lineMachine (bytes "plant/#") (bytes "plant/v1/_Metric/n7/m1") hvalid
    ⟨⟨bytes "plant", bytes "v1", bytes "_Metric", bytes "n7", bytes "m1"⟩, by decide +kernel⟩
    (by decide +kernel) hmatch
  exact absurd hread (by decide +kernel)

end Colca.Uns.Authz
