import Colca.Lib.Segments
import Colca.Uns.Topic

/-!
# Topics as texts, and mounts over many hops

`Topic` has topics as lists of segments. The source has them as strings and cuts them wherever it looks at
them: `Parse` splits at every slash and joins the path again, `MountInsert` and `MountStrip` cut off the
first four levels, and `UnderMount` compares the beginning of the path with the mount and a slash. Here the
four are written as the source writes them, over bytes, so that a mount may have several levels and one may
be a textual prefix of another.

A chain of nodes is the list of their mounts, the top one first. A command goes down the chain by stripping
each mount in turn (`stripDown`), a record goes up by inserting them in the opposite order (`insertUp`).
`mounts_coherent` says that the two fit each other and the filter of the downlink.

`mountStrip_encode` and its siblings say that on segments without slashes the texts do what `Topic` says.
-/

namespace Colca.Uns.TopicText

open Segments List

/-- A Go string. -/
abbrev Text := List UInt8

/-- The bytes of a string. -/
def bytes (s : String) : Text := s.toByteArray.data.toList

def slash : UInt8 := 47
def underscore : UInt8 := 95

/-- A decomposed topic; the path is one text. -/
structure Parsed where
  root : Text
  version : Text
  contract : Text
  nodeID : Text
  path : Text
  deriving DecidableEq

inductive ParseError
  | tooLong (bytes : ℕ)
  | segments (got : ℕ)
  | notContract (seg : Text)
  deriving DecidableEq

instance decidableEqExcept {ε α : Type} [DecidableEq ε] [DecidableEq α] : DecidableEq (Except ε α)
  | .ok a, .ok b => decidable_of_iff (a = b) ⟨congrArg _, Except.ok.inj⟩
  | .error a, .error b => decidable_of_iff (a = b) ⟨congrArg _, Except.error.inj⟩
  | .ok _, .error _ | .error _, .ok _ => isFalse nofun

/-- `Parse`. -/
def parse (topic : Text) : Except ParseError Parsed :=
  if maxTopicBytes < topic.length then .error (.tooLong topic.length)
  else
    match List.splitOn slash topic with
    | root :: version :: contract :: nodeID :: seg :: rest =>
      if [underscore].isPrefixOf contract then
        .ok ⟨root, version, contract, nodeID, join slash (seg :: rest)⟩
      else .error (.notContract contract)
    | segs => .error (.segments segs.length)

/-- `MountInsert`. -/
def mountInsert (topic mount : Text) : Text :=
  match splitN slash 5 topic with
  | [a, b, c, d, path] => join slash [a, b, c, d, mount ++ slash :: path]
  | _ => topic

/-- `UnderMount`. -/
def underMount (path mount : Text) : Bool := mount != [] && (mount ++ [slash]).isPrefixOf path

/-- `MountStrip`: the topic in the child's coordinates, or the topic as it is and `false`. -/
def mountStrip (topic mount : Text) : Text × Bool :=
  match splitN slash 5 topic with
  | [a, b, c, d, path] =>
    match cutPrefix path (mount ++ [slash]) with
    | some rest => (join slash [a, b, c, d, rest], true)
    | none => (topic, false)
  | _ => (topic, false)

/-! ### What a topic looks like -/

namespace Parsed

/-- The topic that is decomposed like this. -/
def topic (p : Parsed) : Text := join slash [p.root, p.version, p.contract, p.nodeID, p.path]

/-- The first four levels have no slashes, the third is a contract, and the topic fits a packet. -/
structure Valid (p : Parsed) : Prop where
  root : slash ∉ p.root
  version : slash ∉ p.version
  contract : slash ∉ p.contract
  nodeID : slash ∉ p.nodeID
  isContract : [underscore] <+: p.contract
  length : p.topic.length ≤ maxTopicBytes

variable {p : Parsed}

theorem topic_eq (p : Parsed) : p.topic =
    p.root ++ slash :: (p.version ++ slash :: (p.contract ++ slash :: (p.nodeID ++ slash :: p.path))) := by
  simp [topic, join_cons]

theorem splitN_topic (h : p.Valid) (rest : Text) :
    splitN slash 5 ({ p with path := rest } : Parsed).topic =
      [p.root, p.version, p.contract, p.nodeID, rest] := by
  rw [topic_eq, splitN_append h.root, splitN_append h.version, splitN_append h.contract,
    splitN_append h.nodeID]
  rfl

theorem splitOn_topic (h : p.Valid) : List.splitOn slash p.topic =
    p.root :: p.version :: p.contract :: p.nodeID :: List.splitOn slash p.path := by
  rw [topic_eq, splitOn_append h.root, splitOn_append h.version, splitOn_append h.contract,
    splitOn_append h.nodeID]

/-- A path that is not longer leaves the topic valid. -/
theorem Valid.withPath (h : p.Valid) {rest : Text} (hle : rest.length ≤ p.path.length) :
    ({ p with path := rest } : Parsed).Valid :=
  { h with
    length := by
      have hlen := h.length
      rw [topic_eq] at hlen ⊢
      simp only [length_append, length_cons] at hlen ⊢
      omega }

end Parsed

/-- **What `Parse` accepts.** -/
theorem parse_eq_ok_iff {t : Text} {p : Parsed} : parse t = .ok p ↔ t = p.topic ∧ p.Valid := by
  constructor
  · intro h
    unfold parse at h
    split at h
    · cases h
    · rename_i hlen
      split at h
      · rename_i root version contract nodeID seg rest hsplit
        have hmem : ∀ a ∈ List.splitOn slash t, slash ∉ a := fun a ha ↦ notMem_of_mem_splitOn ha
        have htopic : join slash (List.splitOn slash t) = t := intercalate_splitOn slash
        rw [hsplit] at hmem htopic
        split at h
        · rename_i hcontract
          cases h
          have heq : t = (⟨root, version, contract, nodeID, join slash (seg :: rest)⟩ : Parsed).topic := by
            rw [Parsed.topic_eq, ← htopic]
            simp [join_cons]
          refine ⟨heq, ?_, ?_, ?_, ?_, isPrefixOf_iff_prefix.mp hcontract, ?_⟩
          · exact hmem root (by simp)
          · exact hmem version (by simp)
          · exact hmem contract (by simp)
          · exact hmem nodeID (by simp)
          · rw [← heq]
            exact Nat.le_of_not_lt hlen
        · cases h
      · cases h
  · rintro ⟨rfl, hv⟩
    unfold parse
    rw [if_neg hv.length.not_gt, Parsed.splitOn_topic hv]
    obtain ⟨seg, rest, hseg⟩ := exists_cons_of_ne_nil (splitOnP_ne_nil (· == slash) p.path)
    have hpath : join slash (List.splitOn slash p.path) = p.path := intercalate_splitOn slash
    rw [show List.splitOn slash p.path = seg :: rest from hseg] at hpath ⊢
    simp only [List.isPrefixOf_iff_prefix.mpr hv.isContract, if_true, hpath]

variable {p : Parsed} {m rest : Text}

theorem mountInsert_topic (h : p.Valid) (path m : Text) :
    mountInsert ({ p with path } : Parsed).topic m =
      ({ p with path := m ++ slash :: path } : Parsed).topic := by
  rw [mountInsert, Parsed.splitN_topic h]
  rfl

theorem mountStrip_topic (h : p.Valid) (path m : Text) :
    mountStrip ({ p with path } : Parsed).topic m =
      match cutPrefix path (m ++ [slash]) with
      | some rest => (({ p with path := rest } : Parsed).topic, true)
      | none => (({ p with path } : Parsed).topic, false) := by
  rw [mountStrip, Parsed.splitN_topic h]
  rfl

/-- A path below the mount is the mount, a slash and the rest. -/
theorem underMount_iff (hm : m ≠ []) {path : Text} :
    underMount path m ↔ ∃ rest, path = m ++ slash :: rest := by
  simp only [underMount, Bool.and_eq_true, bne_iff_ne, ne_eq, hm, not_false_eq_true, true_and,
    isPrefixOf_iff_prefix]
  constructor
  · rintro ⟨rest, hr⟩
    exact ⟨rest, by simp [← hr]⟩
  · rintro ⟨rest, rfl⟩
    exact ⟨rest, by simp⟩

/-- A path below the mount is stripped to the rest. -/
theorem mountStrip_under (h : p.Valid) (m rest : Text) :
    mountStrip ({ p with path := m ++ slash :: rest } : Parsed).topic m =
      (({ p with path := rest } : Parsed).topic, true) := by
  have hcut : cutPrefix (m ++ slash :: rest) (m ++ [slash]) = some rest :=
    cutPrefix_eq_some_iff.mpr (by simp)
  rw [mountStrip_topic h, hcut]

/-- **A topic that is not below the mount is not rewritten.** -/
theorem mountStrip_of_not_under (h : p.Valid) (hm : m ≠ []) (hu : underMount p.path m = false) :
    mountStrip p.topic m = (p.topic, false) := by
  have hcut : cutPrefix p.path (m ++ [slash]) = none := by
    refine Option.eq_none_iff_forall_ne_some.mpr fun rest hrest ↦ ?_
    have hpath := cutPrefix_eq_some_iff.mp hrest
    rw [(underMount_iff hm).mpr ⟨rest, by simpa using hpath⟩] at hu
    cases hu
  have hstrip := mountStrip_topic h p.path m
  rw [hcut] at hstrip
  exact hstrip

/-- The filter of the downlink and the strip agree. -/
theorem underMount_eq_strip (h : p.Valid) (hm : m ≠ []) :
    underMount p.path m = (mountStrip p.topic m).2 := by
  cases hu : underMount p.path m with
  | false => rw [mountStrip_of_not_under h hm hu]
  | true =>
    obtain ⟨rest, hpath⟩ := (underMount_iff hm).mp hu
    have hstrip := mountStrip_under h m rest
    rw [← hpath] at hstrip
    exact (congrArg Prod.snd hstrip).symm

/-! ### Chains of mounts -/

/-- A topic goes down through the mounts, the top one first. -/
def stripDown : List Text → Text → Option Text
  | [], t => some t
  | m :: ms, t =>
    match mountStrip t m with
    | (t', true) => stripDown ms t'
    | (_, false) => none

/-- A topic goes up through the mounts, the lowest one first. -/
def insertUp (ms : List Text) (t : Text) : Text := ms.foldl mountInsert t

theorem stripDown_append (above below : List Text) (t : Text) :
    stripDown (above ++ below) t = (stripDown above t).bind (stripDown below) := by
  induction above generalizing t with
  | nil => rfl
  | cons m ms ih =>
    rw [cons_append, stripDown, stripDown]
    split
    · exact ih _
    · rfl

/-- What a strip leaves is a topic with a shorter path, and the other levels as they were. -/
theorem stripDown_valid {ms : List Text} {t' : Text} (h : p.Valid) (hs : stripDown ms p.topic = some t') :
    ∃ path, t' = ({ p with path } : Parsed).topic ∧ ({ p with path } : Parsed).Valid := by
  induction ms generalizing p with
  | nil =>
    cases hs
    exact ⟨p.path, rfl, h⟩
  | cons m ms ih =>
    have hstrip := mountStrip_topic h p.path m
    rw [stripDown, hstrip] at hs
    cases hcut : cutPrefix p.path (m ++ [slash]) with
    | none =>
      rw [hcut] at hs
      cases hs
    | some rest =>
      rw [hcut] at hs
      have hpath := cutPrefix_eq_some_iff.mp hcut
      have hle : rest.length ≤ p.path.length := by
        have hlen := congrArg List.length hpath
        simp only [length_append, length_cons] at hlen
        omega
      exact ih (p := { p with path := rest }) (h.withPath hle) hs

/-- The path of a record at the top of a chain. -/
def chainPath (ms : List Text) (path : Text) : Text := join slash (ms ++ [path])

theorem chainPath_cons (m : Text) (ms : List Text) (path : Text) :
    chainPath (m :: ms) path = m ++ slash :: chainPath ms path := by
  rw [chainPath, cons_append, join_cons (by simp)]
  rfl

/-- **Down the chain** the whole prefix comes off. -/
theorem stripDown_chainPath (h : p.Valid) (ms : List Text) (rest : Text) :
    stripDown ms ({ p with path := chainPath ms rest } : Parsed).topic =
      some ({ p with path := rest } : Parsed).topic := by
  induction ms with
  | nil =>
    rw [chainPath, nil_append, join_singleton]
    rfl
  | cons m ms ih =>
    rw [chainPath_cons, stripDown, mountStrip_under h]
    exact ih

/-- **Up the chain** the whole prefix is put on. -/
theorem insertUp_topic (h : p.Valid) (ms : List Text) :
    insertUp ms.reverse p.topic = ({ p with path := chainPath ms p.path } : Parsed).topic := by
  induction ms with
  | nil =>
    rw [chainPath, nil_append, join_singleton]
    rfl
  | cons m ms ih =>
    rw [insertUp, reverse_cons, foldl_append]
    show mountInsert (insertUp ms.reverse p.topic) m = _
    rw [ih, mountInsert_topic h, chainPath_cons]

/-- A topic with a valid head parses when it fits a packet. -/
theorem parse_topic (h : p.Valid) (path : Text) : parse ({ p with path } : Parsed).topic =
    if maxTopicBytes < ({ p with path } : Parsed).topic.length then
      .error (.tooLong ({ p with path } : Parsed).topic.length)
    else .ok { p with path } := by
  split
  · rename_i hlong
    rw [parse, if_pos hlong]
  · rename_i hfits
    exact parse_eq_ok_iff.mpr ⟨rfl, h.root, h.version, h.contract, h.nodeID, h.isContract,
      Nat.le_of_not_lt hfits⟩

/-- **Mount translation over a chain** of mounts, the top one first, for a topic that parses to `p`. -/
structure Coherent (ms : List Text) (t : Text) (p : Parsed) : Prop where
  /-- At each node the filter passes the topic exactly when the strip rewrites it; what arrived there has
  the levels above the path as they were. -/
  filter : ∀ above m below, ms = above ++ m :: below → ∀ t', stripDown above t = some t' →
    ∃ path, parse t' = .ok { p with path } ∧ (underMount path m ↔ (mountStrip t' m).2 = true)
  /-- A topic below all the mounts passes the filter of each node … -/
  passes : underMount p.path (join slash ms) → ∀ above m below, ms = above ++ m :: below →
    ∃ t' path, stripDown above t = some t' ∧ parse t' = .ok { p with path } ∧ underMount path m
  /-- … and arrives with the rest of its path. -/
  arrives : underMount p.path (join slash ms) → ∃ rest, p.path = join slash ms ++ slash :: rest ∧
    ∃ t', stripDown ms t = some t' ∧ parse t' = .ok { p with path := rest }
  /-- At each ancestor a record of the lowest node stands below the mounts in between, unless it does not
  fit a packet any more, and strips back to what it was. -/
  stands : ∀ above below, ms = above ++ below →
    stripDown below (insertUp below.reverse t) = some t ∧
    parse (insertUp below.reverse t) =
      if maxTopicBytes < (insertUp below.reverse t).length then
        .error (.tooLong (insertUp below.reverse t).length)
      else .ok { p with path := chainPath below p.path }
  /-- What is not below a mount is not rewritten by it. -/
  keeps : ∀ m ∈ ms, underMount p.path m = false → mountStrip t m = (t, false)

/-- A chain of mounts that is not empty has a text. -/
theorem join_ne_nil {ms : List Text} (hne : ms ≠ []) (h : ∀ m ∈ ms, m ≠ []) : join slash ms ≠ [] := by
  obtain ⟨m, rest, rfl⟩ := exists_cons_of_ne_nil hne
  have hm := h m mem_cons_self
  rcases eq_or_ne rest [] with rfl | hrest
  · rwa [join_singleton]
  · rw [join_cons hrest]
    simp

theorem mounts_coherent {ms : List Text} (hms : ∀ m ∈ ms, m ≠ []) {t : Text} (ht : parse t = .ok p) :
    Coherent ms t p := by
  obtain ⟨rfl, hv⟩ := parse_eq_ok_iff.mp ht
  have hunder : underMount p.path (join slash ms) → ∃ rest, p.path = join slash ms ++ slash :: rest ∧
      p.path = chainPath ms rest := by
    intro hu
    rcases eq_or_ne ms [] with rfl | hne
    · simp [underMount, join] at hu
    · obtain ⟨rest, hrest⟩ := (underMount_iff (join_ne_nil hne hms)).mp hu
      refine ⟨rest, hrest, hrest.trans ?_⟩
      rw [chainPath, join_append hne (cons_ne_nil _ _), join_singleton]
  have hfilter : ∀ above m below, ms = above ++ m :: below → ∀ t', stripDown above p.topic = some t' →
      ∃ path, parse t' = .ok { p with path } ∧ (underMount path m ↔ (mountStrip t' m).2 = true) := by
    rintro above m below rfl t' hs
    obtain ⟨path, rfl, hv'⟩ := stripDown_valid hv hs
    have hm : m ≠ [] := hms m (by simp)
    exact ⟨path, parse_eq_ok_iff.mpr ⟨rfl, hv'⟩, by rw [← underMount_eq_strip hv' hm]⟩
  have hdown : ∀ rest, p.path = chainPath ms rest →
      stripDown ms p.topic = some ({ p with path := rest } : Parsed).topic := by
    intro rest hpath
    have hdown := stripDown_chainPath hv ms rest
    rw [← hpath] at hdown
    exact hdown
  exact {
    filter := hfilter
    passes := fun hu above m below heq ↦ by
      obtain ⟨rest, -, hpath⟩ := hunder hu
      have hall := hdown rest hpath
      rw [heq, stripDown_append] at hall
      obtain ⟨t', habove, hbelow⟩ := Option.bind_eq_some_iff.mp hall
      obtain ⟨path, hparse, hiff⟩ := hfilter above m below heq t' habove
      refine ⟨t', path, habove, hparse, hiff.mpr ?_⟩
      rw [stripDown] at hbelow
      split at hbelow
      · rename_i hstrip
        exact congrArg Prod.snd hstrip
      · cases hbelow
    arrives := fun hu ↦ by
      obtain ⟨rest, hrest, hpath⟩ := hunder hu
      refine ⟨rest, hrest, _, hdown rest hpath, parse_eq_ok_iff.mpr ⟨rfl, hv.withPath ?_⟩⟩
      have hlen := congrArg List.length hrest
      simp only [length_append, length_cons] at hlen
      omega
    stands := fun above below _ ↦ by
      rw [insertUp_topic hv]
      exact ⟨stripDown_chainPath hv below p.path, parse_topic hv _⟩
    keeps := fun m hm hu ↦ mountStrip_of_not_under hv (hms m hm) hu }

/-- A record of a machine, seen from the plant two hops above it. -/
theorem machine_coherent : let mounts := [bytes "werk1/halle2", bytes "line1"]
    let topic := bytes "colca/v1/_CmdParam/n7/werk1/halle2/line1/m1/speed"
    stripDown mounts topic = some (bytes "colca/v1/_CmdParam/n7/m1/speed") ∧
      underMount (bytes "werk1/halle2/line1/m1/speed") (bytes "werk1/hall") = false ∧
      Coherent mounts topic
        ⟨bytes "colca", bytes "v1", bytes "_CmdParam", bytes "n7", bytes "werk1/halle2/line1/m1/speed"⟩ :=
  ⟨by decide +kernel, by decide +kernel, mounts_coherent (by decide +kernel) (by decide +kernel)⟩

/-! ### Texts of segments -/

theorem bytes_injective : Function.Injective bytes := by
  intro s t h
  have harray : s.toByteArray.data = t.toByteArray.data := Array.toList_inj.mp h
  exact String.toByteArray_inj.mp (ByteArray.ext harray)

/-- The text of a list of segments. -/
def encode (segs : List String) : Text := join slash (segs.map bytes)

/-- The segments have no slashes in them, as those of a split text. -/
def Plain (segs : List String) : Prop := ∀ s ∈ segs, slash ∉ bytes s

variable {t : Topic} {path mount : Path}

theorem Plain.bytes (h : Plain path) : ∀ a ∈ path.map bytes, slash ∉ a := by
  intro a ha
  obtain ⟨s, hs, rfl⟩ := mem_map.mp ha
  exact h s hs

theorem encode_eq_nil (hne : mount ≠ []) : encode mount = [] ↔ mount = [""] := by
  obtain ⟨m, ms, rfl⟩ := exists_cons_of_ne_nil hne
  rcases eq_or_ne ms [] with rfl | hms
  · have hempty : TopicText.bytes m = [] ↔ m = "" :=
      ⟨fun h ↦ bytes_injective (h.trans (by decide)), fun h ↦ by rw [h]; decide⟩
    simp [encode, hempty]
  · rw [encode, map_cons, join_cons (by simpa using hms)]
    simp [hms]

/-- `underMount` on segments is `UnderMount` on their text. -/
theorem underMount_encode (hp : Plain path) (hm : Plain mount) (hne : mount ≠ []) :
    underMount (encode path) (encode mount) = Uns.underMount path mount := by
  have hprefix := prefix_join_iff hm.bytes hp.bytes (by simpa using hne)
  rw [prefix_map_iff_of_injective bytes_injective, length_map, length_map] at hprefix
  rw [Bool.eq_iff_iff]
  simp only [underMount, Uns.underMount, Bool.and_eq_true, bne_iff_ne, ne_eq, encode_eq_nil hne,
    isPrefixOf_iff_prefix, decide_eq_true_eq, and_assoc]
  rw [← hprefix]
  rfl

/-- The first four levels of a text of segments. -/
theorem splitN_encode {a b c d e : String} (h : Plain (a :: b :: c :: d :: e :: path)) :
    splitN slash 5 (encode (a :: b :: c :: d :: e :: path)) =
      [bytes a, bytes b, bytes c, bytes d, encode (e :: path)] := by
  simp only [encode, map_cons]
  rw [join_cons (by simp), splitN_append (h a (by simp)), join_cons (by simp),
    splitN_append (h b (by simp)), join_cons (by simp), splitN_append (h c (by simp)),
    join_cons (by simp), splitN_append (h d (by simp))]
  rfl

/-- Fewer than five segments have no path. -/
theorem splitN_encode_short (h : Plain t) (hne : t ≠ []) (hlt : t.length < 5) :
    splitN slash 5 (encode t) = t.map bytes :=
  splitN_join h.bytes (by simpa using hne) (by rw [length_map]; omega)

/-- The first four levels before a path are a text of segments again. -/
theorem join_encode {a b c d : String} (hne : path ≠ []) :
    join slash [bytes a, bytes b, bytes c, bytes d, encode path] = encode (a :: b :: c :: d :: path) := by
  have hmap : path.map bytes ≠ [] := by simpa using hne
  simp [encode, join_cons, hmap]

theorem exists_of_five_le (h : 5 ≤ t.length) : ∃ a b c d e path, t = a :: b :: c :: d :: e :: path := by
  rcases t with _ | ⟨a, _ | ⟨b, _ | ⟨c, _ | ⟨d, _ | ⟨e, path⟩⟩⟩⟩⟩
  all_goals first | exact ⟨_, _, _, _, _, _, rfl⟩ | simp at h

/-- `mountInsert` on segments is `MountInsert` on their text. -/
theorem mountInsert_encode (ht : Plain t) (hne : t ≠ []) (hmne : mount ≠ []) :
    mountInsert (encode t) (encode mount) = encode (Uns.mountInsert t mount) := by
  rcases lt_or_ge t.length 5 with hlt | hge
  · rw [Uns.mountInsert, if_pos hlt, mountInsert, splitN_encode_short ht hne hlt]
    split
    · rename_i heq
      have hlen := congrArg List.length heq
      simp only [length_map, length_cons, length_nil] at hlen
      omega
    · rfl
  · obtain ⟨a, b, c, d, e, path, rfl⟩ := exists_of_five_le hge
    have hpath : encode mount ++ slash :: encode (e :: path) = encode (mount ++ e :: path) := by
      rw [encode, encode, encode, map_append, join_append (by simpa using hmne) (by simp)]
    rw [mountInsert, splitN_encode ht]
    dsimp only
    rw [hpath, join_encode (by simp), Uns.mountInsert, if_neg hge.not_gt]
    rfl

theorem mountInsert_encode_hall :
    mountInsert (encode ["colca", "v1", "_Raw", "n", "plc"]) (encode ["hall"]) =
      encode ["colca", "v1", "_Raw", "n", "hall", "plc"] :=
  mountInsert_encode (by unfold Plain; decide +kernel) nofun nofun

/-- `mountStrip` on segments is `MountStrip` on their text. -/
theorem mountStrip_encode (ht : Plain t) (hne : t ≠ []) (hm : Plain mount) (hmne : mount ≠ []) :
    mountStrip (encode t) (encode mount) =
      match Uns.mountStrip t mount with
      | some t' => (encode t', true)
      | none => (encode t, false) := by
  rcases lt_or_ge t.length 5 with hlt | hge
  · rw [Uns.mountStrip, if_pos hlt, mountStrip, splitN_encode_short ht hne hlt]
    split
    · rename_i heq
      have hlen := congrArg List.length heq
      simp only [length_map, length_cons, length_nil] at hlen
      omega
    · rfl
  · obtain ⟨a, b, c, d, e, path, rfl⟩ := exists_of_five_le hge
    have hpath : Plain (e :: path) := fun s hs ↦
      ht s (mem_append_right [a, b, c, d] hs)
    have hcut := cutPrefix_join hm.bytes hpath.bytes (by simpa using hmne)
    simp only [prefix_map_iff_of_injective bytes_injective, length_map, ← map_drop] at hcut
    have hstrip : Uns.mountStrip (a :: b :: c :: d :: e :: path) mount =
        if mount <+: e :: path ∧ mount.length < (e :: path).length then
          some (a :: b :: c :: d :: (e :: path).drop mount.length) else none := by
      rw [Uns.mountStrip, if_neg hge.not_gt]
      simp
    rw [mountStrip, splitN_encode ht, hstrip]
    dsimp only
    rw [show cutPrefix (encode (e :: path)) (encode mount ++ [slash]) = _ from hcut]
    by_cases hu : mount <+: e :: path ∧ mount.length < (e :: path).length
    · rw [if_pos hu, if_pos hu]
      have hrest : (e :: path).drop mount.length ≠ [] := by
        rw [ne_eq, drop_eq_nil_iff]
        exact hu.2.not_ge
      exact congrArg (·, true) (join_encode hrest)
    · rw [if_neg hu, if_neg hu]

theorem mountStrip_encode_hall :
    mountStrip (encode ["colca", "v1", "_Raw", "n", "hall", "plc"]) (encode ["hall"]) =
      (encode ["colca", "v1", "_Raw", "n", "plc"], true) :=
  mountStrip_encode (by unfold Plain; decide +kernel) nofun (by unfold Plain; decide +kernel) nofun

end Colca.Uns.TopicText
