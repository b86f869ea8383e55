import Colca.Lib.InOrder
import Colca.Engine.BusState

/-!
# When the bus and the producer index agree with the store

With nothing in progress, the retained messages should be the current state and the producer index
what a rebuild gives. Both are mirrors of the current state that are brought up to date after the
commit, and nothing orders these updates: an ingest that committed first may publish last, and its
older payload then stands on the bus until the topic is next written.

* `agrees_of_reach`: in every run in which the updates of a topic happen in the order of its commits,
  and no record of a mirrored topic is committed without a key-value projection, bus and index agree
  with the store whenever nothing is in progress.
* `overtaken_publish`: without the order they do not. Two publishes of one topic are enough.

The proof is the two rules of `Follows`, applied to the bus and to the index.
-/

namespace Colca.Bus

open Uns List Function Option CatalogueIndex Config Committed State

/-! ### What is asked -/

/-- No ingest is in progress and nothing waits for the bus. -/
def State.Quiet (s : State) : Prop := (∀ acts ∈ s.ingests, acts = []) ∧ s.queue = []

/-- Bus and index show what the store holds. -/
structure State.Agrees (cfg : Config) (s : State) : Prop where
  /-- The retained message of a topic is the payload of its entry, none when there is none. -/
  retained : ∀ t, cfg.retainTopic t → s.retained t = s.kv.lookup t
  /-- The index answers what a rebuild from the current state answers. -/
  holders : ∀ tag, s.holders cfg tag = rebuild cfg s.kv tag

/-! ### Pending updates -/

/-- The messages a step still has to put on the bus. -/
def Act.deliveries : Act → List BusMsg
  | .observe _ => []
  | .deliver m => [m]
  | .handOver ms => ms

/-- The records a step still has to fold into the index. -/
def Act.observations : Act → List Committed
  | .observe c => [c]
  | .deliver _ => []
  | .handOver _ => []

/-- What the ingests in progress still have to do, of one kind. -/
def pending {α : Type} (f : Act → List α) (ingests : List (List Act)) : List α :=
  ingests.flatten.flatMap f

/-- Every message on its way to the bus. -/
def State.deliveries (s : State) : List BusMsg := pending Act.deliveries s.ingests ++ s.queue

/-- Every record on its way to the index. -/
def State.observations (s : State) : List Committed := pending Act.observations s.ingests

/-! ### The condition -/

/-- The step updates the bus or the index before any record of the same topic committed earlier is
left waiting for the same update. -/
def Act.InTurn (cfg : Config) (s : State) : Act → Prop
  | .observe c =>
    cfg.isCatalogue c.topic → ∀ c' ∈ s.observations, c'.topic = c.topic → c.seq ≤ c'.seq
  | .deliver m =>
    cfg.retainTopic m.topic → ∀ m' ∈ s.deliveries, m'.topic = m.topic → m.seq ≤ m'.seq
  | .handOver _ => True

/-- A record at a topic the bus or the index shows has a key-value projection: its class is a state
class and its path is not empty. -/
def Config.Projected (cfg : Config) (t : Topic) : Prop :=
  cfg.retainTopic t ∨ cfg.isCatalogue t → (cfg.topicClass t).isState ∧ hasPath t

/-- Updates happen in turn, and what is shown is projected. -/
def Orderly (cfg : Config) (s : State) : Event → Prop
  | .ingest recs => ∀ r ∈ recs, cfg.Projected r.1
  | .replicated recs => ∀ r ∈ recs, cfg.Projected r.1
  | .move _ moves => ∀ r ∈ moveRecords s.kv moves, cfg.retainTopic r.1 ∨ cfg.isCatalogue r.1 → hasPath r.1
  | .run i => ∀ a ∈ s.nextAct i, a.InTurn cfg s
  | .deliverQueued => ∀ m ∈ s.queue.head?, (Act.deliver m).InTurn cfg s
  | _ => True

instance (cfg : Config) (s : State) (a : Act) : Decidable (a.InTurn cfg s) := by
  cases a <;> unfold Act.InTurn <;> infer_instance

instance (cfg : Config) (t : Topic) : Decidable (cfg.Projected t) := by
  unfold Config.Projected
  infer_instance

instance (cfg : Config) (s : State) (e : Event) : Decidable (Orderly cfg s e) := by
  cases e <;> unfold Orderly <;> infer_instance

/-! ### Pending updates under the steps of an ingest -/

section Pending

variable {α : Type} (f : Act → List α)

theorem pending_append (l l' : List (List Act)) : pending f (l ++ l') = pending f l ++ pending f l' := by
  simp [pending]

theorem pending_singleton (acts : List Act) : pending f [acts] = acts.flatMap f := by
  simp [pending]

theorem pending_of_forall_nil {l : List (List Act)} (h : ∀ acts ∈ l, acts = []) : pending f l = [] := by
  have hflat : l.flatten = [] := flatten_eq_nil_iff.mpr h
  rw [pending, hflat, flatMap_nil]

variable {i : ℕ}

/-- A step of an ingest takes what it did off the pending updates. -/
theorem pending_replaceAct {s : State} {a : Act} (h : s.nextAct i = some a) :
    ∃ others, (pending f s.ingests).Perm (f a ++ others) ∧
      ∀ acts, (pending f (s.replaceAct i acts).ingests).Perm (acts.flatMap f ++ others) := by
  obtain ⟨l, hl, hhead⟩ := bind_eq_some_iff.mp h
  obtain ⟨rest, rfl⟩ : ∃ rest, l = a :: rest := by
    cases l with
    | nil => cases hhead
    | cons b rest =>
      cases hhead
      exact ⟨rest, rfl⟩
  obtain ⟨hi, hget⟩ := List.getElem?_eq_some_iff.mp hl
  have hset : ∀ acts, (s.replaceAct i acts).ingests =
      s.ingests.take i ++ [acts ++ rest] ++ s.ingests.drop (i + 1) := by
    intro acts
    show s.ingests.set i (acts ++ (s.ingests[i]?.getD []).tail) = _
    rw [hl, set_eq_take_append_cons_drop, if_pos hi]
    simp
  have hself : s.ingests = s.ingests.take i ++ [a :: rest] ++ s.ingests.drop (i + 1) := by
    conv_lhs => rw [← take_append_drop i s.ingests, drop_eq_getElem_cons hi, hget]
    simp
  refine ⟨pending f (s.ingests.take i) ++ (rest.flatMap f ++ pending f (s.ingests.drop (i + 1))), ?_,
    fun acts ↦ ?_⟩
  · conv_lhs => rw [hself]
    rw [pending_append, pending_append, pending_singleton, flatMap_cons, ← append_assoc,
      ← append_assoc, ← append_assoc]
    exact (perm_append_comm.append_right _).append_right _
  · rw [hset, pending_append, pending_append, pending_singleton, flatMap_append,
      ← append_assoc, ← append_assoc, ← append_assoc]
    exact (perm_append_comm.append_right _).append_right _

end Pending

@[simp] theorem deliveries_localActs (retain : Topic → Bool) (cs : List Committed) :
    (localActs retain cs).flatMap Act.deliveries = cs.map fun c ↦ ⟨c, retain c.topic⟩ := by
  induction cs with
  | nil => rfl
  | cons c cs ih =>
    simp only [localActs, flatMap_cons, flatMap_append, map_cons] at ih ⊢
    rw [ih]
    rfl

@[simp] theorem observations_localActs (retain : Topic → Bool) (cs : List Committed) :
    (localActs retain cs).flatMap Act.observations = cs := by
  induction cs with
  | nil => rfl
  | cons c cs ih =>
    simp only [localActs, flatMap_cons, flatMap_append] at ih ⊢
    rw [ih]
    rfl

@[simp] theorem deliveries_pushActs (cfg : Config) (cs : List Committed) :
    (pushActs cfg cs).flatMap Act.deliveries = cs.map fun c ↦ ⟨c, cfg.retainTopic c.topic⟩ := by
  have hnone : (cs.map Act.observe).flatMap Act.deliveries = [] := by
    simp [flatMap_map, Act.deliveries]
  rw [pushActs, flatMap_append, hnone]
  simp [Act.deliveries]

@[simp] theorem observations_pushActs (cfg : Config) (cs : List Committed) :
    (pushActs cfg cs).flatMap Act.observations = cs := by
  rw [pushActs, flatMap_append]
  simp [flatMap_map, Act.observations]

@[simp] theorem deliveries_registryActs (cs : List Committed) :
    (registryActs cs).flatMap Act.deliveries = cs.map fun c ↦ ⟨c, true⟩ := by
  rw [registryActs, flatMap_map, map_eq_flatMap]
  rfl

@[simp] theorem observations_registryActs (cs : List Committed) :
    (registryActs cs).flatMap Act.observations = [] := by
  simp [registryActs, flatMap_map, Act.observations]

/-! ### Current state under a commit -/

theorem lookup_put (kv : KV) (t : Topic) (p : Payload) (t' : Topic) :
    (put kv t p).lookup t' = if t' = t then held p else kv.lookup t' := by
  by_cases ht : t' = t
  · subst ht
    by_cases hp : p = [] <;> simp [put, held, hp]
  · by_cases hp : p = [] <;> simp [put, hp, ht, AList.lookup_erase_ne, AList.lookup_insert_ne]

/-- The current state after a list of records. -/
def project (projects : Topic → Bool) (cs : List Committed) (kv : KV) : KV :=
  cs.foldl (fun kv c ↦ if projects c.topic then put kv c.topic c.payload else kv) kv

variable {kv : KV}

theorem lookup_project_of_ne {projects : Topic → Bool} {cs : List Committed} {t : Topic}
    (h : ∀ c ∈ cs, c.topic ≠ t) : (project projects cs kv).lookup t = kv.lookup t := by
  induction cs generalizing kv with
  | nil => rfl
  | cons c cs ih =>
    refine (ih fun c' hc' ↦ h c' (mem_cons_of_mem c hc')).trans ?_
    show (if projects c.topic then put kv c.topic c.payload else kv).lookup t = _
    split
    · rw [lookup_put, if_neg (h c mem_cons_self).symm]
    · rfl

/-- No entry holds an empty payload. -/
def KV.Nonempty (kv : KV) : Prop := ∀ t p, kv.lookup t = some p → p ≠ []

theorem KV.Nonempty.held_eq (h : kv.Nonempty) {t : Topic} {p : Payload}
    (ht : kv.lookup t = some p) : held p = some p := if_neg (h t p ht)

theorem KV.Nonempty.project (h : kv.Nonempty) (projects : Topic → Bool) (cs : List Committed) :
    KV.Nonempty (project projects cs kv) := by
  induction cs generalizing kv with
  | nil => exact h
  | cons c cs ih =>
    refine ih ?_
    show KV.Nonempty (if projects c.topic then put kv c.topic c.payload else kv)
    split
    · intro t p hp
      rw [lookup_put] at hp
      split at hp
      · rintro rfl
        simp [held] at hp
      · exact h t p hp
    · exact h

variable {recs : List (Topic × Payload)}

theorem mem_number {n : ℕ} {c : Committed} (h : c ∈ number n recs) : (c.topic, c.payload) ∈ recs := by
  induction recs generalizing n with
  | nil => exact absurd h not_mem_nil
  | cons r recs ih =>
    rcases mem_cons.mp h with rfl | h
    · exact mem_cons_self
    · exact mem_cons_of_mem r (ih h)

/-- The update of a mirror a record stands for; `val` is what the mirror shows of an entry. -/
def Committed.effect {ν : Type} (val : Option Payload → ν) (c : Committed) : Effect Topic ν :=
  ⟨c.seq, c.topic, val (held c.payload)⟩

/-- **A commit of any number of records, for any mirror.** Each record adds its update. -/
theorem follows_number {ν : Type} {P : Topic → Prop} {val : Option Payload → ν}
    {projects : Topic → Bool} {mirror : Topic → ν} {n : ℕ} {es : List (Effect Topic ν)}
    (h : Follows P n (fun t ↦ val (kv.lookup t)) mirror es) (hproj : ∀ r ∈ recs, P r.1 → projects r.1) :
    Follows P (n + (number n recs).length)
      (fun t ↦ val ((project projects (number n recs) kv).lookup t)) mirror
      (es ++ (number n recs).map (effect val)) := by
  induction recs generalizing n kv es with
  | nil => simpa [number, project] using h
  | cons r recs ih =>
    have hhead : Follows P (n + 1)
        (fun t ↦ val ((if projects r.1 then put kv r.1 r.2 else kv).lookup t)) mirror
        (es ++ [effect val ⟨n, r.1, r.2⟩]) := by
      refine h.commit (fun hP ↦ ?_) fun t _ hne ↦ ?_
      · show val ((if projects r.1 then put kv r.1 r.2 else kv).lookup r.1) = val (held r.2)
        rw [if_pos (hproj r mem_cons_self hP), lookup_put, if_pos rfl]
      · show val ((if projects r.1 then put kv r.1 r.2 else kv).lookup t) = _
        split
        · rw [lookup_put, if_neg hne]
        · rfl
    have htail := ih hhead fun r' hr' ↦ hproj r' (mem_cons_of_mem r hr')
    rw [append_assoc, Nat.add_assoc, Nat.add_comm 1] at htail
    exact htail

/-! ### The index as a mirror -/

/-- The tags a catalogue entry holds. -/
def Config.tagsIn (cfg : Config) (entry : Option Payload) : List String :=
  CatalogueIndex.tagsOf cfg.dataTags (entry.getD [])

@[simp] theorem tagsIn_none (cfg : Config) : cfg.tagsIn none = [] := rfl

@[simp] theorem tagsIn_held (cfg : Config) (p : Payload) : cfg.tagsIn (held p) = tagsOf cfg.dataTags p := by
  unfold held tagsIn
  split
  · rename_i hp
    rw [hp]
    rfl
  · rfl

/-- What the index would answer from: itself once loaded, the current state before. -/
def State.view (cfg : Config) (s : State) (t : Topic) : List String :=
  if s.index.loaded then s.index.tagsAt t else cfg.tagsIn (s.kv.lookup t)

theorem catalogues_nodup (cfg : Config) (kv : KV) : ((catalogues cfg kv).map Prod.fst).Nodup := by
  refine List.Nodup.sublist ((filter_sublist).map Prod.fst) ?_
  rw [List.map_map]
  exact kv.nodupKeys

theorem mem_catalogues {cfg : Config} {t : Topic} {p : Payload} :
    (t, p) ∈ catalogues cfg kv ↔ kv.lookup t = some p ∧ cfg.isCatalogue t := by
  have hlookup : (t, p) ∈ kv.entries.map (fun e ↦ (e.1, e.2)) ↔ kv.lookup t = some p := by
    rw [← mem_def, AList.mem_lookup_iff, List.mem_map]
    constructor
    · rintro ⟨⟨t', p'⟩, hmem, heq⟩
      cases heq
      exact hmem
    · exact fun hmem ↦ ⟨⟨t, p⟩, hmem, rfl⟩
  rw [catalogues, mem_filter, hlookup]

/-- An index filled from the current state knows the tags of this node's catalogues. -/
theorem tagsAt_load {cfg : Config} {x : CatalogueIndex} (hl : x.loaded = false)
    (hx : ∀ t, x.tagsAt t = []) (t : Topic) :
    (x.load cfg.dataTags (catalogues cfg kv)).tagsAt t =
      if cfg.isCatalogue t then cfg.tagsIn (kv.lookup t) else [] := by
  have hload : (x.load cfg.dataTags (catalogues cfg kv)).tagsAt =
      ((catalogues cfg kv).foldl (fun x r ↦ x.apply cfg.dataTags r.1 r.2) x).tagsAt := by
    rw [load, hl]
    rfl
  rw [hload]
  by_cases hmem : ∃ p, (t, p) ∈ catalogues cfg kv
  · obtain ⟨p, hp⟩ := hmem
    obtain ⟨hlookup, hcat⟩ := mem_catalogues.mp hp
    rw [tagsAt_foldl_of_mem (catalogues_nodup cfg kv) hp, if_pos hcat, hlookup]
    rfl
  · have hnot : ∀ r ∈ catalogues cfg kv, r.1 ≠ t := by
      rintro ⟨t', p⟩ hr rfl
      exact hmem ⟨p, hr⟩
    rw [tagsAt_foldl_of_not_mem hnot, hx]
    split
    · rename_i hcat
      have hnone : kv.lookup t = none := by
        cases hp : kv.lookup t with
        | none => rfl
        | some p => exact absurd ⟨p, mem_catalogues.mpr ⟨hp, hcat⟩⟩ hmem
      rw [hnone, tagsIn_none]
    · rfl

/-! ### The invariant -/

/-- Bus and index follow the current state. -/
structure Inv (cfg : Config) (s : State) : Prop where
  nonempty : KV.Nonempty s.kv
  bus : Follows (fun t ↦ cfg.retainTopic t) s.next (fun t ↦ s.kv.lookup t) s.retained
    (s.deliveries.map fun m ↦ m.toCommitted.effect id)
  /-- Every door retains what the bus keeps. -/
  retain : ∀ m ∈ s.deliveries, cfg.retainTopic m.topic → m.retain
  index : Follows (fun t ↦ cfg.isCatalogue t) s.next (fun t ↦ cfg.tagsIn (s.kv.lookup t)) (s.view cfg)
    (s.observations.map (Committed.effect cfg.tagsIn))
  consistent : s.index.Consistent
  /-- The index knows nothing of other topics, and nothing at all before it is loaded. -/
  foreign : ∀ t, cfg.isCatalogue t = false ∨ s.index.loaded = false → s.index.tagsAt t = []

theorem inv_start (cfg : Config) : Inv cfg (system cfg).start where
  nonempty t p hp := by
    rw [show (system cfg).start.kv = ∅ from rfl, AList.lookup_empty] at hp
    cases hp
  bus := Follows.of_eq fun _ _ ↦ rfl
  retain m hm := absurd hm not_mem_nil
  index := Follows.of_eq fun _ _ ↦ rfl
  consistent := consistent_empty
  foreign _ _ := rfl

/-! ### Commits -/

section Commit

variable {cfg : Config} {s : State} {cs : List Committed} {projects : Topic → Bool} {acts : List Act}
  {recs : List (Topic × Payload)}

theorem deliveries_commit : (s.commit cs projects acts).deliveries.Perm
    (s.deliveries ++ acts.flatMap Act.deliveries) := by
  show (pending Act.deliveries (s.ingests ++ [acts]) ++ s.queue).Perm _
  rw [pending_append, pending_singleton, deliveries, append_assoc, append_assoc]
  exact perm_append_comm.append_left _

theorem observations_commit :
    (s.commit cs projects acts).observations = s.observations ++ acts.flatMap Act.observations := by
  show pending Act.observations (s.ingests ++ [acts]) = _
  rw [pending_append, pending_singleton]
  rfl

/-- Before the index is loaded it shows the current state. -/
theorem follows_view {s' : State} {mirror : Topic → List String} {es : List (Effect Topic (List String))}
    (h : Follows (fun t ↦ cfg.isCatalogue t) s'.next (fun t ↦ cfg.tagsIn (s'.kv.lookup t)) mirror es)
    (hm : s'.index.loaded = true → ∀ t, cfg.isCatalogue t → s'.index.tagsAt t = mirror t) :
    Follows (fun t ↦ cfg.isCatalogue t) s'.next (fun t ↦ cfg.tagsIn (s'.kv.lookup t)) (s'.view cfg)
      es := by
  cases hl : s'.index.loaded with
  | true =>
    refine h.congr le_rfl (fun _ _ ↦ rfl) fun t ht ↦ ?_
    rw [view, if_pos hl, hm hl t ht]
  | false =>
    refine h.refresh fun t _ ↦ ?_
    rw [view, hl, if_neg Bool.false_ne_true]

/-- A commit whose records are all on their way to the bus, when the index follows it. -/
theorem Inv.commit_of {s' : State} (h : Inv cfg s) (retain : Topic → Bool)
    (hs' : s' = s.commit (number s.next recs) projects acts)
    (hproj : ∀ r ∈ recs, cfg.retainTopic r.1 → projects r.1)
    (hret : ∀ r ∈ recs, cfg.retainTopic r.1 → retain r.1) (hdel : acts.flatMap Act.deliveries =
      (number s.next recs).map fun c ↦ ⟨c, retain c.topic⟩)
    (hindex : Follows (fun t ↦ cfg.isCatalogue t) s'.next (fun t ↦ cfg.tagsIn (s'.kv.lookup t))
      (s.view cfg) (s'.observations.map (effect cfg.tagsIn))) : Inv cfg s' := by
  have hperm : s'.deliveries.Perm
      (s.deliveries ++ (number s.next recs).map fun c ↦ ⟨c, retain c.topic⟩) := by
    rw [hs', ← hdel]
    exact deliveries_commit
  subst hs'
  refine { h with
    nonempty := h.nonempty.project projects (number s.next recs)
    bus := ?_
    retain := fun m hm hm' ↦ ?_
    index := follows_view hindex fun hl t _ ↦ (if_pos hl).symm }
  · have hadded : Follows (fun t ↦ cfg.retainTopic t) (s.next + (number s.next recs).length)
        (fun t ↦ id ((project projects (number s.next recs) s.kv).lookup t)) s.retained
        (s.deliveries.map (fun m ↦ m.toCommitted.effect id) ++
          (number s.next recs).map (effect id)) := follows_number h.bus hproj
    have hmap := hperm.symm.map fun m ↦ m.toCommitted.effect id
    rw [map_append, List.map_map] at hmap
    exact hadded.perm hmap
  · rcases mem_append.mp (hperm.mem_iff.mp hm) with hm | hm
    · exact h.retain m hm hm'
    · obtain ⟨c, hc, rfl⟩ := List.mem_map.mp hm
      exact hret _ (mem_number hc) hm'

/-- A commit of a local door or a push: every record goes to the index and to the bus. -/
theorem Inv.commit (h : Inv cfg s) (retain : Topic → Bool)
    (hproj : ∀ r ∈ recs, cfg.retainTopic r.1 ∨ cfg.isCatalogue r.1 → projects r.1)
    (hret : ∀ r ∈ recs, cfg.retainTopic r.1 → retain r.1) (hdel : acts.flatMap Act.deliveries =
      (number s.next recs).map fun c ↦ ⟨c, retain c.topic⟩)
    (hobs : acts.flatMap Act.observations = number s.next recs) :
    Inv cfg (s.commit (number s.next recs) projects acts) := by
  refine h.commit_of retain rfl (fun r hr ht ↦ hproj r hr (.inl ht)) hret hdel ?_
  rw [observations_commit, hobs, map_append]
  exact follows_number h.index fun r hr ht ↦ hproj r hr (.inr ht)

/-- A commit that leaves the catalogues alone: every record goes to the bus. -/
theorem Inv.commit_silent (h : Inv cfg s) (retain : Topic → Bool)
    (hproj : ∀ r ∈ recs, cfg.retainTopic r.1 → projects r.1)
    (hret : ∀ r ∈ recs, cfg.retainTopic r.1 → retain r.1) (hdel : acts.flatMap Act.deliveries =
      (number s.next recs).map fun c ↦ ⟨c, retain c.topic⟩)
    (hobs : acts.flatMap Act.observations = []) (hsame : ∀ t, cfg.isCatalogue t →
      (s.commit (number s.next recs) projects acts).kv.lookup t = s.kv.lookup t) :
    Inv cfg (s.commit (number s.next recs) projects acts) := by
  refine h.commit_of retain rfl hproj hret hdel ?_
  rw [observations_commit, hobs, append_nil]
  exact h.index.congr (Nat.le_add_right s.next (number s.next recs).length)
    (fun t ht ↦ congrArg cfg.tagsIn (hsame t ht)) fun _ _ ↦ rfl

end Commit

/-! ### What the doors' topics are -/

section Topics

variable {cfg : Config} {t : Topic}

theorem retainFor_of_retainTopic (h : cfg.retainTopic t) : retainFor (cfg.topicClass t) := by
  unfold retainTopic at h
  unfold topicClass
  split at h
  · exact (Bool.and_eq_true_iff.mp h).1
  · cases h

theorem isOwnedState_of_pushed (h : cfg.admitsPushed t) (hs : (cfg.topicClass t).isState) :
    (cfg.topicClass t).isOwnedState := by
  unfold admitsPushed at h
  unfold topicClass at hs ⊢
  split at h
  · rename_i p hp
    rw [hp] at hs
    -- a definition is known and does not flow up
    show (cfg.classOf p.contract).isOwnedState
    change (cfg.classOf p.contract).isState = true at hs
    generalize cfg.classOf p.contract = c at h hs ⊢
    cases c <;> simp_all [Uns.Class.isState, Uns.Class.isOwnedState, Uns.Class.isKnown, Uns.Class.flowsUp]
  · cases h

/-- A topic whose contract is not that of catalogues, or that is another node's, is no catalogue. -/
theorem not_isCatalogue (h : ∀ p, parse t = .ok p → p.contract ≠ "_DataTags" ∨ p.nodeID ≠ cfg.ulid) :
    cfg.isCatalogue t = false := by
  unfold isCatalogue
  split
  · rename_i p hp
    rcases h p hp with hne | hne <;> simp [hne]
  · rfl

theorem not_isCatalogue_topicFor (ulid : String) : cfg.isCatalogue (cfg.topicFor ulid) = false := by
  refine not_isCatalogue fun p hp ↦ .inl ?_
  have hshape := (parse_eq_ok hp).1
  have hc : p.contract = "_EnrolledIdentity" := by
    simp only [topicFor, List.cons.injEq] at hshape
    exact hshape.2.2.1.symm
  rw [hc]
  decide

theorem not_isCatalogue_of_authored (h : cfg.authoredHere t) : cfg.isCatalogue t = false := by
  refine not_isCatalogue fun p hp ↦ .inl ?_
  simp only [authoredHere, hp, Bool.and_eq_true, decide_eq_true_eq] at h
  rw [h.1]
  decide

theorem not_isCatalogue_of_replicatedUp (h : cfg.replicatedUp t) : cfg.isCatalogue t = false := by
  refine not_isCatalogue fun p hp ↦ .inr ?_
  simp only [replicatedUp, hp, Bool.and_eq_true, bne_iff_ne] at h
  exact h.1.1

end Topics

/-! ### The doors keep the invariant -/

section Doors

variable {cfg : Config} {s s' : State}

theorem inv_ingest (h : Inv cfg s) (hC : Orderly cfg s (.ingest recs))
    (hs : commitStep cfg s (.ingest recs) = some s') : Inv cfg s' := by
  obtain ⟨-, hs⟩ := ite_none_right_eq_some.mp hs
  cases hs
  refine h.commit (fun t ↦ retainFor (cfg.topicClass t)) (fun r hr hshown ↦ ?_)
    (fun r _ ↦ retainFor_of_retainTopic) (deliveries_localActs _ _) (observations_localActs _ _)
  rw [Bool.and_eq_true]
  exact hC r hr hshown

theorem inv_replicated (h : Inv cfg s) (hC : Orderly cfg s (.replicated recs))
    (hs : commitStep cfg s (.replicated recs) = some s') : Inv cfg s' := by
  obtain ⟨hadmits, hs⟩ := ite_none_right_eq_some.mp hs
  cases hs
  refine h.commit cfg.retainTopic (fun r hr hshown ↦ ?_) (fun _ _ ↦ id)
    (deliveries_pushActs cfg _) (observations_pushActs cfg _)
  have hstate := hC r hr hshown
  rw [Bool.and_eq_true]
  exact ⟨isOwnedState_of_pushed (all_eq_true.mp hadmits r hr) hstate.1, hstate.2⟩

theorem inv_move {contract : String} {moves : List (Topic × Topic)} (h : Inv cfg s)
    (hC : Orderly cfg s (.move contract moves))
    (hs : commitStep cfg s (.move contract moves) = some s') : Inv cfg s' := by
  obtain ⟨-, hs⟩ := ite_none_right_eq_some.mp hs
  cases hs
  exact h.commit cfg.retainTopic hC (fun _ _ ↦ id) (deliveries_localActs _ _) (observations_localActs _ _)

theorem inv_refresh {t : Topic} (h : Inv cfg s) (hs : commitStep cfg s (.refresh t) = some s') :
    Inv cfg s' := by
  simp only [commitStep] at hs
  split at hs
  · rename_i p hp
    obtain ⟨-, hs⟩ := ite_none_right_eq_some.mp hs
    cases hs
    have hinv : Inv cfg (s.commit (number s.next [(t, p)]) (fun _ ↦ true)
        [.deliver ⟨⟨s.next, t, p⟩, retainFor (cfg.topicClass t)⟩]) := by
      refine h.commit_silent (fun t ↦ retainFor (cfg.topicClass t)) (fun _ _ _ ↦ rfl)
        (fun r _ ↦ retainFor_of_retainTopic) rfl rfl fun t' _ ↦ ?_
      -- the entry is written again with the payload it holds
      show (put s.kv t p).lookup t' = s.kv.lookup t'
      rw [lookup_put]
      split
      · rename_i heq
        rw [heq, hp, h.nonempty.held_eq hp]
      · rfl
    exact hinv
  · cases hs

/-- A registry commit writes no catalogue. -/
theorem Inv.registry (h : Inv cfg s) (hrecs : ∀ r ∈ recs, cfg.isCatalogue r.1 = false) :
    Inv cfg (s.commit (number s.next recs) (fun _ ↦ true) (registryActs (number s.next recs))) := by
  refine h.commit_silent (fun _ ↦ true) (fun _ _ _ ↦ rfl) (fun _ _ _ ↦ rfl)
    (deliveries_registryActs _) (observations_registryActs _) fun t ht ↦ ?_
  show (project (fun _ ↦ true) (number s.next recs) s.kv).lookup t = _
  refine lookup_project_of_ne fun c hc heq ↦ ?_
  have hnot := hrecs _ (mem_number hc)
  rw [heq, ht] at hnot
  cases hnot

theorem inv_enroll {ulid : String} {entry : Payload} (h : Inv cfg s)
    (hs : commitStep cfg s (.enroll ulid entry) = some s') : Inv cfg s' := by
  obtain ⟨-, hs⟩ := ite_none_right_eq_some.mp hs
  cases hs
  refine h.registry fun r hr ↦ ?_
  rw [mem_singleton.mp hr]
  exact not_isCatalogue_topicFor ulid

theorem inv_revoke {ulid : String} {authored retired : List Topic} (h : Inv cfg s)
    (hs : commitStep cfg s (.revoke ulid authored retired) = some s') : Inv cfg s' := by
  obtain ⟨hguard, hs⟩ := ite_none_right_eq_some.mp hs
  cases hs
  obtain ⟨hauthored, hretired⟩ := Bool.and_eq_true_iff.mp hguard
  refine h.registry fun r hr ↦ ?_
  obtain ⟨t, ht, rfl⟩ := List.mem_map.mp hr
  rcases mem_append.mp ht with ht | ht
  · rcases mem_cons.mp ht with rfl | ht
    · exact not_isCatalogue_topicFor ulid
    · exact not_isCatalogue_of_authored (all_eq_true.mp hauthored t ht)
  · have hup := all_eq_true.mp hretired t ht
    exact not_isCatalogue_of_replicatedUp (Bool.and_eq_true_iff.mp hup).1

end Doors

/-! ### The steps of an ingest keep the invariant -/

section Steps

variable {cfg : Config} {s s' : State}

/-- What bus, index and store hold is the same. -/
structure SameShown (s s' : State) : Prop where
  kv : s'.kv = s.kv
  next : s'.next = s.next
  retained : s'.retained = s.retained
  index : s'.index = s.index

section

variable (h : Inv cfg s)

include h

theorem Inv.bus_handed (hsame : SameShown s s') (hdel : s.deliveries.Perm s'.deliveries) :
    Follows (fun t ↦ cfg.retainTopic t) s'.next (fun t ↦ s'.kv.lookup t) s'.retained
      (s'.deliveries.map fun m ↦ m.toCommitted.effect id) := by
  rw [hsame.next, hsame.retained, hsame.kv]
  exact h.bus.perm (hdel.map _)

theorem Inv.index_handed (hsame : SameShown s s') (hobs : s.observations.Perm s'.observations) :
    Follows (fun t ↦ cfg.isCatalogue t) s'.next (fun t ↦ cfg.tagsIn (s'.kv.lookup t)) (s'.view cfg)
      (s'.observations.map (effect cfg.tagsIn)) := by
  have hview : s'.view cfg = s.view cfg := by
    funext t
    rw [view, view, hsame.index, hsame.kv]
  rw [hsame.next, hsame.kv, hview]
  exact h.index.perm (hobs.map _)

/-- Pending updates may change hands. -/
theorem Inv.handed (hsame : SameShown s s') (hdel : s.deliveries.Perm s'.deliveries)
    (hobs : s.observations.Perm s'.observations) : Inv cfg s' where
  nonempty := hsame.kv ▸ h.nonempty
  bus := h.bus_handed hsame hdel
  retain m hm := h.retain m (hdel.mem_iff.mpr hm)
  index := h.index_handed hsame hobs
  consistent := hsame.index ▸ h.consistent
  foreign := hsame.index ▸ h.foreign

/-- A message is published in turn. -/
theorem Inv.publish {m : BusMsg} (hsame : SameShown s s')
    (hdel : s.deliveries.Perm (m :: s'.deliveries)) (hobs : s.observations.Perm s'.observations)
    (hturn : (Act.deliver m).InTurn cfg s) : Inv cfg (s'.publish m) where
  nonempty := hsame.kv ▸ h.nonempty
  bus := by
    show Follows _ s'.next (fun t ↦ s'.kv.lookup t)
      (if m.retain then update s'.retained m.topic (held m.payload) else s'.retained) _
    rw [hsame.next, hsame.retained, hsame.kv]
    refine h.bus.perform (hdel.map _) (fun hP f hf hk ↦ ?_) (fun hP ↦ ?_) fun t _ hne ↦ ?_
    · obtain ⟨m', hm', rfl⟩ := List.mem_map.mp hf
      exact hturn hP m' hm' hk
    · rw [if_pos (h.retain m (hdel.mem_iff.mpr mem_cons_self) hP)]
      exact update_self _ _ _
    · split
      · exact update_of_ne hne _ _
      · rfl
  retain m' hm' := h.retain m' (hdel.mem_iff.mpr (mem_cons_of_mem m hm'))
  index := by
    have hindex := h.index_handed hsame hobs
    exact hindex
  consistent := hsame.index ▸ h.consistent
  foreign := hsame.index ▸ h.foreign

/-- A catalogue is folded into the index in turn; anything else is ignored. -/
theorem Inv.observe {c : Committed} (hsame : SameShown s s')
    (hdel : s.deliveries.Perm s'.deliveries) (hobs : s.observations.Perm (c :: s'.observations))
    (hturn : (Act.observe c).InTurn cfg s) : Inv cfg (s'.observe cfg c) := by
  have htags : ∀ t, (s'.observe cfg c).index.tagsAt t =
      if cfg.isCatalogue c.topic ∧ s.index.loaded ∧ t = c.topic then
        tagsOf cfg.dataTags c.payload
      else s.index.tagsAt t := by
    intro t
    show (if cfg.isCatalogue c.topic then s'.index.observe cfg.dataTags c.topic c.payload
      else s'.index).tagsAt t = _
    rw [hsame.index]
    by_cases hcat : cfg.isCatalogue c.topic
    · by_cases hl : s.index.loaded
      · simp [hcat, hl, CatalogueIndex.observe, CatalogueIndex.tagsAt_apply]
      · simp [hcat, hl, CatalogueIndex.observe]
    · simp [hcat]
  have hloaded : (s'.observe cfg c).index.loaded = s.index.loaded := by
    show (if cfg.isCatalogue c.topic then s'.index.observe cfg.dataTags c.topic c.payload
      else s'.index).loaded = _
    rw [hsame.index]
    split
    · unfold CatalogueIndex.observe
      split <;> rfl
    · rfl
  have hbus := h.bus_handed hsame hdel
  refine ⟨hsame.kv ▸ h.nonempty, hbus, fun m hm ↦ h.retain m (hdel.mem_iff.mpr hm), ?_, ?_, ?_⟩
  · have hfollows : Follows (fun t ↦ cfg.isCatalogue t) (s'.observe cfg c).next
        (fun t ↦ cfg.tagsIn ((s'.observe cfg c).kv.lookup t))
        (update (s.view cfg) c.topic (cfg.tagsIn (held c.payload)))
        ((s'.observe cfg c).observations.map (effect cfg.tagsIn)) := by
      show Follows _ s'.next (fun t ↦ cfg.tagsIn (s'.kv.lookup t)) _ (s'.observations.map _)
      rw [hsame.next, hsame.kv]
      refine h.index.perform (hobs.map _) (fun hP f hf hk ↦ ?_)
        (fun _ ↦ update_self _ _ _) fun t _ hne ↦ update_of_ne hne _ _
      obtain ⟨c', hc', rfl⟩ := List.mem_map.mp hf
      exact hturn hP c' hc' hk
    refine follows_view hfollows fun hl t ht ↦ ?_
    rw [hloaded] at hl
    rw [htags, update_apply, tagsIn_held, view, if_pos hl]
    by_cases heq : t = c.topic
    · subst heq
      rw [if_pos ⟨ht, hl, rfl⟩, if_pos rfl]
    · rw [if_neg fun hc ↦ heq hc.2.2, if_neg heq]
  · show (if cfg.isCatalogue c.topic then s'.index.observe cfg.dataTags c.topic c.payload
      else s'.index).Consistent
    rw [hsame.index]
    split
    · exact h.consistent.observe
    · exact h.consistent
  · intro t ht
    rw [hloaded] at ht
    rw [htags, if_neg]
    · exact h.foreign t ht
    · rintro ⟨hcat, hl, rfl⟩
      rcases ht with ht | ht
      · rw [hcat] at ht
        cases ht
      · rw [hl] at ht
        cases ht

attribute [local simp] step

theorem inv_run (hC : Orderly cfg s (.run i)) (hs : step cfg s (.run i) = some s') : Inv cfg s' := by
  simp only [step] at hs
  split at hs
  · rename_i c hnext
    cases hs
    obtain ⟨ds, hds, hds'⟩ := pending_replaceAct Act.deliveries hnext
    obtain ⟨os, hos, hos'⟩ := pending_replaceAct Act.observations hnext
    refine h.observe ⟨rfl, rfl, rfl, rfl⟩ ?_ ?_ (hC _ hnext)
    · exact (hds.trans (hds' []).symm).append_right s.queue
    · exact hos.trans ((hos' []).symm.cons c)
  · rename_i m hnext
    cases hs
    obtain ⟨ds, hds, hds'⟩ := pending_replaceAct Act.deliveries hnext
    obtain ⟨os, hos, hos'⟩ := pending_replaceAct Act.observations hnext
    refine h.publish ⟨rfl, rfl, rfl, rfl⟩ ?_ ?_ (hC _ hnext)
    · exact (hds.trans ((hds' []).symm.cons m)).append_right s.queue
    · exact hos.trans (hos' []).symm
  · cases hs

theorem inv_handOver {direct : Bool} (hs : step cfg s (.handOver i direct) = some s') : Inv cfg s' := by
  simp only [step] at hs
  split at hs
  · rename_i ms hnext
    obtain ⟨ds, hds, hds'⟩ := pending_replaceAct Act.deliveries hnext
    obtain ⟨os, hos, hos'⟩ := pending_replaceAct Act.observations hnext
    split at hs
    · obtain ⟨-, hs⟩ := ite_none_left_eq_some.mp hs
      cases hs
      have hmsgs : (ms.map Act.deliver).flatMap Act.deliveries = ms := by
        simp [flatMap_map, Act.deliveries]
      have hnone : (ms.map Act.deliver).flatMap Act.observations = [] := by
        simp [flatMap_map, Act.observations]
      refine h.handed ⟨rfl, rfl, rfl, rfl⟩ ?_ ?_
      · have hto := hds' (ms.map .deliver)
        rw [hmsgs] at hto
        exact (hds.trans hto.symm).append_right s.queue
      · have hto := hos' (ms.map .deliver)
        rw [hnone] at hto
        exact hos.trans hto.symm
    · obtain ⟨-, hs⟩ := ite_none_left_eq_some.mp hs
      cases hs
      refine h.handed ⟨rfl, rfl, rfl, rfl⟩ ?_ (hos.trans (hos' []).symm)
      -- the messages move from the ingest to the end of the queue
      have hfrom : s.deliveries.Perm (ms ++ ds ++ s.queue) := hds.append_right s.queue
      have hto : (ms ++ ds ++ s.queue).Perm (ds ++ (s.queue ++ ms)) := by
        rw [append_assoc]
        refine perm_append_comm.trans ?_
        rw [append_assoc]
      exact hfrom.trans (hto.trans ((hds' []).symm.append_right (s.queue ++ ms)))
  · cases hs

theorem inv_deliverQueued (hC : Orderly cfg s .deliverQueued)
    (hs : step cfg s .deliverQueued = some s') : Inv cfg s' := by
  simp only [step] at hs
  split at hs
  · cases hs
  · rename_i m rest hqueue
    obtain ⟨-, hs⟩ := ite_none_left_eq_some.mp hs
    cases hs
    refine h.publish ⟨rfl, rfl, rfl, rfl⟩ ?_ (List.Perm.refl _)
      (hC m (by rw [hqueue]; rfl))
    show (pending Act.deliveries s.ingests ++ s.queue).Perm
      (m :: (pending Act.deliveries s.ingests ++ rest))
    rw [hqueue]
    exact perm_middle

theorem inv_ask (hs : step cfg s .ask = some s') : Inv cfg s' := by
  obtain rfl := some.inj hs
  cases hl : s.index.loaded with
  | true =>
    -- a loaded index is not filled again
    have hsame : s.index.load cfg.dataTags (catalogues cfg s.kv) = s.index := by
      rw [load, if_pos hl]
    rw [hsame]
    exact h
  | false =>
    have htags : ∀ t, (s.index.load cfg.dataTags (catalogues cfg s.kv)).tagsAt t =
        if cfg.isCatalogue t then cfg.tagsIn (s.kv.lookup t) else [] :=
      tagsAt_load hl fun t ↦ h.foreign t (.inr hl)
    refine ⟨h.nonempty, h.bus, h.retain, ?_, h.consistent.load _, fun t ht ↦ ?_⟩
    · have hfresh := h.index.refresh (fun t _ ↦ (rfl : cfg.tagsIn (s.kv.lookup t) = _))
      refine follows_view hfresh fun _ t ht ↦ ?_
      exact (htags t).trans (if_pos ht)
    · have hloaded : (s.index.load cfg.dataTags (catalogues cfg s.kv)).loaded = true := by
        rw [load, hl]
        rfl
      rcases ht with ht | ht
      · refine (htags t).trans (if_neg ?_)
        rw [ht]
        exact Bool.false_ne_true
      · exact absurd (hloaded.symm.trans ht) (Ne.symm Bool.false_ne_true)

/-- A restart publishes the current state and forgets the rest. -/
theorem inv_restart (hs : step cfg s .restart = some s') : Inv cfg s' := by
  obtain rfl := some.inj hs
  refine ⟨h.nonempty, Follows.of_eq fun t ht ↦ if_pos ht, fun m hm ↦ absurd hm not_mem_nil,
    Follows.of_eq fun _ _ ↦ rfl, consistent_empty, fun _ _ ↦ rfl⟩

theorem inv_step {e : Event} (hC : Orderly cfg s e) (hs : step cfg s e = some s') : Inv cfg s' := by
  cases e with
  | ingest recs => exact inv_ingest h hC hs
  | refresh t => exact inv_refresh h hs
  | move contract moves => exact inv_move h hC hs
  | replicated recs => exact inv_replicated h hC hs
  | enroll ulid entry => exact inv_enroll h hs
  | revoke ulid authored retired => exact inv_revoke h hs
  | run i => exact inv_run h hC hs
  | handOver i direct => exact inv_handOver h hs
  | deliverQueued => exact inv_deliverQueued h hC hs
  | ask => exact inv_ask h hs
  | restart => exact inv_restart h hs
  | startDelivery | stopDelivery | exitDelivery =>
    obtain ⟨-, hs⟩ := ite_none_right_eq_some.mp hs
    cases hs
    exact h.handed ⟨rfl, rfl, rfl, rfl⟩ (List.Perm.refl _) (List.Perm.refl _)

end

end Steps

/-! ### The result -/

/-- With nothing in progress both mirrors are up to date. -/
theorem Inv.agrees {cfg : Config} {s : State} (h : Inv cfg s) (hq : s.Quiet) : s.Agrees cfg := by
  have hdel : s.deliveries = [] := by
    rw [deliveries, pending_of_forall_nil _ hq.1, hq.2]
    rfl
  have hobs : s.observations = [] := pending_of_forall_nil _ hq.1
  have hbus := h.bus
  have hindex := h.index
  rw [hdel] at hbus
  rw [hobs] at hindex
  refine ⟨fun t ht ↦ hbus.eq_of_nil ht, fun tag ↦ ?_⟩
  refine congrFun (Consistent.holders_eq (h.consistent.load _)
    (consistent_empty.load _) ?_) tag
  funext t
  have hrebuilt : (({} : CatalogueIndex).load cfg.dataTags (catalogues cfg s.kv)).tagsAt t =
      if cfg.isCatalogue t then cfg.tagsIn (s.kv.lookup t) else [] := tagsAt_load rfl (fun _ ↦ rfl) t
  rw [hrebuilt]
  cases hl : s.index.loaded with
  | false => exact tagsAt_load hl (fun t ↦ h.foreign t (.inr hl)) t
  | true =>
    rw [load, if_pos hl]
    split
    · rename_i ht
      have heq := hindex.eq_of_nil ht
      rw [view, if_pos hl] at heq
      exact heq
    · rename_i ht
      exact h.foreign t (.inl (Bool.eq_false_of_not_eq_true ht))

/-- **Bus and index agree with the store.** In every run whose updates are in turn, whenever no ingest
is in progress and the queue is empty, every retained message is the payload of its topic's entry and
the producer index answers what a rebuild answers. -/
theorem agrees_of_reach (cfg : Config) {s : State} (h : (system cfg).Reach (Orderly cfg) s)
    (hq : s.Quiet) : s.Agrees cfg :=
  (h.invariant (inv_start cfg) fun _ _ _ hI hC hs ↦ inv_step hI hC hs).agrees hq

/-! ### Two publishes of one topic -/

instance (s : State) : Decidable s.Quiet := by
  unfold State.Quiet
  infer_instance

/-- A node with the bundle's class for catalogues. -/
def node : Config where
  ulid := "n1"
  classOf c := if c = "_DataTags" then .entity else classOf c
  retainChildMetrics := false
  dataTags p := if p = [1] then some ["tag"] else none
  root := "colca"
  version := "v1"

/-- A constant on the line, and the line's catalogue. -/
def constant : Topic := ["colca", "v1", "_Constant", "n1", "line1"]

def catalogue : Topic := ["colca", "v1", "_DataTags", "n1", "line1", "plc"]

/-- Two ingests of one topic and one of a catalogue, interleaved with every update in turn. -/
def inTurn : List Event :=
  [.ingest [(constant, [1])], .ingest [(constant, [2])], .ask, .ingest [(catalogue, [1])],
    .run 0, .run 0, .run 2, .run 1, .run 2, .run 1]

theorem agrees_in_turn : ∃ s, (system node).Reach (Orderly node) s ∧ s.Quiet ∧
    s.retained constant = some [2] ∧ s.Agrees node := by
  obtain ⟨s, hreach, hs⟩ := (system node).exists_reach (Orderly node) inTurn
    (fun s ↦ s.Quiet ∧ s.retained constant = some [2])
  exact ⟨s, hreach, hs.1, hs.2, agrees_of_reach node hreach hs.1⟩

/-- The ingest that committed first publishes last. -/
def overtaken : List Event :=
  [.ingest [(constant, [1])], .ingest [(constant, [2])], .run 1, .run 1, .run 0, .run 0]

/-- The store holds the second payload, the bus keeps the first. -/
theorem overtaken_publish : ¬ ∀ s, (system node).Reachable s → s.Quiet → s.Agrees node := by
  intro hall
  obtain ⟨s, hreach, hquiet, hbus, hkv, hretain⟩ := (system node).exists_reachable overtaken
    (fun s ↦ s.Quiet ∧ s.retained constant = some [1] ∧ s.kv.lookup constant = some [2] ∧
      node.retainTopic constant)
  have hagree := (hall s hreach hquiet).retained constant hretain
  rw [hbus, hkv] at hagree
  exact absurd hagree (by decide)

end Colca.Bus
