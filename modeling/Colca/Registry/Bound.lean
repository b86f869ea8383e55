import Colca.Registry.Binding

/-!
# Identities stay on their elements

A delete that has asked the registry about an element does not ask again before it commits, and an enrolment
asks the index, which learns of a commit after the store has it. So an identity can be enrolled on an element
that is being deleted, and neither side sees the other: `boundWhileDeleted_missing` is such a run.

Where every enrolment resolves an element that is **clear** (`State.Clear`: its record stands in the store,
everything at its position was observed, and no delete in progress is past asking about it), and where the
node's own elements and those its children replicated keep apart, no identity loses its element
(`bound_elements_placed`). The invariant is that clearness itself, for every element that an identity is
bound to or is being enrolled on: a delete that asks later is told. That no two identities share an element
or a key needs no condition: the lock is held from the checks to the write.
-/

namespace Colca.Registry

open List Option State Edit
open Uns (Path ElementIndex)
open Edit (KV Rec Addr Snapshot Plan StateRecord rawString)

/-! ### The condition -/

/-- The job of the configuring executor does not retire the position, or asks about the element before. -/
def ConfigJob.Spares (p : Path) (e : String) : ConfigJob → Prop
  | .deleting _ checked todo => (∀ x ∈ checked, x.path ≠ p) ∧ ∀ x ∈ todo, x.path = p → x.id = e
  | .authoring .. => True

instance (p : Path) (e : String) : DecidablePred (ConfigJob.Spares p e)
  | .deleting .. => inferInstanceAs (Decidable (_ ∧ _))
  | .authoring .. => inferInstanceAs (Decidable True)

/-- The job of the editing executor does not retire the position, or asks about the element before. -/
def EditJob.Spares (p : Path) (e : String) : EditJob → Prop
  | .asking _ _ _ _ sn answers =>
    (∀ c ∈ sn.entities, c.record.addr = elementAddr p → c.kind = .systemElement ∧ c.id = e) ∧
      answers.lookup e ≠ some []
  | .decided plan => elementAddr p ∉ plan.records.map (·.addr)

instance (p : Path) (e : String) : DecidablePred (EditJob.Spares p e)
  | .asking .. => inferInstanceAs (Decidable (_ ∧ _))
  | .decided _ => inferInstanceAs (Decidable (¬ _))

/-- An element is clear at a position: its record is in the store there, all that was committed there was
observed, and no delete in progress is past asking about it. -/
structure State.Clear (s : State) (p : Path) (e : String) : Prop where
  stands : (p, e) ∈ s.elements
  seen : ∀ x ∈ s.unseen, x.1 ≠ p ∧ x.2 ≠ e
  config : ∀ j ∈ s.config, j.Spares p e
  edit : ∀ j ∈ s.edit, j.Spares p e

instance (s : State) (p : Path) (e : String) : Decidable (s.Clear p e) :=
  decidable_of_iff ((p, e) ∈ s.elements ∧ (∀ x ∈ s.unseen, x.1 ≠ p ∧ x.2 ≠ e) ∧
      (∀ j ∈ s.config, j.Spares p e) ∧ ∀ j ∈ s.edit, j.Spares p e)
    ⟨fun h ↦ ⟨h.1, h.2.1, h.2.2.1, h.2.2.2⟩, fun h ↦ ⟨h.stands, h.seen, h.config, h.edit⟩⟩

/-- The element `Register` is about to bind. -/
def State.authoredElement (s : State) : Option String :=
  match s.registering with
  | some (.authored _ leaf) => some leaf
  | _ => none

/-- **The condition.** An enrolment resolves an element that is clear where the index has it; a service's
mount is not authored over an element of a child; and the retirement of a child takes no element another
identity is bound to. -/
def Settled (s : State) : Event → Prop
  | .enroll e => ∀ p ∈ s.index.pathOf e.element, s.Clear p e.element
  | .registered _ => ∀ leaf ∈ s.authoredElement, ∀ p ∈ s.index.pathOf leaf, s.Clear p leaf
  | .author _ _ => ∀ p ∈ s.authoringAt, p ∉ s.replicated.map (·.path)
  | .retire ulid _ => ∀ x ∈ s.entries, x.ulid ≠ ulid → ∀ p ∈ s.index.pathOf x.element,
      p ∉ (s.taken ulid).map (·.path)
  | _ => True

instance (s : State) (ev : Event) : Decidable (Settled s ev) :=
  match ev with
  | .enroll e => inferInstanceAs (Decidable (∀ p ∈ s.index.pathOf e.element, s.Clear p e.element))
  | .registered _ => inferInstanceAs
      (Decidable (∀ leaf ∈ s.authoredElement, ∀ p ∈ s.index.pathOf leaf, s.Clear p leaf))
  | .author _ _ => inferInstanceAs (Decidable (∀ p ∈ s.authoringAt, p ∉ s.replicated.map (·.path)))
  | .retire ulid _ => inferInstanceAs (Decidable (∀ x ∈ s.entries, x.ulid ≠ ulid →
      ∀ p ∈ s.index.pathOf x.element, p ∉ (s.taken ulid).map (·.path)))
  | .put _ | .register _ _ | .elementDelete _ | .check | .commitDelete _ | .editDelete _ _ _ _ | .ask _
  | .compose | .commitEdit _ | .observeConfig | .observeEdit | .observeRetired _ | .revoke _ _ =>
    inferInstanceAs (Decidable True)

/-- No element of a child stands where the node has an element record of its own. -/
def Apart (kv : KV) (replicated : List Replicated) : Prop :=
  ∀ r ∈ replicated, kv.get (elementAddr r.path) = none

/-! ### Element records in the store -/

section Records

variable {kv : KV} {p : Path} {e : String} {off : ℕ}

theorem mem_ownElements (h : kv.Distinct) :
    (p, e) ∈ ownElements kv ↔ ∃ r, kv.get (elementAddr p) = some r ∧ elementID r = e := by
  simp only [ownElements, List.mem_map, mem_filter, decide_eq_true_eq]
  constructor
  · rintro ⟨r, ⟨hr, hcontract⟩, heq⟩
    cases heq
    refine ⟨r, ?_, rfl⟩
    rw [elementAddr, ← hcontract]
    exact h.get hr
  · rintro ⟨r, hr, rfl⟩
    have haddr := KV.addr_of_get hr
    exact ⟨r, ⟨mem_of_find?_eq_some hr, by rw [haddr]; rfl⟩, by rw [haddr]; rfl⟩

/-- Tombstones fill no position. -/
theorem get_commit_tombstones {batch : List StateRecord} (hb : ∀ r ∈ batch, r.payload = none) {a : Addr}
    (h : kv.get a = none) : (kv.commit off batch).get a = none := by
  induction batch generalizing kv off with
  | nil => exact h
  | cons r rest ih =>
    refine ih (fun x hx ↦ hb x (mem_cons_of_mem _ hx)) ?_
    rw [KV.apply, hb r mem_cons_self, KV.get_remove, h, ite_self]

variable {r : Rec}

theorem exists_placed_of_elementID (h : elementID r = e) (he : e ≠ "") :
    ∃ parent, placedElement r = some (e, parent) := by
  unfold elementID at h
  cases hr : placedElement r with
  | none =>
    rw [hr] at h
    exact absurd h.symm he
  | some x =>
    rw [hr] at h
    exact ⟨x.2, by rw [← h]; rfl⟩

/-- The id in the object of a placed element. -/
theorem rawString_of_placedElement {f : Fields} {parent : String}
    (h : placedElement r = some (e, parent)) (hf : r.payload = .object f) :
    rawString (f.get "id") = some e := by
  simp only [placedElement, hf, bind_eq_bind, bind_eq_some_iff] at h
  obtain ⟨id, hid, _, -, parent', -, h⟩ := h
  cases h
  exact hid

/-- A placed element is found where it stands. -/
theorem elementAt_of_placed (hr : kv.get (elementAddr p) = some r) (h : elementID r = e)
    (he : e ≠ "") : elementAt kv p = some e := by
  obtain ⟨parent, hplaced⟩ := exists_placed_of_elementID h he
  rw [elementAt, hr]
  cases hpayload : r.payload with
  | unreadable =>
    rw [placedElement, hpayload] at hplaced
    cases hplaced
  | object f =>
    have hid := rawString_of_placedElement hplaced hpayload
    simp [hpayload, hid, he]

end Records

/-! ### The invariant -/

/-- The elements identities are bound to, or are being enrolled on. -/
def State.bound (s : State) : List String := (s.entries ++ s.enrolling.toList).map (·.element)

/-- What a delete decided on are tombstones. -/
def EditJob.Retires : EditJob → Prop
  | .asking .. => True
  | .decided plan => ∀ r ∈ plan.records, r.payload = none

structure Inv (s : State) : Prop where
  distinct : s.kv.Distinct
  apart : Apart s.kv s.replicated
  sound : s.index.Sound
  retires : ∀ j ∈ s.edit, j.Retires
  bound : ∀ e ∈ s.bound, e ≠ "" → ∃ p, s.index.byID e = some p ∧ s.Clear p e

section Steps

variable {s s' : State} {p : Path} {e : String}

/-- What stands at a position is what its record in the store says. -/
theorem Inv.elementID_eq (h : Inv s) (hstands : (p, e) ∈ s.elements)
    (hr : s.kv.get (elementAddr p) = some r) : elementID r = e := by
  rcases mem_append.mp hstands with hown | hchild
  · obtain ⟨r', hr', hid⟩ := (mem_ownElements h.distinct).mp hown
    rw [hr] at hr'
    cases hr'
    exact hid
  · obtain ⟨c, hc, heq⟩ := List.mem_map.mp hchild
    cases heq
    rw [h.apart c hc] at hr
    cases hr

variable {x : Entry}

theorem mem_bound (h : x ∈ s.entries) : x.element ∈ s.bound :=
  mem_map_of_mem (mem_append_left _ h)

theorem boundTo_ne_nil (henrolling : s.enrolling = none) (h : e ∈ s.bound) (he : e ≠ "") :
    boundTo s.entries e ≠ [] := by
  rw [State.bound, henrolling, toList_none, append_nil] at h
  obtain ⟨x, hx, rfl⟩ := List.mem_map.mp h
  intro hnil
  rw [boundTo, if_neg he] at hnil
  have hmem : x.ulid ∈ ((s.entries.filter (·.element = x.element)).map (·.ulid)).insertionSort (· ≤ ·) :=
    (perm_insertionSort _ _).mem_iff.mpr
      (mem_map_of_mem (mem_filter.mpr ⟨hx, by simp⟩))
  rw [hnil] at hmem
  cases hmem

/-- A step that gives the configuring executor a job which spares what is bound, and no more. -/
theorem Inv.withConfig (h : Inv s) {job : Option ConfigJob} (registering : Option Registering)
    (said : List String) (hjob : ∀ e ∈ s.bound, e ≠ "" → ∀ p, s.Clear p e → ∀ j ∈ job, j.Spares p e) :
    Inv { s with config := job, registering := registering, said := said } :=
  { h with
    bound e he hne := by
      obtain ⟨p, hat, hclear⟩ := h.bound e he hne
      exact ⟨p, hat, hclear.stands, hclear.seen, hjob e he hne p hclear, hclear.edit⟩ }

/-- The same of the editing executor. -/
theorem Inv.withEdit (h : Inv s) {job : Option EditJob} (said : List String)
    (hretires : ∀ j ∈ job, j.Retires)
    (hjob : ∀ e ∈ s.bound, e ≠ "" → ∀ p, s.Clear p e → ∀ j ∈ job, j.Spares p e) :
    Inv { s with edit := job, said := said } :=
  { h with
    retires := hretires
    bound e he hne := by
      obtain ⟨p, hat, hclear⟩ := h.bound e he hne
      exact ⟨p, hat, hclear.stands, hclear.seen, hclear.config, hjob e he hne p hclear⟩ }

/-- A job that ends spares everything. -/
theorem Inv.endConfig (h : Inv s) (registering : Option Registering) (said : List String) :
    Inv { s with config := none, registering := registering, said := said } :=
  h.withConfig registering said fun _ _ _ _ _ j hj ↦ by cases hj

theorem Inv.endEdit (h : Inv s) (said : List String) : Inv { s with edit := none, said := said } :=
  h.withEdit said (fun j hj ↦ by cases hj) fun _ _ _ _ _ j hj ↦ by cases hj

/-- Only what is said or how far a registration is changes. -/
theorem Inv.aside (h : Inv s) (registering : Option Registering) (said : List String) :
    Inv { s with registering := registering, said := said } :=
  h.withConfig registering said fun _ _ _ _ hclear ↦ hclear.config

variable {entries : List Entry} {expected : Expected} {paths : List Path} {cascade : Bool} {kind : Kind}

/-- Fewer identities. -/
theorem Inv.fewer (h : Inv s) {enrolling : Option Entry} {registering : Option Registering}
    (hsub : ∀ x ∈ entries ++ enrolling.toList, x ∈ s.entries ++ s.enrolling.toList) :
    Inv { s with entries := entries, enrolling := enrolling, registering := registering } :=
  { h with
    bound e he hne := by
      obtain ⟨x, hx, rfl⟩ := List.mem_map.mp he
      obtain ⟨p, hat, hclear⟩ := h.bound _ (mem_map_of_mem (hsub x hx)) hne
      exact ⟨p, hat, hclear.stands, hclear.seen, hclear.config, hclear.edit⟩ }

/-! ### Enrolling -/

theorem pathOf_of_enrollRefusal {index : ElementIndex}
    (h : enrollRefusal entries index x = none) (he : x.element ≠ "") :
    ∃ p, index.pathOf x.element = some p := by
  simp only [enrollRefusal] at h
  split at h
  · cases h
  · split at h
    · cases h
    · rw [if_neg he] at h
      split at h
      · cases h
      · split at h
        · rename_i hplaced
          exact isSome_iff_exists.mp hplaced
        · cases h

/-- An enrolment whose checks pass binds an element that is clear. -/
theorem Inv.enrolling (h : Inv s) (hchecks : enrollRefusal s.entries s.index x = none)
    (hclear : ∀ p ∈ s.index.pathOf x.element, s.Clear p x.element) (registering : Option Registering) :
    Inv { s with enrolling := some x, registering := registering } :=
  { h with
    bound e he hne := by
      obtain ⟨y, hy, rfl⟩ := List.mem_map.mp he
      rcases mem_append.mp hy with hy | hy
      · obtain ⟨p, hat, hclear⟩ := h.bound _ (mem_bound hy) hne
        exact ⟨p, hat, hclear.stands, hclear.seen, hclear.config, hclear.edit⟩
      · rw [toList_some, mem_singleton] at hy
        subst hy
        obtain ⟨p, hp⟩ := pathOf_of_enrollRefusal hchecks hne
        have hclear := hclear p hp
        rw [ElementIndex.pathOf, if_neg hne] at hp
        exact ⟨p, hp, hclear.stands, hclear.seen, hclear.config, hclear.edit⟩ }

theorem Inv.enroll (h : Inv s) (hclear : ∀ p ∈ s.index.pathOf x.element, s.Clear p x.element) :
    Inv (s.enroll x) := by
  unfold State.enroll
  split
  · exact h.aside s.registering _
  · rename_i hchecks
    exact h.enrolling hchecks hclear s.registering

variable {ok : Bool}

theorem Inv.put (h : Inv s) (hs : s.put ok = some s') : Inv s' := by
  unfold State.put at hs
  split at hs
  · cases hs
  · rename_i x hx
    cases hs
    refine h.fewer fun y hy ↦ ?_
    rw [hx]
    rw [toList_none, append_nil] at hy
    split at hy
    · rcases mem_append.mp hy with hy | hy
      · exact mem_append_left _ (mem_filter.mp hy).1
      · exact mem_append_right _ hy
    · exact mem_append_left _ hy

theorem Inv.register (h : Inv s) {name : String} {mount : List String}
    (hs : s.register name mount = some s') : Inv s' := by
  unfold State.register at hs
  split at hs
  · cases hs
  split at hs
  · cases hs
    exact h
  split at hs
  · cases hs
    exact h.aside _ s.said
  split at hs
  · cases hs
  · cases hs
    refine h.withConfig _ s.said fun _ _ _ _ _ j hj ↦ ?_
    cases hj
    trivial

variable {ulid : String}

theorem Inv.registered (h : Inv s) (hC : Settled s (.registered ulid))
    (hs : s.registered ulid = some s') : Inv s' := by
  unfold State.registered at hs
  split at hs
  · rename_i name leaf hreg _
    split at hs
    · cases hs
      exact h.aside _ _
    · rename_i hchecks
      cases hs
      refine h.enrolling hchecks (fun p hp ↦ hC leaf ?_ p hp) _
      rw [authoredElement, hreg]
      rfl
  · cases hs

/-- A batch of other positions leaves an element where it stands. -/
theorem Inv.stands_commit (h : Inv s) {batch : List StateRecord}
    (hclear : s.Clear p e) (hnot : elementAddr p ∉ batch.map (·.addr)) (off : ℕ) :
    (p, e) ∈ ownElements (s.kv.commit off batch) ++ s.replicated.map fun r ↦ (r.path, r.id) := by
  rcases mem_append.mp hclear.stands with hown | hrep
  · refine mem_append_left _ ((mem_ownElements (h.distinct.commit _ _)).mpr ?_)
    rw [KV.get_commit_of_notMem hnot]
    exact (mem_ownElements h.distinct).mp hown
  · exact mem_append_right _ hrep

/-! ### Authoring -/

variable {id : String}

/-- A new element fills a position that nothing stands at. -/
theorem Inv.upsertNew (h : Inv s) {name seg leaf : String} {walked : Path} {todo : List String}
    (hnone : elementAt s.kv (walked ++ [seg]) = none) (hfresh : s.fresh id = true)
    (hunseen : s.configUnseen = []) (hchild : walked ++ [seg] ∉ s.replicated.map (·.path)) :
    Inv (s.upsertNew name walked seg todo leaf id ok) := by
  simp only [State.fresh, Bool.and_eq_true, decide_eq_true_eq, ne_eq] at hfresh
  simp only [State.upsertNew]
  split
  · exact h.endConfig _ _
  split
  · refine ⟨h.distinct.commit _ _, ?_, h.sound, h.retires, ?_⟩
    · intro r hr
      have hne : elementAddr r.path ≠ elementAddr (walked ++ [seg]) := by
        intro heq
        exact hchild (List.mem_map.mpr ⟨r, hr, congrArg Addr.path heq⟩)
      rw [KV.get_commit_of_notMem (by simpa using hne)]
      exact h.apart r hr
    · intro e he hne
      obtain ⟨p, hat, hclear⟩ := h.bound e he hne
      -- the element stands elsewhere: where it stands, the walk would have found it
      have hpne : p ≠ walked ++ [seg] := by
        rintro rfl
        rcases mem_append.mp hclear.stands with hown | hrep
        · obtain ⟨r, hr, hid⟩ := (mem_ownElements h.distinct).mp hown
          rw [elementAt_of_placed hr hid hne] at hnone
          cases hnone
        · obtain ⟨r, hr, heq⟩ := List.mem_map.mp hrep
          exact hchild (List.mem_map.mpr ⟨r, hr, congrArg Prod.fst heq⟩)
      have hide : id ≠ e := by
        rintro rfl
        exact hfresh.2 (List.mem_map.mpr ⟨(p, id), hclear.stands, rfl⟩)
      refine ⟨p, hat, ?_, ?_, ?_, hclear.edit⟩
      · have haddr : elementAddr p ≠ elementAddr (walked ++ [seg]) := fun heq ↦
          hpne (congrArg Addr.path heq)
        exact h.stands_commit hclear (by simpa using haddr) _
      · intro x hx
        have hx : x = (walked ++ [seg], id) ∨ x ∈ s.unseen := by
          simpa [unseen, hunseen] using hx
        rcases hx with rfl | hx
        · exact ⟨hpne.symm, hide⟩
        · exact hclear.seen x hx
      · intro j hj
        cases hj
        trivial
  · exact h.endConfig _ _

theorem Inv.author (h : Inv s) (hC : Settled s (.author id ok)) (hs : s.author id ok = some s') :
    Inv s' := by
  unfold State.author at hs
  split at hs
  · cases hs
  rename_i hunseen
  split at hs
  · rename_i name walked seg todo leaf hjob
    split at hs
    · cases hs
      refine h.withConfig s.registering s.said fun _ _ _ _ _ j hj ↦ ?_
      cases hj
      trivial
    · rename_i hnone
      split at hs
      · rename_i hfresh
        cases hs
        refine h.upsertNew hnone hfresh (not_not.mp hunseen) (hC _ ?_)
        rw [authoringAt, hjob]
        simp [hnone]
      · cases hs
  · cases hs
    exact h.endConfig _ s.said
  · cases hs

/-! ### Deleting positions -/

theorem mem_readPending {kv : KV} {pendings : List Pending}
    (h : readPending kv paths = .ok pendings) {x : Pending} (hx : x ∈ pendings) :
    ∃ r, kv.get (elementAddr x.path) = some r ∧ elementID r = x.id := by
  unfold readPending at h
  split at h
  · cases h
  split at h
  · cases h
  split at h
  · cases h
    obtain ⟨p, -, hp⟩ := mem_filterMap.mp hx
    obtain ⟨r, hr, rfl⟩ := map_eq_some_iff.mp hp
    exact ⟨r, hr, rfl⟩
  · cases h

theorem Inv.elementDelete (h : Inv s) (hs : s.elementDelete paths = some s') : Inv s' := by
  unfold State.elementDelete at hs
  split at hs
  · cases hs
  split at hs
  · cases hs
    exact h.aside s.registering _
  · rename_i pendings hread
    cases hs
    refine h.withConfig s.registering s.said fun e _ _ p hclear j hj ↦ ?_
    cases hj
    refine ⟨fun x hx ↦ (by cases hx), fun x hx hxp ↦ ?_⟩
    obtain ⟨r, hr, hid⟩ := mem_readPending hread hx
    rw [← hid]
    rw [hxp] at hr
    exact h.elementID_eq hclear.stands hr

/-- **A delete that asks about a bound element is refused.** -/
theorem Inv.check (h : Inv s) (hs : s.check = some s') : Inv s' := by
  unfold State.check at hs
  split at hs
  · rename_i paths checked x todo hjob
    split at hs
    · cases hs
      exact h.endConfig s.registering _
    split at hs
    · cases hs
    rename_i hfree
    split at hs
    · rename_i hunbound
      cases hs
      refine h.withConfig s.registering s.said fun e he hne p hclear j hj ↦ ?_
      cases hj
      have hspares : (∀ y ∈ checked, y.path ≠ p) ∧ ∀ y ∈ x :: todo, y.path = p → y.id = e :=
        hclear.config _ hjob
      refine ⟨forall_mem_concat hspares.1 fun hxp ↦ ?_, fun y hy ↦ hspares.2 y (mem_cons_of_mem _ hy)⟩
      rw [hspares.2 x mem_cons_self hxp] at hunbound
      exact boundTo_ne_nil (not_not.mp hfree) he hne hunbound
    · cases hs
      exact h.endConfig s.registering _
  · cases hs

theorem Inv.commitDelete (h : Inv s) (hs : s.commitDelete ok = some s') : Inv s' := by
  unfold State.commitDelete at hs
  split at hs
  · rename_i paths checked hjob
    split at hs
    · cases hs
      have hb : ∀ r ∈ checked.map fun p ↦ (⟨elementAddr p.path, none⟩ : StateRecord), r.payload = none := by
        intro r hr
        obtain ⟨x, -, rfl⟩ := List.mem_map.mp hr
        rfl
      refine ⟨h.distinct.commit _ _, fun r hr ↦ get_commit_tombstones hb (h.apart r hr), h.sound, h.retires, ?_⟩
      intro e he hne
      obtain ⟨p, hat, hclear⟩ := h.bound e he hne
      have hspares : ∀ x ∈ checked, x.path ≠ p := (hclear.config _ hjob).1
      refine ⟨p, hat, h.stands_commit hclear ?_ _, ?_, fun j hj ↦ (by cases hj), hclear.edit⟩
      · intro hmem
        simp only [List.map_map, List.mem_map, Function.comp] at hmem
        obtain ⟨x, hx, heq⟩ := hmem
        exact hspares x hx (congrArg Addr.path heq)
      · intro x hx
        have hx : (∃ y ∈ checked, x = (y.path, "")) ∨ x ∈ s.unseen := by
          simp only [unseen, mem_append, List.mem_map] at hx ⊢
          grind
        rcases hx with ⟨y, hy, rfl⟩ | hx
        · exact ⟨hspares y hy, hne.symm⟩
        · exact hclear.seen x hx
    · cases hs
      exact h.endConfig s.registering _
  · cases hs

/-! ### Edit deletes -/

theorem Inv.editDelete (h : Inv s) (hs : s.editDelete expected kind id cascade = some s') : Inv s' := by
  unfold State.editDelete at hs
  split at hs
  · cases hs
  split at hs
  · cases hs
    exact h.aside s.registering _
  rename_i sn hsn
  split at hs
  · cases hs
    exact h.aside s.registering _
  · cases hs
    refine h.withEdit s.said (fun j hj ↦ by cases hj; trivial) fun e _ hne p hclear j hj ↦ ?_
    cases hj
    refine ⟨fun c hc haddr ↦ ?_, by simp⟩
    obtain ⟨hrec, hread⟩ := exists_of_mem_entities hsn hc
    obtain ⟨hcontract, hpayload, hid⟩ := readEntity_eq_ok hread
    have hget := h.distinct.get hrec
    rw [haddr] at hget
    obtain ⟨parent, hplaced⟩ := exists_placed_of_elementID (h.elementID_eq hclear.stands hget) hne
    rw [rawString_of_placedElement hplaced hpayload] at hid
    rw [haddr] at hcontract
    exact ⟨(Contract.entity.inj hcontract).symm, (some.inj hid).symm⟩

theorem Inv.ask (h : Inv s) (hs : s.ask id = some s') : Inv s' := by
  unfold State.ask at hs
  split at hs
  · rename_i expected kind eid cascade sn answers hjob
    split at hs
    · rename_i hguard
      cases hs
      refine h.withEdit s.said (fun j hj ↦ by cases hj; trivial) fun e he hne p hclear j hj ↦ ?_
      cases hj
      have hspares : (∀ c ∈ sn.entities, c.record.addr = elementAddr p → c.kind = .systemElement ∧ c.id = e) ∧
          answers.lookup e ≠ some [] := hclear.edit _ hjob
      refine ⟨hspares.1, ?_⟩
      rw [lookup_append]
      cases hlookup : answers.lookup e with
      | some held => simpa [hlookup] using hspares.2
      | none =>
        by_cases hsame : e = id
        · subst hsame
          simpa [lookup_cons] using boundTo_ne_nil hguard.1 he hne
        · have hother : (e == id) = false := by simpa using hsame
          simp [lookup_cons, hother]
    · cases hs
  · cases hs

/-- What a delete of elements decides to retire, it asked about and nobody was bound to it. -/
theorem spared_of_composeDelete {sn : Snapshot} {answers : List (String × List String)} {plan : Plan}
    (hspares : (EditJob.asking expected kind id cascade sn answers).Spares p e)
    (hasked : ∀ x ∈ asks sn kind id cascade, answers.lookup x ≠ none)
    (h : composeDelete (answered answers) expected sn kind id cascade = .ok plan) :
    (EditJob.decided plan).Spares p e := by
  intro hmem
  obtain ⟨r, hr, haddr⟩ := List.mem_map.mp hmem
  obtain ⟨root, c, hroot, hc, hcaddr, hbound⟩ := retired_of_composeDelete h hr
  obtain ⟨hkind, rfl⟩ := hspares.1 c hc (hcaddr.trans haddr)
  obtain ⟨helement, himpact, hselected, hunbound⟩ := hbound hkind
  have hask : c.id ∈ asks sn kind id cascade := by
    simp only [asks, hroot]
    rw [if_pos ⟨helement, himpact⟩]
    exact mem_map_of_mem (mem_filter.mpr ⟨hselected, by simpa using hkind⟩)
  cases hanswer : answers.lookup c.id with
  | none => exact hasked _ hask hanswer
  | some held =>
    rw [answered, hanswer, getD_some] at hunbound
    rw [hunbound] at hanswer
    exact hspares.2 hanswer

theorem Inv.compose (h : Inv s) (hs : s.compose = some s') : Inv s' := by
  unfold State.compose at hs
  split at hs
  · rename_i expected kind id cascade sn answers hjob
    split at hs
    · rename_i hasked
      split at hs
      · cases hs
        exact h.endEdit _
      · rename_i plan hplan
        cases hs
        refine h.withEdit s.said (fun j hj ↦ ?_) fun e _ _ p hclear j hj ↦ ?_
        · cases hj
          exact fun r hr ↦ payload_of_composeDelete hplan hr
        cases hj
        exact spared_of_composeDelete (hclear.edit _ hjob) hasked hplan
    · cases hs
  · cases hs

theorem Inv.commitEdit (h : Inv s) (hs : s.commitEdit ok = some s') : Inv s' := by
  unfold State.commitEdit at hs
  split at hs
  · rename_i plan hjob
    split at hs
    · cases hs
      have hb : ∀ r ∈ plan.records, r.payload = none := h.retires _ hjob
      refine ⟨h.distinct.commit _ _, fun r hr ↦ get_commit_tombstones hb (h.apart r hr), h.sound,
        fun j hj ↦ (by cases hj), ?_⟩
      intro e he hne
      obtain ⟨p, hat, hclear⟩ := h.bound e he hne
      have hspares : elementAddr p ∉ plan.records.map (·.addr) := hclear.edit _ hjob
      refine ⟨p, hat, h.stands_commit hclear hspares _, ?_, hclear.config, fun j hj ↦ (by cases hj)⟩
      intro x hx
      have hx : (∃ q ∈ retiredElements plan, x = (q, "")) ∨ x ∈ s.unseen := by
        simp only [unseen, mem_append, List.mem_map] at hx ⊢
        grind
      rcases hx with ⟨q, hq, rfl⟩ | hx
      · refine ⟨?_, hne.symm⟩
        rintro rfl
        obtain ⟨r, hr, rfl⟩ := List.mem_map.mp hq
        obtain ⟨hr, hcontract⟩ := mem_filter.mp hr
        simp only [decide_eq_true_eq] at hcontract
        refine hspares (List.mem_map.mpr ⟨r, hr, ?_⟩)
        rw [elementAddr, ← hcontract]
      · exact hclear.seen x hx
    · cases hs
      exact h.endEdit _
  · cases hs

/-! ### Observing -/

/-- The index observes a record that is not of a bound element nor at the position of one. -/
theorem Inv.observe (h : Inv s) {x : Path × String} (hx : x ∈ s.unseen) {config edit : List (Path × String)}
    {retired : List Path} (hsub : ∀ y ∈ config ++ edit ++ retired.map fun p ↦ (p, ""), y ∈ s.unseen) :
    Inv { s with
      index := s.index.apply x.1 x.2, configUnseen := config, editUnseen := edit,
      retiredUnseen := retired } where
  distinct := h.distinct
  apart := h.apart
  sound := h.sound.apply x.1 x.2
  retires := h.retires
  bound e he hne := by
    obtain ⟨p, hat, hclear⟩ := h.bound e he hne
    obtain ⟨hpath, hid⟩ := hclear.seen x hx
    exact ⟨p, ElementIndex.byID_apply_of_ne hat hpath.symm hid.symm, hclear.stands,
      fun y hy ↦ hclear.seen y (hsub y hy), hclear.config, hclear.edit⟩

theorem Inv.observeConfig (h : Inv s) (hs : s.observeConfig = some s') : Inv s' := by
  unfold State.observeConfig at hs
  split at hs
  · cases hs
  · rename_i x rest hrest
    cases hs
    refine h.observe (by simp [unseen, hrest]) fun y hy ↦ ?_
    simp only [unseen, hrest, mem_append, mem_cons] at hy ⊢
    grind

theorem Inv.observeEdit (h : Inv s) (hs : s.observeEdit = some s') : Inv s' := by
  unfold State.observeEdit at hs
  split at hs
  · cases hs
  · rename_i x rest hrest
    cases hs
    refine h.observe (by simp [unseen, hrest]) fun y hy ↦ ?_
    simp only [unseen, hrest, mem_append, mem_cons] at hy ⊢
    grind

theorem Inv.observeRetired (h : Inv s) {i : ℕ} (hs : s.observeRetired i = some s') : Inv s' := by
  unfold State.observeRetired at hs
  split at hs
  · cases hs
  · rename_i p hp
    cases hs
    have hmem : p ∈ s.retiredUnseen := mem_of_getElem? hp
    refine h.observe (x := (p, "")) ?_ fun y hy ↦ ?_
    · exact mem_append_right _ (mem_map_of_mem hmem)
    · rcases mem_append.mp hy with hy | hy
      · exact mem_append_left _ hy
      · obtain ⟨q, hq, rfl⟩ := List.mem_map.mp hy
        exact mem_append_right _ (mem_map_of_mem (mem_of_mem_eraseIdx hq))

/-! ### Leaving -/

theorem Inv.revoke (h : Inv s) (hs : s.revoke ulid ok = some s') : Inv s' := by
  unfold State.revoke at hs
  split at hs
  · cases hs
  split at hs
  · cases hs
    exact h.aside s.registering _
  split at hs
  · cases hs
    refine h.fewer fun x hx ↦ ?_
    rcases mem_append.mp hx with hx | hx
    · exact mem_append_left _ (mem_filter.mp hx).1
    · exact mem_append_right _ hx
  · cases hs
    exact h.aside s.registering _

theorem Inv.retire (h : Inv s) (hC : Settled s (.retire ulid ok))
    (hs : s.retire ulid ok = some s') : Inv s' := by
  unfold State.retire at hs
  split at hs
  · cases hs
  rename_i hfree
  split at hs
  · cases hs
    exact h.aside s.registering _
  split at hs
  · cases hs
    exact h.aside s.registering _
  split at hs
  · cases hs
    refine ⟨h.distinct, fun r hr ↦ h.apart r (mem_filter.mp hr).1, h.sound, h.retires, ?_⟩
    intro e he hne
    rw [State.bound, not_not.mp hfree, toList_none, append_nil] at he
    obtain ⟨x, hx, rfl⟩ := List.mem_map.mp he
    obtain ⟨hx, hother⟩ := mem_filter.mp hx
    obtain ⟨p, hat, hclear⟩ := h.bound _ (mem_bound hx) hne
    -- nothing at the position of another identity's element is taken
    have hkept : p ∉ (s.taken ulid).map (·.path) :=
      hC x hx (by simpa using hother) p (by rw [ElementIndex.pathOf, if_neg hne, hat]; rfl)
    refine ⟨p, hat, ?_, ?_, hclear.config, hclear.edit⟩
    · rcases mem_append.mp hclear.stands with hown | hrep
      · exact mem_append_left _ hown
      · obtain ⟨r, hr, heq⟩ := List.mem_map.mp hrep
        have hr' : r ∉ s.taken ulid := fun hmem ↦
          hkept (List.mem_map.mpr ⟨r, hmem, congrArg Prod.fst heq⟩)
        exact mem_append_right _ (List.mem_map.mpr ⟨r, mem_filter.mpr ⟨hr, by simpa using hr'⟩, heq⟩)
    · intro y hy
      have hy : y ∈ s.unseen ∨ ∃ q ∈ (s.taken ulid).map (·.path), y = (q, "") := by
        simp only [unseen, mem_append, List.mem_map] at hy ⊢
        grind
      rcases hy with hy | ⟨q, hq, rfl⟩
      · exact hclear.seen y hy
      · exact ⟨fun heq ↦ hkept (heq ▸ hq), hne.symm⟩
  · cases hs
    exact h.aside s.registering _

/-! ### Every run -/

theorem Inv.step (h : Inv s) {ev : Event} (hC : Settled s ev) (hs : step s ev = some s') : Inv s' := by
  cases ev with
  | enroll e =>
    simp only [Registry.step] at hs
    split at hs
    · cases hs
      exact h.enroll hC
    · cases hs
  | put ok => exact h.put hs
  | register name mount => exact h.register hs
  | author id ok => exact h.author hC hs
  | registered ulid => exact h.registered hC hs
  | elementDelete paths => exact h.elementDelete hs
  | check => exact h.check hs
  | commitDelete ok => exact h.commitDelete hs
  | editDelete expected kind id cascade => exact h.editDelete hs
  | ask id => exact h.ask hs
  | compose => exact h.compose hs
  | commitEdit ok => exact h.commitEdit hs
  | observeConfig => exact h.observeConfig hs
  | observeEdit => exact h.observeEdit hs
  | observeRetired i => exact h.observeRetired hs
  | revoke ulid ok => exact h.revoke hs
  | retire ulid ok => exact h.retire hC hs

end Steps

/-- The index of some records has only what they say, and where an element stands it is the one there. -/
theorem load_sound (elements : List (Path × String)) :
    (load elements).Sound ∧ ∀ p e, (load elements).byPath p = some e → (p, e) ∈ elements := by
  suffices hfold : ∀ (l : List (Path × String)) (x : ElementIndex), x.Sound →
      (∀ p e, x.byPath p = some e → (p, e) ∈ elements) → (∀ r ∈ l, r ∈ elements) →
      (l.foldl (fun x r ↦ x.apply r.1 r.2) x).Sound ∧
        ∀ p e, (l.foldl (fun x r ↦ x.apply r.1 r.2) x).byPath p = some e → (p, e) ∈ elements from
    hfold elements {} (fun _ _ h ↦ by cases h) (fun _ _ h ↦ by cases h) fun _ h ↦ h
  intro l
  induction l with
  | nil => exact fun x hsound hpath _ ↦ ⟨hsound, hpath⟩
  | cons r l ih =>
    intro x hsound hpath hsub
    refine ih (x.apply r.1 r.2) (hsound.apply r.1 r.2) ?_ fun r' hr' ↦ hsub r' (mem_cons_of_mem _ hr')
    intro p e he
    rcases ElementIndex.byPath_of_byPath_apply he with ⟨rfl, rfl⟩ | he
    · exact hsub r mem_cons_self
    · exact hpath p e he

theorem inv_start (n : AtRest) (h : Apart n.kv n.replicated) : Inv (machine n).start where
  distinct := n.distinct
  apart := h
  sound := (load_sound _).1
  retires j hj := by cases hj
  bound e he hne := by
    obtain ⟨x, hx, rfl⟩ := List.mem_map.mp he
    have hx : x ∈ n.entries := by simpa [machine] using hx
    obtain ⟨p, hp⟩ := isSome_iff_exists.mp (n.placed x hx hne)
    rw [ElementIndex.pathOf, if_neg hne] at hp
    have hsound := load_sound (ownElements n.kv ++ n.replicated.map fun r ↦ (r.path, r.id))
    exact ⟨p, hp, hsound.2 p _ (hsound.1 _ p hp), fun y hy ↦ (by cases hy), fun j hj ↦ (by cases hj),
      fun j hj ↦ (by cases hj)⟩

theorem Inv.boundPlaced {s : State} (h : Inv s) : BoundPlaced s := by
  intro _ x hx hne
  obtain ⟨p, hat, hclear⟩ := h.bound _ (mem_bound hx) hne
  refine ⟨p, ?_, hclear.stands⟩
  rw [ElementIndex.pathOf, if_neg hne, hat]
  rfl

/-- **In every run whose enrolments resolve clear elements, no identity is left bound to a missing one.** -/
theorem bound_elements_placed (n : AtRest) (hapart : Apart n.kv n.replicated) {s : State}
    (h : (machine n).Reach Settled s) : BoundPlaced s :=
  (StateMachine.Reach.invariant (inv_start n hapart) (fun _ _ _ hI hC hs ↦ hI.step hC hs) h).boundPlaced

/-! ### An enrolment and a delete -/

/-- The record of an element, with its offset. -/
def elementRec (off : ℕ) (p : Path) (id : String) : Rec :=
  ⟨elementAddr p, .object [("id", .str id), ("name", .str id)], off, off⟩

/-- A machine bound to an element. -/
def machineOn (ulid element : String) : Entry := ⟨ulid, ulid, "", element, false⟩

/-- A node with two halls. The press stands in the first, and a child node replicated a gauge below it. -/
def halls : AtRest where
  kv := [elementRec 1 ["hall1"] "e1", elementRec 2 ["hall2"] "e2"]
  next := 3
  replicated := [⟨"child", ["hall1", "gauge"], "e3"⟩]
  entries := [machineOn "press" "e1", machineOn "gauge" "e3"]
  distinct := by simp [KV.Distinct, elementRec, elementAddr]
  placed := by decide +kernel

theorem halls_apart : Apart halls.kv halls.replicated := by
  intro r hr
  rw [mem_singleton.mp hr]
  decide +kernel

/-- Two identities are on elements of their own, a third one on what it declared, and two deletes were
refused. -/
def allPlaced (s : State) : Bool :=
  decide s.Quiet && s.entries.length = 3 && s.said.length = 2 && (elementAt s.kv ["hall2"]).isNone

/-- The press is asked about and stays, the empty hall goes, and a service is registered where nothing
stood. -/
theorem press_stays_placed : ∃ s, (machine halls).Reach Settled s ∧ allPlaced s = true ∧ BoundPlaced s := by
  obtain ⟨s, hs, hp⟩ := (machine halls).exists_reach Settled [.elementDelete [["hall1"]], .check,
      .editDelete [(.entity .systemElement "e1", 1)] .systemElement "e1" true, .ask "e1", .compose,
      .register "collector" ["hall3"], .author "e4" true, .observeConfig, .author "" true,
      .editDelete [(.entity .systemElement "e2", 2)] .systemElement "e2" true, .ask "e2",
      .registered "svc", .put true, .compose, .commitEdit true, .observeEdit] (allPlaced ·)
  exact ⟨s, hs, hp, bound_elements_placed halls halls_apart hs⟩

/-- A delete asks about the empty hall, a machine is enrolled there, and the delete commits. -/
theorem boundWhileDeleted_missing : ¬ ∀ s, (machine halls).Reachable s → BoundPlaced s := by
  intro hall
  obtain ⟨s, hs, hp⟩ := (machine halls).exists_reachable
    [.elementDelete [["hall2"]], .check, .enroll (machineOn "lathe" "e2"), .put true, .commitDelete true,
      .observeConfig] (¬ BoundPlaced ·)
  exact hp (hall s hs)

/-! ### Identities of their own -/

/-- Two identities share no id, and no key, name or element that they have. -/
structure Differ (x y : Entry) : Prop where
  ulid : x.ulid ≠ y.ulid
  pubkey : x.pubkey = y.pubkey → x.pubkey = ""
  name : x.name = y.name → x.name = ""
  element : x.element = y.element → x.element = ""

variable {s s' : State} {x y : Entry}

theorem differ_of_enrollRefusal {entries : List Entry} {index : ElementIndex}
    (h : enrollRefusal entries index x = none) (hy : y ∈ entries) (hne : y.ulid ≠ x.ulid) : Differ y x := by
  have hmem : y ∈ entries.filter (·.ulid ≠ x.ulid) := mem_filter.mpr ⟨hy, decide_eq_true hne⟩
  simp only [enrollRefusal] at h
  split at h
  · cases h
  rename_i hkey
  split at h
  · cases h
  rename_i hname
  have hkey := find?_eq_none.mp hkey y hmem
  have hname := find?_eq_none.mp hname y hmem
  refine ⟨hne, by grind, by grind, fun he ↦ ?_⟩
  split at h
  · rwa [he]
  split at h
  · cases h
  · rename_i hfree
    exact absurd (decide_eq_true he) (find?_eq_none.mp hfree y hmem)

/-- What the registry's lock keeps: the pending entry differs from all but the one it replaces. -/
structure Exclusive (s : State) : Prop where
  entries : s.entries.Pairwise Differ
  enrolling : ∀ x ∈ s.enrolling, ∀ y ∈ s.entries, y.ulid ≠ x.ulid → Differ y x

theorem Exclusive.put (h : Exclusive s) {ok : Bool} (hs : s.put ok = some s') : Exclusive s' := by
  unfold State.put at hs
  split at hs
  · cases hs
  rename_i x hx
  cases hs
  refine ⟨?_, nofun⟩
  cases ok with
  | false => exact h.entries
  | true =>
    refine pairwise_append.mpr ⟨h.entries.filter _, pairwise_singleton _ _, fun y hy z hz ↦ ?_⟩
    rw [mem_singleton.mp hz]
    obtain ⟨hy, hne⟩ := mem_filter.mp hy
    exact h.enrolling x hx y hy (of_decide_eq_true hne)

theorem Exclusive.step (h : Exclusive s) {ev : Event} (hs : step s ev = some s') : Exclusive s' := by
  have hsame (he : s'.entries = s.entries) (hx : s'.enrolling = s.enrolling) : Exclusive s' :=
    ⟨he ▸ h.entries, he ▸ hx ▸ h.enrolling⟩
  have hnew (x) (hok : enrollRefusal s.entries s.index x = none) (he : s'.entries = s.entries)
      (hx : s'.enrolling = some x) : Exclusive s' :=
    ⟨he ▸ h.entries, fun _ hy _ hz ↦ Option.some.inj (hx ▸ hy) ▸ differ_of_enrollRefusal hok (he ▸ hz)⟩
  have hfewer (p) (he : s'.entries = s.entries.filter p) (hx : s'.enrolling = none) : Exclusive s' :=
    ⟨he ▸ h.entries.filter p, hx ▸ nofun⟩
  cases ev with
  | put ok => exact h.put hs
  | enroll => simp only [Registry.step, State.enroll] at hs; grind [State.say]
  | registered => simp only [Registry.step, State.registered] at hs; grind
  | revoke => simp only [Registry.step, State.revoke] at hs; grind [State.say]
  | retire => simp only [Registry.step, State.retire] at hs; grind [State.say]
  | _ =>
    -- no other step takes the lock to write
    apply hsame <;>
    simp only [Registry.step, register, author, elementDelete, State.check, commitDelete, editDelete, ask,
      State.compose, commitEdit, observeConfig, observeEdit, observeRetired] at hs <;>
    grind [State.say, upsertNew, authorFails]

/-- **In every run** no two identities share an id, a key, a name or an element. -/
theorem identities_differ (n : AtRest) (hn : n.entries.Pairwise Differ) {s : State}
    (h : (machine n).Reachable s) : s.entries.Pairwise Differ :=
  (h.invariant (I := Exclusive) ⟨hn, fun _ h ↦ by cases h⟩ fun _ _ _ hi hs ↦ hi.step hs).entries

theorem identities_differ_halls : ∃ s, (machine halls).Reachable s ∧ s.entries.length = 3 ∧
    s.entries.Pairwise Differ := by
  obtain ⟨s, hs, hp⟩ := (machine halls).exists_reachable
    [.enroll (machineOn "lathe" "e1"), .enroll (machineOn "lathe" "e2"), .put true] (·.entries.length = 3)
  refine ⟨s, hs, by simpa using hp, identities_differ halls ?_ hs⟩
  exact pairwise_pair.mpr (by constructor <;> decide)

end Colca.Registry
