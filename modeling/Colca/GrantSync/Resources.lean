import Colca.GrantSync.Plan
import Mathlib.Data.List.Dedup

/-!
# A cycle leaves no resource to change

Keycloak knows a resource by an id and by a name. The plan finds resources by name and changes them by id, so
what it changes is what it found (`Registry`). After one cycle every element has a resource with its path and
the deployment's marker, and no marked resource is left of an element that is gone; the plan of the next cycle
is empty (`InStep.plan`).
-/

namespace Colca.GrantSync

open List Option

variable {elements : Map String} {l : List Resource} {owner : String} {ids : Ids}

theorem mem_sortedKeys {α : Type} {m : Map α} {k : String} : k ∈ sortedKeys m ↔ (m.lookup k).isSome = true := by
  rw [sortedKeys, mem_insertionSort, AList.lookup_isSome]
  exact Iff.rfl

variable {x : Resource} {name : String} {r : Resource}

theorem mem_of_byName (h : byName l name = some r) : r ∈ l ∧ r.name = name := by
  obtain ⟨hmem, hname⟩ := mem_filter.mp (mem_of_getLast? h)
  exact ⟨hmem, by simpa using hname⟩

theorem byName_eq_none : byName l name = none ↔ ∀ r ∈ l, r.name ≠ name := by
  rw [byName, getLast?_eq_none_iff, filter_eq_nil_iff]
  simp

/-- Names are unique, so a resource is found under its name. -/
theorem byName_of_mem (h : (l.map (·.name)).Nodup) (hr : r ∈ l) : byName l r.name = some r := by
  cases hfound : byName l r.name with
  | none => exact absurd rfl (byName_eq_none.mp hfound r hr)
  | some x =>
    obtain ⟨hx, hname⟩ := mem_of_byName hfound
    rw [inj_on_of_nodup_map h hx hr hname]

/-! ### What the writes do -/

/-- New resources are put behind the others, with ids of their own. -/
theorem foldl_createResource (ids : Ids) (rs l : List Resource) :
    ∃ new, rs.foldl (createResource ids) l = l ++ new ∧ (∀ x ∈ new, x.id ∉ l.map (·.id)) ∧
      (∀ x ∈ new, ∃ r ∈ rs, x = { r with id := x.id }) ∧ ∀ r ∈ rs, ∃ x ∈ new, x = { r with id := x.id } := by
  induction rs generalizing l with
  | nil => exact ⟨[], by simp, by simp, by simp, by simp⟩
  | cons r rs ih =>
    obtain ⟨new, heq, hids, hof, hall⟩ := ih (createResource ids l r)
    refine ⟨{ r with id := ids.new l } :: new, ?_, ?_, ?_, ?_⟩
    · rw [foldl_cons, heq, createResource, append_assoc]
      rfl
    · intro x hx
      rcases mem_cons.mp hx with rfl | hx
      · exact ids.fresh l
      · intro hold
        refine hids x hx ?_
        rw [createResource, map_append]
        exact mem_append_left _ hold
    · intro x hx
      rcases mem_cons.mp hx with rfl | hx
      · exact ⟨r, mem_cons_self, rfl⟩
      · obtain ⟨r', hr', heq'⟩ := hof x hx
        exact ⟨r', mem_cons_of_mem _ hr', heq'⟩
    · intro r' hr'
      rcases mem_cons.mp hr' with rfl | hr'
      · exact ⟨_, mem_cons_self, rfl⟩
      · obtain ⟨x, hx, heq'⟩ := hall r' hr'
        exact ⟨x, mem_cons_of_mem _ hx, heq'⟩

/-- What the updates make of one resource. -/
def updated (us : List Resource) (x : Resource) : Resource :=
  us.foldl (fun y u ↦ if y.id = u.id then u else y) x

theorem foldl_updateResource (us l : List Resource) : us.foldl updateResource l = l.map (updated us) := by
  induction us generalizing l with
  | nil => exact (map_id l).symm
  | cons u us ih =>
    rw [foldl_cons, ih, updateResource, List.map_map]
    rfl

/-- A resource is left alone by updates of other ids, and replaced by one of its own. -/
theorem updated_cases (us : List Resource) (x : Resource) :
    (updated us x = x ∧ ∀ u ∈ us, u.id ≠ x.id) ∨ (updated us x ∈ us ∧ (updated us x).id = x.id) := by
  induction us generalizing x with
  | nil => exact .inl ⟨rfl, fun u hu ↦ by cases hu⟩
  | cons u us ih =>
    have hcons : updated (u :: us) x = updated us (if x.id = u.id then u else x) := rfl
    by_cases hid : x.id = u.id
    · rw [hcons, if_pos hid, hid]
      rcases ih u with ⟨heq, -⟩ | ⟨hmem, heq⟩
      · rw [heq]
        exact .inr ⟨mem_cons_self, rfl⟩
      · exact .inr ⟨mem_cons_of_mem _ hmem, heq⟩
    · rw [hcons, if_neg hid]
      rcases ih x with ⟨heq, hall⟩ | ⟨hmem, heq⟩
      · refine .inl ⟨heq, fun v hv ↦ ?_⟩
        rcases mem_cons.mp hv with rfl | hv
        · exact Ne.symm hid
        · exact hall v hv
      · exact .inr ⟨mem_cons_of_mem _ hmem, heq⟩

theorem mem_foldl_deleteResource {ds : List Resource} :
    x ∈ ds.foldl deleteResource l ↔ x ∈ l ∧ ∀ d ∈ ds, x.id ≠ d.id := by
  induction ds generalizing l with
  | nil => simp
  | cons d ds ih =>
    rw [foldl_cons, ih, deleteResource, mem_filter]
    simp only [ne_eq, decide_eq_true_eq, forall_mem_cons]
    exact and_assoc

/-! ### What the plan contains -/

theorem mem_create : x ∈ (planResources elements l owner).create ↔
    ∃ name path, elements.lookup name = some path ∧ byName l name = none ∧
      x = elementResource owner "" name path := by
  simp only [planResources, mem_filterMap, mem_sortedKeys]
  constructor
  · rintro ⟨name, hlive, hx⟩
    obtain ⟨path, hpath⟩ := isSome_iff_exists.mp hlive
    cases hfound : byName l name with
    | none =>
      rw [hfound, hpath] at hx
      exact ⟨name, path, hpath, hfound, (some.inj hx).symm⟩
    | some r =>
      rw [hfound] at hx
      cases hx
  · rintro ⟨name, path, hpath, hfound, rfl⟩
    exact ⟨name, by rw [hpath]; rfl, by rw [hfound, hpath]; rfl⟩

theorem mem_update : x ∈ (planResources elements l owner).update ↔
    ∃ name path r, elements.lookup name = some path ∧ byName l name = some r ∧
      (r.displayName ≠ path ∨ owner ∉ r.managedBy) ∧ x = elementResource owner r.id name path := by
  simp only [planResources, mem_filterMap, mem_sortedKeys]
  constructor
  · rintro ⟨name, hlive, hx⟩
    obtain ⟨path, hpath⟩ := isSome_iff_exists.mp hlive
    cases hfound : byName l name with
    | none =>
      rw [hfound] at hx
      cases hx
    | some r =>
      rw [hfound, hpath] at hx
      dsimp only at hx
      split at hx
      · rename_i hneeds
        exact ⟨name, path, r, hpath, hfound, hneeds, (some.inj hx).symm⟩
      · cases hx
  · rintro ⟨name, path, r, hpath, hfound, hneeds, rfl⟩
    refine ⟨name, by rw [hpath]; rfl, ?_⟩
    rw [hfound, hpath]
    dsimp only
    rw [if_pos hneeds]

theorem mem_delete : x ∈ (planResources elements l owner).delete ↔
    ∃ name, byName l name = some x ∧ elements.lookup name = none ∧ x.type = elementResourceType ∧
      owner ∈ x.managedBy := by
  simp only [planResources, mem_filterMap, filter_eq_some_iff, Bool.and_eq_true, decide_eq_true_eq,
    isNone_iff_eq_none, contains_iff_mem]
  constructor
  · rintro ⟨name, -, hfound, ⟨hgone, htype⟩, hmarked⟩
    exact ⟨name, hfound, hgone, htype, hmarked⟩
  · rintro ⟨name, hfound, hgone, htype, hmarked⟩
    refine ⟨name, ?_, hfound, ⟨hgone, htype⟩, hmarked⟩
    obtain ⟨hmem, rfl⟩ := mem_of_byName hfound
    rw [resourceNames, mem_insertionSort, mem_dedup]
    exact mem_map_of_mem hmem

/-! ### The next cycle -/

/-- **Every element has its resource, and nothing marked is left of the others.** -/
structure InStep (elements : Map String) (owner : String) (l : List Resource) : Prop where
  registered : ∀ name path, elements.lookup name = some path → ∃ r ∈ l, r.name = name
  labelled : ∀ r ∈ l, ∀ path, elements.lookup r.name = some path → r.displayName = path ∧ owner ∈ r.managedBy
  removed : ∀ r ∈ l, elements.lookup r.name = none → r.type = elementResourceType → owner ∉ r.managedBy

/-- A plan over resources in step is empty. -/
theorem InStep.plan (h : InStep elements owner l) : (planResources elements l owner).create = [] ∧
    (planResources elements l owner).update = [] ∧ (planResources elements l owner).delete = [] := by
  refine ⟨?_, ?_, ?_⟩
  · refine eq_nil_iff_forall_not_mem.mpr fun x hx ↦ ?_
    obtain ⟨name, path, hpath, hnone, -⟩ := mem_create.mp hx
    obtain ⟨r, hr, hname⟩ := h.registered name path hpath
    exact byName_eq_none.mp hnone r hr hname
  · refine eq_nil_iff_forall_not_mem.mpr fun x hx ↦ ?_
    obtain ⟨name, path, r, hpath, hfound, hneeds, -⟩ := mem_update.mp hx
    obtain ⟨hr, rfl⟩ := mem_of_byName hfound
    obtain ⟨hdisplay, howner⟩ := h.labelled r hr path hpath
    exact hneeds.elim (fun hne ↦ hne hdisplay) (fun hno ↦ hno howner)
  · refine eq_nil_iff_forall_not_mem.mpr fun x hx ↦ ?_
    obtain ⟨name, hfound, hgone, htype, hmarked⟩ := mem_delete.mp hx
    obtain ⟨hr, rfl⟩ := mem_of_byName hfound
    exact h.removed x hr hgone htype hmarked

/-- Where the resources after a cycle come from. -/
theorem mem_applyResources (kc : Registry)
    (h : x ∈ applyResources ids kc.resources (planResources elements kc.resources owner)) :
    (∃ name path, elements.lookup name = some path ∧ x = elementResource owner x.id name path) ∨
      (x ∈ kc.resources ∧ (∀ u ∈ (planResources elements kc.resources owner).update, u.id ≠ x.id) ∧
        ∀ d ∈ (planResources elements kc.resources owner).delete, x.id ≠ d.id) := by
  obtain ⟨new, hnew, -, hof, -⟩ :=
    foldl_createResource ids (planResources elements kc.resources owner).create kc.resources
  rw [applyResources, hnew, foldl_updateResource, mem_foldl_deleteResource] at h
  obtain ⟨hmem, hkept⟩ := h
  obtain ⟨y, hy, rfl⟩ := mem_map.mp hmem
  rcases updated_cases (planResources elements kc.resources owner).update y with ⟨heq, hnone⟩ | ⟨hu, -⟩
  · rw [heq] at hkept ⊢
    rcases mem_append.mp hy with hy | hy
    · exact .inr ⟨hy, hnone, hkept⟩
    · obtain ⟨r, hr, hyr⟩ := hof y hy
      obtain ⟨name, path, hpath, -, rfl⟩ := mem_create.mp hr
      exact .inl ⟨name, path, hpath, hyr⟩
  · obtain ⟨name, path, r, hpath, -, -, heq⟩ := mem_update.mp hu
    exact .inl ⟨name, path, hpath, by rw [heq]; rfl⟩

/-- A resource the plan does not delete is there after the cycle, under its name. -/
theorem exists_of_kept (kc : Registry) {y : Resource} {path : String} (hy : y ∈ kc.resources)
    (hpath : elements.lookup y.name = some path) :
    ∃ r ∈ applyResources ids kc.resources (planResources elements kc.resources owner), r.name = y.name := by
  obtain ⟨new, hnew, -, -, -⟩ :=
    foldl_createResource ids (planResources elements kc.resources owner).create kc.resources
  have hinj := inj_on_of_nodup_map kc.ids
  have hcases := updated_cases (planResources elements kc.resources owner).update y
  refine ⟨updated (planResources elements kc.resources owner).update y, ?_, ?_⟩
  · rw [applyResources, hnew, foldl_updateResource, mem_foldl_deleteResource]
    refine ⟨mem_map_of_mem (mem_append_left _ hy), fun d hd heq ↦ ?_⟩
    -- what is deleted has the name of no element
    obtain ⟨name, hfound, hgone, -⟩ := mem_delete.mp hd
    obtain ⟨hmem, rfl⟩ := mem_of_byName hfound
    have hid : y.id = d.id := by
      rcases hcases with ⟨hsame, -⟩ | ⟨-, hsame⟩
      · rw [hsame] at heq
        exact heq
      · exact hsame.symm.trans heq
    rw [← hinj hy hmem hid, hpath] at hgone
    cases hgone
  · rcases hcases with ⟨heq, -⟩ | ⟨hu, hid⟩
    · rw [heq]
    · obtain ⟨name, path', r, -, hfound, -, heq⟩ := mem_update.mp hu
      obtain ⟨hmem, rfl⟩ := mem_of_byName hfound
      rw [heq] at hid ⊢
      rw [hinj hmem hy hid]
      rfl

theorem inStep_applyResources (ids : Ids) (owner : String) (elements : Map String) (kc : Registry) :
    InStep elements owner (applyResources ids kc.resources (planResources elements kc.resources owner)) where
  registered := by
    intro name path hpath
    cases hfound : byName kc.resources name with
    | some y =>
      obtain ⟨hy, rfl⟩ := mem_of_byName hfound
      exact exists_of_kept kc hy hpath
    | none =>
      have hcreate : elementResource owner "" name path ∈ (planResources elements kc.resources owner).create :=
        mem_create.mpr ⟨name, path, hpath, hfound, rfl⟩
      obtain ⟨new, hnew, hids, -, hall⟩ :=
        foldl_createResource ids (planResources elements kc.resources owner).create kc.resources
      obtain ⟨x, hx, heq⟩ := hall _ hcreate
      refine ⟨x, ?_, by rw [heq]; rfl⟩
      -- its id is new, so nothing else in the plan is about it
      have hother : ∀ r ∈ kc.resources, r.id ≠ x.id := by
        intro r hr heq
        exact hids x hx (heq ▸ mem_map_of_mem hr)
      rw [applyResources, hnew, foldl_updateResource, mem_foldl_deleteResource]
      refine ⟨mem_map.mpr ⟨x, mem_append_right _ hx, ?_⟩, fun d hd ↦ ?_⟩
      · rcases updated_cases (planResources elements kc.resources owner).update x with ⟨hsame, -⟩ | ⟨hu, hid⟩
        · exact hsame
        · obtain ⟨name', path', r, -, hfound', -, heq'⟩ := mem_update.mp hu
          rw [heq'] at hid
          exact absurd hid (hother r (mem_of_byName hfound').1)
      · obtain ⟨name', hfound', -⟩ := mem_delete.mp hd
        exact (hother d (mem_of_byName hfound').1).symm
  labelled := by
    intro r hr path hpath
    rcases mem_applyResources kc hr with ⟨name, path', hpath', heq⟩ | ⟨hmem, hupdate, -⟩
    · have hname : r.name = name := congrArg Resource.name heq
      rw [hname, hpath'] at hpath
      cases hpath
      refine ⟨congrArg Resource.displayName heq, ?_⟩
      rw [congrArg Resource.managedBy heq]
      exact mem_singleton_self owner
    · by_contra hbad
      refine hupdate (elementResource owner r.id r.name path) (mem_update.mpr ⟨r.name, path, r, hpath,
        byName_of_mem kc.names hmem, ?_, rfl⟩) rfl
      rwa [← not_and_or]
  removed := by
    intro r hr hgone htype hmarked
    rcases mem_applyResources kc hr with ⟨name, path, hpath, heq⟩ | ⟨hmem, -, hdelete⟩
    · have hname : r.name = name := congrArg Resource.name heq
      rw [hname, hpath] at hgone
      cases hgone
    · exact hdelete r (mem_delete.mpr ⟨r.name, byName_of_mem kc.names hmem, hgone, htype, hmarked⟩) rfl

end Colca.GrantSync
