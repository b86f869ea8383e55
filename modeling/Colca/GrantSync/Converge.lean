import Colca.GrantSync.Resources
import Mathlib.Algebra.Order.BigOperators.Group.List

/-!
# Whether a cycle converges and revokes

The plan sees one definition of a group id, the one of the author that is listed last (`IsTop`). Where that is
another node's, the root's own definition under the id is hidden from the plan: it is not retracted when
Keycloak grants the group nothing any more, it is not written when the other one happens to have the right
grants, and when the other one has other grants it is written again in every cycle.

`converges_iff` says that these are the only ways: a cycle converges exactly when, wherever another node's
definition hides the root's, it has the compiled grants and the root's has them too, or there is neither a
grant nor a definition of the root's.
-/

namespace Colca.GrantSync

open List Option Def

variable {root : String} {desired : Map (List String)} {defs : List Def} {d e new : Def} {id : String}

/-! ### The listing -/

theorem Def.Before.trans {f : Def} (h : d.Before e) (h' : e.Before f) : d.Before f := by
  rcases h with hlt | ⟨heq, hlt⟩
  · rcases h' with hlt' | ⟨heq', -⟩
    · exact .inl (hlt.trans hlt')
    · exact .inl (heq' ▸ hlt)
  · rcases h' with hlt' | ⟨heq', hlt'⟩
    · exact .inl (heq ▸ hlt')
    · exact .inr ⟨heq.trans heq', hlt.trans hlt'⟩

/-- Two definitions are the same one, or stand one before the other. -/
theorem Def.before_or_of_key (h : ¬(d.id = e.id ∧ d.author = e.author)) (hnot : ¬ d.Before e) : e.Before d := by
  rcases lt_trichotomy d.id e.id with hlt | heq | hgt
  · exact absurd (.inl hlt) hnot
  · rcases lt_trichotomy d.author e.author with hlt | heq' | hgt
    · exact absurd (.inr ⟨heq, hlt⟩) hnot
    · exact absurd ⟨heq, heq'⟩ h
    · exact .inr ⟨heq.symm, hgt⟩
  · exact .inl hgt

/-- An author has one definition of an id. -/
theorem eq_of_key (hs : defs.Pairwise Before) (hd : d ∈ defs) (he : e ∈ defs) (hid : d.id = e.id)
    (hauthor : d.author = e.author) : d = e := by
  have hkeys : (defs.map fun x ↦ (x.id, x.author)).Nodup := by
    refine pairwise_map.mpr (hs.imp ?_)
    rintro x y (hlt | ⟨-, hlt⟩) heq
    · exact hlt.ne (congrArg Prod.fst heq)
    · exact hlt.ne (congrArg Prod.snd heq)
  exact inj_on_of_nodup_map hkeys hd he (Prod.ext hid hauthor)

/-- The definition of an id that is listed last. -/
structure IsTop (defs : List Def) (id : String) (d : Def) : Prop where
  mem : d ∈ defs
  id_eq : d.id = id
  last : ∀ e ∈ defs, e.id = id → e.author ≤ d.author

theorem IsTop.unique (hs : defs.Pairwise Before) (hd : IsTop defs id d) (he : IsTop defs id e) : d = e :=
  eq_of_key hs hd.mem he.mem (hd.id_eq.trans he.id_eq.symm)
    (le_antisymm (he.last d hd.mem hd.id_eq) (hd.last e he.mem he.id_eq))

theorem getLast?_filter_iff (hs : defs.Pairwise Before) :
    (defs.filter (·.id = id)).getLast? = some d ↔ IsTop defs id d := by
  have hlast : ∀ d, (defs.filter (·.id = id)).getLast? = some d → IsTop defs id d := by
    intro d hd
    obtain ⟨before, hsplit⟩ := getLast?_eq_some_iff.mp hd
    have hmem : ∀ x, x ∈ before ++ [d] ↔ x ∈ defs ∧ x.id = id := by
      intro x
      rw [← hsplit, mem_filter, decide_eq_true_eq]
    obtain ⟨hd', hid⟩ := (hmem d).mp (by simp)
    refine ⟨hd', hid, fun e he heid ↦ ?_⟩
    rcases mem_append.mp ((hmem e).mpr ⟨he, heid⟩) with hbefore | hlast
    · have hpair := hs.filter (·.id = id)
      rw [hsplit] at hpair
      rcases (pairwise_append.mp hpair).2.2 e hbefore d (by simp) with hlt | ⟨-, hlt⟩
      · exact absurd (heid.trans hid.symm) hlt.ne
      · exact hlt.le
    · rw [mem_singleton.mp hlast]
  refine ⟨hlast d, fun h ↦ ?_⟩
  cases hlast' : (defs.filter (·.id = id)).getLast? with
  | none =>
    have hempty := filter_eq_nil_iff.mp (getLast?_eq_none_iff.mp hlast') d h.mem
    exact absurd (decide_eq_true h.id_eq) hempty
  | some e => rw [(hlast e hlast').unique hs h]

/-- An id with a definition has one that is listed last. -/
theorem exists_isTop (hs : defs.Pairwise Before) (hd : d ∈ defs) : ∃ e, IsTop defs d.id e := by
  cases hlast : (defs.filter (·.id = d.id)).getLast? with
  | none =>
    have hempty := filter_eq_nil_iff.mp (getLast?_eq_none_iff.mp hlast) d hd
    exact absurd (decide_eq_true rfl) hempty
  | some e => exact ⟨e, (getLast?_filter_iff hs).mp hlast⟩

/-! ### What the cycle sees -/

/-- A definition as the view has it. -/
def Def.held (d : Def) : HeldGroup := ⟨d.id, d.grants, d.author⟩

/-- The entry of a definition. -/
def Def.entry (d : Def) : KVEntry := ⟨"_Group", d.author, d.id, d.author, some (d.id, d.grants)⟩

theorem take_entry (v : TreeView) (h : d.id ≠ "") :
    v.take d.entry = { v with groups := v.groups.insert d.id d.held } := by
  have hauthor : (if d.author = "" then d.author else d.author) = d.author := by split <;> rfl
  have htake : v.take d.entry = if d.id = "" then v else { v with
      groups := v.groups.insert d.id ⟨d.id, d.grants, if d.author = "" then d.author else d.author⟩ } := rfl
  rw [htake, if_neg h, hauthor]
  rfl

/-- Definitions leave the elements of the view alone, and of each id the last one stays. -/
theorem foldl_take_defs (v : TreeView) (hnamed : ∀ d ∈ defs, d.id ≠ "") :
    ((defs.map entry).foldl TreeView.take v).elements = v.elements ∧
      ∀ id, ((defs.map entry).foldl TreeView.take v).groups.lookup id =
        ((defs.filter (·.id = id)).getLast?.map Def.held).or (v.groups.lookup id) := by
  induction defs using List.reverseRecOn with
  | nil => exact ⟨rfl, fun id ↦ rfl⟩
  | append_singleton defs d ih =>
    obtain ⟨helements, hgroups⟩ := ih fun e he ↦ hnamed e (mem_append_left _ he)
    rw [map_append, foldl_append]
    show ((_ : TreeView).take d.entry).elements = _ ∧ ∀ id, ((_ : TreeView).take d.entry).groups.lookup id = _
    rw [take_entry _ (hnamed d (by simp))]
    refine ⟨helements, fun id ↦ ?_⟩
    rw [filter_append]
    by_cases hid : d.id = id
    · subst hid
      simp [AList.lookup_insert]
    · have hne : id ≠ d.id := fun heq ↦ hid heq.symm
      simp [hid, AList.lookup_insert_ne hne, hgroups]

/-- Elements leave the groups of the view alone. -/
theorem foldl_take_elements (elements : List (String × String)) (v : TreeView) :
    ((elements.map fun x ↦ (⟨"_SystemElement", "", x.2, "", some (x.1, [])⟩ : KVEntry)).foldl TreeView.take
      v).groups = v.groups := by
  induction elements generalizing v with
  | nil => rfl
  | cons x rest ih =>
    rw [map_cons, foldl_cons, ih]
    simp only [TreeView.take]
    split <;> rfl

/-- The elements of a listing, as the view has them. -/
def elementView (elements : List (String × String)) : Map String :=
  ((elements.map fun x ↦ (⟨"_SystemElement", "", x.2, "", some (x.1, [])⟩ : KVEntry)).foldl TreeView.take
    ⟨∅, ∅⟩).elements

/-- **What the view holds**: the elements, and of each group id the definition listed last. -/
theorem parseKV_listing (elements : List (String × String)) (hnamed : ∀ d ∈ defs, d.id ≠ "") :
    (parseKV (listing elements defs)).elements = elementView elements ∧
      ∀ id, (parseKV (listing elements defs)).groups.lookup id =
        (defs.filter (·.id = id)).getLast?.map Def.held := by
  rw [parseKV, listing, foldl_append]
  obtain ⟨helements, hgroups⟩ := foldl_take_defs (_ : TreeView) hnamed
  refine ⟨helements, fun id ↦ (hgroups id).trans ?_⟩
  rw [foldl_take_elements]
  simp

/-- The view of a group is the definition listed last. -/
theorem lookup_groups_iff (elements : List (String × String)) (hs : defs.Pairwise Before)
    (hnamed : ∀ d ∈ defs, d.id ≠ "") {h : HeldGroup} :
    (parseKV (listing elements defs)).groups.lookup id = some h ↔ ∃ d, IsTop defs id d ∧ h = d.held := by
  rw [(parseKV_listing elements hnamed).2 id, map_eq_some_iff]
  constructor
  · rintro ⟨d, hd, rfl⟩
    exact ⟨d, (getLast?_filter_iff hs).mp hd, rfl⟩
  · rintro ⟨d, hd, rfl⟩
    exact ⟨d, (getLast?_filter_iff hs).mpr hd, rfl⟩

/-! ### What the commands do -/

theorem mem_putDef (hs : defs.Pairwise Before) :
    e ∈ putDef new defs ↔ e = new ∨ (e ∈ defs ∧ ¬(e.id = new.id ∧ e.author = new.author)) := by
  induction defs with
  | nil => simp [putDef]
  | cons d rest ih =>
    obtain ⟨hd, hrest⟩ := pairwise_cons.mp hs
    rw [putDef]
    split
    · rename_i hkey
      -- the others have other keys
      have hother : ∀ x ∈ rest, ¬(x.id = new.id ∧ x.author = new.author) := by
        rintro x hx ⟨hid, hauthor⟩
        rcases hd x hx with hlt | ⟨-, hlt⟩
        · exact hlt.ne (hkey.1.trans hid.symm)
        · exact hlt.ne (hkey.2.trans hauthor.symm)
      rw [mem_cons, mem_cons]
      constructor
      · rintro (rfl | hx)
        · exact .inl rfl
        · exact .inr ⟨.inr hx, hother e hx⟩
      · rintro (rfl | ⟨rfl | hx, hnot⟩)
        · exact .inl rfl
        · exact absurd hkey hnot
        · exact .inr hx
    · rename_i hkey
      split
      · rename_i hbefore
        have hother : ∀ x ∈ d :: rest, ¬(x.id = new.id ∧ x.author = new.author) := by
          intro x hx
          rcases mem_cons.mp hx with rfl | hx
          · exact hkey
          · rintro ⟨hid, hauthor⟩
            rcases hbefore.trans (hd x hx) with hlt | ⟨-, hlt⟩
            · exact hlt.ne hid.symm
            · exact hlt.ne hauthor.symm
        rw [mem_cons]
        exact or_congr_right ⟨fun hx ↦ ⟨hx, hother e hx⟩, fun hx ↦ hx.1⟩
      · rw [mem_cons, ih hrest, mem_cons]
        constructor
        · rintro (rfl | rfl | ⟨hx, hnot⟩)
          · exact .inr ⟨.inl rfl, hkey⟩
          · exact .inl rfl
          · exact .inr ⟨.inr hx, hnot⟩
        · rintro (rfl | ⟨rfl | hx, hnot⟩)
          · exact .inr (.inl rfl)
          · exact .inl rfl
          · exact .inr (.inr ⟨hx, hnot⟩)

theorem putDef_sorted (new : Def) (hs : defs.Pairwise Before) : (putDef new defs).Pairwise Before := by
  induction defs with
  | nil => exact pairwise_singleton _ _
  | cons d rest ih =>
    obtain ⟨hd, hrest⟩ := pairwise_cons.mp hs
    rw [putDef]
    split
    · rename_i hkey
      refine pairwise_cons.mpr ⟨fun x hx ↦ ?_, hrest⟩
      have hbefore := hd x hx
      rwa [Before, hkey.1, hkey.2] at hbefore
    · rename_i hkey
      split
      · rename_i hbefore
        refine pairwise_cons.mpr ⟨fun x hx ↦ ?_, hs⟩
        rcases mem_cons.mp hx with rfl | hx
        · exact hbefore
        · exact hbefore.trans (hd x hx)
      · rename_i hnot
        refine pairwise_cons.mpr ⟨fun x hx ↦ ?_, ih hrest⟩
        rcases (mem_putDef hrest).mp hx with rfl | ⟨hx, -⟩
        · exact before_or_of_key (fun heq ↦ hkey ⟨heq.1.symm, heq.2.symm⟩) hnot
        · exact hd x hx

/-- Definitions are written. -/
theorem mem_foldl_putDef (root : String) {xs : List GroupDefinition} (hxs : ∀ x ∈ xs, desired.lookup x.id = some x.grants)
    (hs : defs.Pairwise Before) :
    (xs.foldl (fun defs x ↦ putDef ⟨root, x.id, x.grants⟩ defs) defs).Pairwise Before ∧
      ∀ d, d ∈ xs.foldl (fun defs x ↦ putDef ⟨root, x.id, x.grants⟩ defs) defs ↔
        (d.author = root ∧ (∃ x ∈ xs, x.id = d.id) ∧ desired.lookup d.id = some d.grants) ∨
          (d ∈ defs ∧ ¬(d.author = root ∧ ∃ x ∈ xs, x.id = d.id)) := by
  induction xs generalizing defs with
  | nil => exact ⟨hs, fun d ↦ by simp⟩
  | cons x xs ih =>
    have hx := hxs x mem_cons_self
    obtain ⟨hsorted, hmem⟩ := ih (fun y hy ↦ hxs y (mem_cons_of_mem _ hy))
      (putDef_sorted ⟨root, x.id, x.grants⟩ hs)
    refine ⟨hsorted, fun d ↦ ?_⟩
    rw [foldl_cons, hmem d, mem_putDef hs]
    simp only [exists_mem_cons_iff]
    constructor
    · rintro (⟨hroot, hin, hgrants⟩ | ⟨rfl | ⟨hd, hkey⟩, hnot⟩)
      · exact .inl ⟨hroot, .inr hin, hgrants⟩
      · exact .inl ⟨rfl, .inl rfl, hx⟩
      · refine .inr ⟨hd, ?_⟩
        rintro ⟨hroot, heq | hin⟩
        · exact hkey ⟨heq.symm, hroot⟩
        · exact hnot ⟨hroot, hin⟩
    · rintro (⟨hroot, heq | hin, hgrants⟩ | ⟨hd, hnot⟩)
      · by_cases hin : ∃ y ∈ xs, y.id = d.id
        · exact .inl ⟨hroot, hin, hgrants⟩
        · refine .inr ⟨.inl ?_, fun hboth ↦ hin hboth.2⟩
          rw [heq, hgrants] at hx
          cases d
          simp_all
      · exact .inl ⟨hroot, hin, hgrants⟩
      · refine .inr ⟨.inr ⟨hd, fun hkey ↦ hnot ⟨hkey.2, .inl hkey.1.symm⟩⟩, fun hboth ↦ ?_⟩
        exact hnot ⟨hboth.1, .inr hboth.2⟩

/-- Definitions are retracted. -/
theorem mem_foldl_dropDef (root : String) (ids : List String) (hs : defs.Pairwise Before) :
    (ids.foldl (fun defs id ↦ dropDef root id defs) defs).Pairwise Before ∧
      ∀ d, d ∈ ids.foldl (fun defs id ↦ dropDef root id defs) defs ↔ d ∈ defs ∧ ¬(d.author = root ∧ d.id ∈ ids) := by
  induction ids generalizing defs with
  | nil => exact ⟨hs, fun d ↦ by simp⟩
  | cons id ids ih =>
    have hkept : (dropDef root id defs).Pairwise Before := hs.filter _
    obtain ⟨hsorted, hmem⟩ := ih hkept
    refine ⟨hsorted, fun d ↦ ?_⟩
    rw [foldl_cons, hmem d, dropDef, mem_filter, decide_eq_true_eq, mem_cons]
    tauto

/-! ### What the plan contains -/

variable {tree : TreeView}

theorem lookup_of_mem_upsert {x : GroupDefinition}
    (h : x ∈ (planDefinitions desired tree root).upsert) : desired.lookup x.id = some x.grants := by
  simp only [planDefinitions, mem_filterMap] at h
  obtain ⟨group, -, hx⟩ := h
  obtain ⟨grants, hgrants, hx⟩ := bind_eq_some_iff.mp hx
  split at hx
  · cases hx
  · cases hx
    exact hgrants

theorem exists_upsert_iff : (∃ x ∈ (planDefinitions desired tree root).upsert, x.id = id) ↔
    ∃ g, desired.lookup id = some g ∧ ∀ h, tree.groups.lookup id = some h → h.grants ≠ g := by
  simp only [planDefinitions, mem_filterMap, mem_sortedKeys]
  constructor
  · rintro ⟨x, ⟨group, -, hx⟩, rfl⟩
    obtain ⟨grants, hgrants, hx⟩ := bind_eq_some_iff.mp hx
    split at hx
    · cases hx
    · rename_i hother
      cases hx
      refine ⟨grants, hgrants, fun h hh heq ↦ hother ?_⟩
      rw [hh, any_some, decide_eq_true heq]
  · rintro ⟨g, hg, hother⟩
    refine ⟨⟨id, id, g⟩, ⟨id, by rw [hg]; rfl, ?_⟩, rfl⟩
    rw [hg, bind_some, if_neg]
    intro hany
    obtain ⟨h, hh, heq⟩ := (Option.any_eq_true _ _).mp hany
    exact hother h hh (of_decide_eq_true heq)

theorem mem_retract_iff : id ∈ (planDefinitions desired tree root).retract ↔
    desired.lookup id = none ∧ ∃ h, tree.groups.lookup id = some h ∧ h.author = root := by
  simp only [planDefinitions, mem_filter, mem_sortedKeys, Bool.and_eq_true, isNone_iff_eq_none,
    Option.any_eq_true, decide_eq_true_eq]
  constructor
  · rintro ⟨-, hnone, h, hh, hauthor⟩
    exact ⟨hnone, h, hh, hauthor⟩
  · rintro ⟨hnone, h, hh, hauthor⟩
    exact ⟨by rw [hh]; rfl, hnone, h, hh, hauthor⟩

/-! ### One cycle and the next -/

/-- The plan for definitions. -/
def definitionPlan (root : String) (desired : Map (List String)) (elements : List (String × String))
    (defs : List Def) : DefinitionPlan :=
  planDefinitions desired (parseKV (listing elements defs)) root

/-- The definitions after a cycle. -/
def cycle (root : String) (desired : Map (List String)) (t : Tree) : List Def :=
  applyDefinitions root (definitionPlan root desired t.elements t.defs) t.defs

/-- The plan for resources. -/
def resourcePlan (owner : String) (elements : List (String × String)) (defs : List Def) (l : List Resource) :
    ResourcePlan :=
  planResources (parseKV (listing elements defs)).elements l owner

/-- The resources after a cycle. -/
def cycleResources (ids : Ids) (owner : String) (t : Tree) (kc : Registry) : List Resource :=
  applyResources ids kc.resources (resourcePlan owner t.elements t.defs kc.resources)

/-- **The cycle converges and revokes.** -/
structure Converges (ids : Ids) (owner root : String) (desired : Map (List String)) (t : Tree) (kc : Registry) :
    Prop where
  revoked : ∀ d ∈ cycle root desired t, d.author = root → desired.lookup d.id ≠ none
  granted : ∀ d ∈ cycle root desired t, d.author = root → ∀ g, desired.lookup d.id = some g → d.grants = g
  others : ∀ d, d.author ≠ root → (d ∈ cycle root desired t ↔ d ∈ t.defs)
  /-- The next cycle plans no change to definitions … -/
  upserts : (definitionPlan root desired t.elements (cycle root desired t)).upsert = []
  retracts : (definitionPlan root desired t.elements (cycle root desired t)).retract = []
  /-- … nor to resources. -/
  creates : (resourcePlan owner t.elements (cycle root desired t) (cycleResources ids owner t kc)).create = []
  updates : (resourcePlan owner t.elements (cycle root desired t) (cycleResources ids owner t kc)).update = []
  deletes : (resourcePlan owner t.elements (cycle root desired t) (cycleResources ids owner t kc)).delete = []

/-- Wherever another node's definition hides the root's from the plan, it has the compiled grants, and so has the
root's. -/
def Agreeing (root : String) (desired : Map (List String)) (defs : List Def) : Prop :=
  ∀ id d, IsTop defs id d → root < d.author →
    (∀ g, desired.lookup id = some g → d.grants = g) ∧
      ∀ r ∈ defs, r.id = id → r.author = root → desired.lookup id = some r.grants

section Cycle

variable {t : Tree}

/-- A group is written, as the plan has it. -/
def Written (desired : Map (List String)) (t : Tree) (id : String) : Prop :=
  ∃ g, desired.lookup id = some g ∧ ∀ d, IsTop t.defs id d → d.grants ≠ g

theorem exists_upsert (t : Tree) :
    (∃ x ∈ (definitionPlan root desired t.elements t.defs).upsert, x.id = id) ↔ Written desired t id := by
  rw [definitionPlan, exists_upsert_iff]
  refine exists_congr fun g ↦ and_congr_right fun _ ↦ ⟨fun h d hd ↦ ?_, fun h held hheld ↦ ?_⟩
  · exact h d.held ((lookup_groups_iff _ t.sorted t.named).mpr ⟨d, hd, rfl⟩)
  · obtain ⟨d, hd, rfl⟩ := (lookup_groups_iff _ t.sorted t.named).mp hheld
    exact h d hd

theorem mem_retract (t : Tree) : id ∈ (definitionPlan root desired t.elements t.defs).retract ↔
    desired.lookup id = none ∧ ∃ d, IsTop t.defs id d ∧ d.author = root := by
  rw [definitionPlan, mem_retract_iff]
  refine and_congr_right fun _ ↦ ⟨?_, ?_⟩
  · rintro ⟨held, hheld, hauthor⟩
    obtain ⟨d, hd, rfl⟩ := (lookup_groups_iff _ t.sorted t.named).mp hheld
    exact ⟨d, hd, hauthor⟩
  · rintro ⟨d, hd, hauthor⟩
    exact ⟨d.held, (lookup_groups_iff _ t.sorted t.named).mpr ⟨d, hd, rfl⟩, hauthor⟩

/-- **The definitions after a cycle.** -/
theorem mem_cycle (t : Tree) : (cycle root desired t).Pairwise Before ∧ ∀ d, d ∈ cycle root desired t ↔
    (d.author = root ∧ Written desired t d.id ∧ desired.lookup d.id = some d.grants) ∨
      (d ∈ t.defs ∧ (d.author = root → ¬ Written desired t d.id ∧
        ¬(desired.lookup d.id = none ∧ ∃ x, IsTop t.defs d.id x ∧ x.author = root))) := by
  have hupsert : ∀ x ∈ (definitionPlan root desired t.elements t.defs).upsert,
      desired.lookup x.id = some x.grants := fun x hx ↦ lookup_of_mem_upsert hx
  have hput := mem_foldl_putDef root hupsert t.sorted
  have hdrop := mem_foldl_dropDef root (definitionPlan root desired t.elements t.defs).retract hput.1
  refine ⟨hdrop.1, fun d ↦ ?_⟩
  rw [cycle, applyDefinitions, hdrop.2 d, hput.2 d, exists_upsert, mem_retract]
  constructor
  · rintro ⟨⟨hauthor, hwritten, hgrants⟩ | ⟨hd, hnot⟩, hkept⟩
    · exact .inl ⟨hauthor, hwritten, hgrants⟩
    · exact .inr ⟨hd, fun hauthor ↦ ⟨fun hwritten ↦ hnot ⟨hauthor, hwritten⟩, fun hret ↦ hkept ⟨hauthor, hret⟩⟩⟩
  · rintro (⟨hauthor, hwritten, hgrants⟩ | ⟨hd, hkept⟩)
    · refine ⟨.inl ⟨hauthor, hwritten, hgrants⟩, fun hret ↦ ?_⟩
      rw [hret.2.1] at hgrants
      cases hgrants
    · exact ⟨.inr ⟨hd, fun hboth ↦ (hkept hboth.1).1 hboth.2⟩, fun hret ↦ (hkept hret.1).2 hret.2⟩

/-- Other nodes' definitions are left alone. -/
theorem mem_cycle_of_ne (t : Tree) (hd : d.author ≠ root) : d ∈ cycle root desired t ↔ d ∈ t.defs := by
  rw [(mem_cycle t).2 d]
  constructor
  · rintro (⟨hauthor, -⟩ | ⟨hmem, -⟩)
    · exact absurd hauthor hd
    · exact hmem
  · exact fun hmem ↦ .inr ⟨hmem, fun hauthor ↦ absurd hauthor hd⟩

theorem cycle_named (hgroups : desired.lookup "" = none) (t : Tree) : ∀ d ∈ cycle root desired t, d.id ≠ "" := by
  intro d hd hid
  rcases ((mem_cycle t).2 d).mp hd with ⟨-, -, hgrants⟩ | ⟨hmem, -⟩
  · rw [hid, hgroups] at hgrants
    cases hgrants
  · exact t.named d hmem hid

/-- A definition of an author that is listed behind the root stays the last of its id. -/
theorem IsTop.cycle (h : IsTop t.defs id d) (hlt : root < d.author) : IsTop (cycle root desired t) id d := by
  refine ⟨(mem_cycle_of_ne t hlt.ne').mpr h.mem, h.id_eq, fun e he hid ↦ ?_⟩
  by_cases hauthor : e.author = root
  · rw [hauthor]
    exact hlt.le
  · exact h.last e ((mem_cycle_of_ne t hauthor).mp he) hid

/-- After a cycle the last definition of an id is the root's, or it was the last before. -/
theorem IsTop.of_cycle (h : IsTop (GrantSync.cycle root desired t) id d) (hauthor : d.author ≠ root)
    (hown : ∃ r ∈ GrantSync.cycle root desired t, r.id = id ∧ r.author = root) :
    IsTop t.defs id d ∧ root < d.author := by
  obtain ⟨r, hr, hid, hrauthor⟩ := hown
  have hlt : root < d.author := lt_of_le_of_ne (hrauthor ▸ h.last r hr hid) (Ne.symm hauthor)
  refine ⟨⟨(mem_cycle_of_ne t hauthor).mp h.mem, h.id_eq, fun e he heid ↦ ?_⟩, hlt⟩
  by_cases heauthor : e.author = root
  · rw [heauthor]
    exact hlt.le
  · exact h.last e ((mem_cycle_of_ne t heauthor).mpr he) heid

/-- A definition of the root's behind which no other one is listed is the last of its id. -/
theorem IsTop.of_root (htop : IsTop t.defs id d) (hd : ¬ root < d.author) {r : Def} (hr : r ∈ t.defs)
    (hid : r.id = id) (hauthor : r.author = root) : d = r := by
  have hle := htop.last r hr hid
  rw [hauthor] at hle
  exact eq_of_key t.sorted htop.mem hr (htop.id_eq.trans hid.symm)
    ((le_antisymm (not_lt.mp hd) hle).trans hauthor.symm)

/-- **Where nothing is hidden, the root's definitions are the compiled ones.** -/
theorem Agreeing.own (h : Agreeing root desired t.defs) (hd : d ∈ cycle root desired t) (hauthor : d.author = root) :
    desired.lookup d.id = some d.grants := by
  rcases ((mem_cycle t).2 d).mp hd with ⟨-, -, hgrants⟩ | ⟨hmem, hkept⟩
  · exact hgrants
  obtain ⟨hnotWritten, hnotRetracted⟩ := hkept hauthor
  obtain ⟨top, htop⟩ := exists_isTop t.sorted hmem
  by_cases hlt : root < top.author
  · exact (h d.id top htop hlt).2 d hmem rfl hauthor
  · have hself : top = d := htop.of_root hlt hmem rfl hauthor
    subst hself
    cases hlookup : desired.lookup top.id with
    | none => exact absurd ⟨hlookup, top, htop, hauthor⟩ hnotRetracted
    | some g =>
      by_contra hne
      refine hnotWritten ⟨g, hlookup, fun x hx heq ↦ hne ?_⟩
      rw [htop.unique t.sorted hx, heq]

theorem Agreeing.upserts (h : Agreeing root desired t.defs) (hgroups : desired.lookup "" = none) :
    (definitionPlan root desired t.elements (cycle root desired t)).upsert = [] := by
  refine eq_nil_iff_forall_not_mem.mpr fun x hx ↦ ?_
  obtain ⟨g, hg, hother⟩ := exists_upsert_iff.mp ⟨x, hx, rfl⟩
  have hnot : ∀ d, IsTop (cycle root desired t) x.id d → d.grants ≠ g := fun d hd ↦
    hother d.held ((lookup_groups_iff _ (mem_cycle t).1 (cycle_named hgroups t)).mpr ⟨d, hd, rfl⟩)
  by_cases hwritten : Written desired t x.id
  · -- it was written, so the root has a definition, and what is listed behind it was hiding it before
    have hown : (⟨root, x.id, g⟩ : Def) ∈ cycle root desired t :=
      ((mem_cycle t).2 _).mpr (.inl ⟨rfl, hwritten, hg⟩)
    obtain ⟨top, htop⟩ := exists_isTop (mem_cycle t).1 hown
    by_cases hauthor : top.author = root
    · have hself := h.own htop.mem hauthor
      rw [htop.id_eq, hg] at hself
      exact hnot top htop (some.inj hself).symm
    · obtain ⟨htop', hlt⟩ := htop.of_cycle hauthor ⟨_, hown, rfl, rfl⟩
      exact hnot top htop ((h x.id top htop' hlt).1 g hg)
  · -- it was not, so the last definition had the grants, and is still there
    obtain ⟨d, hd, hgrants⟩ : ∃ d, IsTop t.defs x.id d ∧ d.grants = g := by
      by_contra hnone
      exact hwritten ⟨g, hg, fun d hd heq ↦ hnone ⟨d, hd, heq⟩⟩
    refine hnot d ⟨?_, hd.id_eq, fun e he hid ↦ ?_⟩ hgrants
    · refine ((mem_cycle t).2 d).mpr (.inr ⟨hd.mem, fun _ ↦ ⟨?_, fun hret ↦ ?_⟩⟩)
      · rwa [hd.id_eq]
      · rw [hd.id_eq, hg] at hret
        cases hret.1
    · rcases ((mem_cycle t).2 e).mp he with ⟨-, hw, -⟩ | ⟨hmem, -⟩
      · exact absurd (hid ▸ hw) hwritten
      · exact hd.last e hmem hid

theorem Agreeing.retracts (h : Agreeing root desired t.defs) (hgroups : desired.lookup "" = none) :
    (definitionPlan root desired t.elements (cycle root desired t)).retract = [] := by
  refine eq_nil_iff_forall_not_mem.mpr fun id hid ↦ ?_
  obtain ⟨hnone, held, hheld, hauthor⟩ := mem_retract_iff.mp hid
  obtain ⟨d, hd, rfl⟩ := (lookup_groups_iff _ (mem_cycle t).1 (cycle_named hgroups t)).mp hheld
  have hown := h.own hd.mem hauthor
  rw [hd.id_eq, hnone] at hown
  cases hown

/-- **A hidden definition that does not agree breaks the cycle.** -/
theorem Converges.agreeing {ids : Ids} {owner : String} {kc : Registry}
    (h : Converges ids owner root desired t kc) (hgroups : desired.lookup "" = none) :
    Agreeing root desired t.defs := by
  intro id d hd hlt
  have hwritten : ¬ Written desired t id := by
    rintro ⟨g, hg, hother⟩
    -- it is written in vain: the next cycle finds the other definition again
    have hupsert : ∃ x ∈ (definitionPlan root desired t.elements (cycle root desired t)).upsert, x.id = id := by
      refine exists_upsert_iff.mpr ⟨g, hg, fun held hheld ↦ ?_⟩
      obtain ⟨e, he, rfl⟩ := (lookup_groups_iff _ (mem_cycle t).1 (cycle_named hgroups t)).mp hheld
      rw [he.unique (mem_cycle t).1 (hd.cycle hlt)]
      exact hother d hd
    obtain ⟨x, hx, -⟩ := hupsert
    rw [h.upserts] at hx
    cases hx
  refine ⟨fun g hg ↦ ?_, fun r hr hid hauthor ↦ ?_⟩
  · by_contra hne
    exact hwritten ⟨g, hg, fun x hx heq ↦ hne (hd.unique t.sorted hx ▸ heq)⟩
  · have hkept : r ∈ cycle root desired t := by
      refine ((mem_cycle t).2 r).mpr (.inr ⟨hr, fun _ ↦ ⟨by rwa [hid], ?_⟩⟩)
      rintro ⟨-, x, hx, hxauthor⟩
      rw [hid] at hx
      rw [hx.unique t.sorted hd] at hxauthor
      exact hlt.ne' hxauthor
    obtain ⟨g, hg⟩ := ne_none_iff_exists'.mp (h.revoked r hkept hauthor)
    rw [← hid, hg, h.granted r hkept hauthor g hg]

end Cycle

/-- **A cycle converges and revokes exactly when no hidden definition disagrees.** Keycloak's groups have names. -/
theorem converges_iff (ids : Ids) (owner root : String) (perms : List Permission) (attrs : Map (List String))
    (t : Tree) (kc : Registry) (hgroups : (compileGrants perms attrs).1.lookup "" = none) :
    Converges ids owner root (compileGrants perms attrs).1 t kc ↔
      Agreeing root (compileGrants perms attrs).1 t.defs := by
  refine ⟨fun h ↦ h.agreeing hgroups, fun h ↦ ?_⟩
  have helements : (parseKV (listing t.elements (cycle root (compileGrants perms attrs).1 t))).elements =
      (parseKV (listing t.elements t.defs)).elements := by
    rw [(parseKV_listing t.elements t.named).1, (parseKV_listing t.elements (cycle_named hgroups t)).1]
  have hplan := (inStep_applyResources ids owner (parseKV (listing t.elements t.defs)).elements kc).plan
  exact {
    revoked := fun d hd hauthor hnone ↦ by
      rw [h.own hd hauthor] at hnone
      cases hnone
    granted := fun d hd hauthor g hg ↦ by
      rw [h.own hd hauthor] at hg
      exact Option.some.inj hg
    others := fun d hd ↦ mem_cycle_of_ne t hd
    upserts := h.upserts hgroups
    retracts := h.retracts hgroups
    creates := by
      rw [resourcePlan, helements]
      exact hplan.1
    updates := by
      rw [resourcePlan, helements]
      exact hplan.2.1
    deletes := by
      rw [resourcePlan, helements]
      exact hplan.2.2 }

/-! ### Two authors of one group -/

/-- Ids that are longer than all others. -/
def longIds : Ids where
  new l := String.ofList (List.replicate ((l.map (·.id.length)).sum + 1) 'x')
  fresh := by
    intro l hmem
    obtain ⟨r, hr, hid⟩ := mem_map.mp hmem
    have hle : r.id.length ≤ (l.map (·.id.length)).sum :=
      single_le_sum (fun _ _ ↦ Nat.zero_le _) _ (mem_map_of_mem hr)
    have hlen := congrArg String.length hid
    simp at hlen
    omega

/-- A permission for the operators on one machine. -/
def operators : Permission := ⟨["operators"], ["e1"], ["read", "operate"]⟩

/-- A group attribute for the administrators. -/
def adminAttr : Map (List String) := (∅ : Map (List String)).insert "admins" ["admin:#"]

/-- The root `n5` wrote stale grants for the operators, and one node before it in the listing has others. -/
def staleTree : Tree where
  elements := [("e1", "werk1/m1"), ("e2", "werk1/m2")]
  defs := [⟨"n5", "admins", ["admin:#"]⟩, ⟨"n5", "left", ["read:e1/#"]⟩, ⟨"n2", "operators", ["read:#"]⟩,
    ⟨"n5", "operators", ["read:e1/#"]⟩]
  sorted := by decide +kernel
  named := by decide +kernel

/-- A resource of an element that is gone, and one made by hand. -/
def someResources : Registry where
  resources := [⟨"r1", "e1", "werk1/old", elementResourceType, ["colca"]⟩,
    ⟨"r2", "e9", "werk1/m9", elementResourceType, ["colca"]⟩, ⟨"r3", "e8", "hall", elementResourceType, []⟩]
  ids := by decide +kernel
  names := by decide +kernel

theorem staleTree_agreeing : Agreeing "n5" (compileGrants [operators] adminAttr).1 staleTree.defs := by
  intro id d hd hlt
  have hauthors : ∀ e ∈ staleTree.defs, ¬ "n5" < e.author := by decide +kernel
  exact absurd hlt (hauthors d hd.mem)

/-- The stale grants are replaced, the group nobody is granted any more is retracted, and the other node's
definition stays. -/
theorem staleTree_converges : (compileGrants [operators] adminAttr).1.lookup "" = none ∧
    Converges longIds "colca" "n5" (compileGrants [operators] adminAttr).1 staleTree someResources := by
  have hgroups : (compileGrants [operators] adminAttr).1.lookup "" = none := by decide +kernel
  exact ⟨hgroups, (converges_iff longIds "colca" "n5" [operators] adminAttr staleTree someResources
    hgroups).mpr staleTree_agreeing⟩

/-- A group that is granted nothing has a definition of the root `n5` and one of a node listed behind it. -/
def hiddenTree : Tree where
  elements := [("e1", "werk1/m1")]
  defs := [⟨"n5", "left", ["read:e1/#"]⟩, ⟨"n7", "left", ["read:e1/#"]⟩]
  sorted := by decide +kernel
  named := by decide +kernel

/-- The root's definition is taken for the other node's, and stays. -/
theorem hiddenDefinition_stays : ¬ ∀ (ids : Ids) (owner root : String) (perms : List Permission)
    (attrs : Map (List String)) (t : Tree) (kc : Registry), (compileGrants perms attrs).1.lookup "" = none →
      Converges ids owner root (compileGrants perms attrs).1 t kc := by
  intro h
  have hgroups : (compileGrants [operators] adminAttr).1.lookup "" = none := by decide +kernel
  have hconverges := h longIds "colca" "n5" [operators] adminAttr hiddenTree someResources hgroups
  have hkept : (⟨"n5", "left", ["read:e1/#"]⟩ : Def) ∈
      cycle "n5" (compileGrants [operators] adminAttr).1 hiddenTree := by decide +kernel
  exact hconverges.revoked _ hkept rfl (by decide +kernel)

end Colca.GrantSync
