import Colca.Store.Record

/-!
# Where elements stand

The element index of a node: a projection of its element records, whose topics are the positions. A move
writes the record at the new position before it retires the old one, so retiring a position must forget an
element only if it still stands there.
-/

namespace Colca.Uns

open Function

/-- Which path an element is at, and which element is at a path. -/
structure ElementIndex where
  byID : String → Option Path := fun _ ↦ none
  byPath : Path → Option String := fun _ ↦ none

namespace ElementIndex

variable (x : ElementIndex)

/-- The position changes hands or is retired. -/
def vacate (path : Path) : ElementIndex :=
  match x.byPath path with
  | none => x
  | some old =>
    { byID := if x.byID old = some path then update x.byID old none else x.byID
      byPath := update x.byPath path none }

/-- Fold one element record into the index; `id` is the id in its payload, empty when the record is a
tombstone or has none. -/
def apply (path : Path) (id : String) : ElementIndex :=
  if id = "" then x.vacate path
  else
    { byID := update (x.vacate path).byID id (some path)
      byPath := update (x.vacate path).byPath path (some id) }

/-- The path of an element, if this node holds it. -/
def pathOf (id : String) : Option Path := if id = "" then none else x.byID id

variable {x} {path old : Path} {id : String}

/-- Vacating a position forgets no element that stands elsewhere. -/
theorem byID_vacate_of_ne (h : x.byID id = some old) (hne : old ≠ path) :
    (x.vacate path).byID id = some old := by
  unfold vacate
  split
  · exact h
  · rename_i other _
    show (if _ then _ else _ : String → Option Path) id = _
    split
    · rename_i hother
      have hdiff : id ≠ other := by
        rintro rfl
        exact hne (Option.some.inj (h.symm.trans hother))
      rw [update_of_ne hdiff, h]
    · exact h

/-! ### What the two maps say of each other -/

theorem byPath_vacate : (x.vacate path).byPath = update x.byPath path none := by
  unfold vacate
  split
  · rename_i hfree
    rw [← hfree, update_eq_self]
  · rfl

theorem byID_of_byID_vacate (h : (x.vacate path).byID id = some old) : x.byID id = some old := by
  unfold vacate at h
  split at h
  · exact h
  · rename_i other _
    dsimp only at h
    split at h
    · by_cases hid : id = other
      · rw [hid, update_self] at h
        cases h
      · rwa [update_of_ne hid] at h
    · exact h

/-- A record at another position and of another element leaves an element where it stands. -/
theorem byID_apply_of_ne {other : String} (h : x.byID id = some old) (hpath : old ≠ path)
    (hid : id ≠ other) : (x.apply path other).byID id = some old := by
  have hkept := byID_vacate_of_ne h hpath
  unfold apply
  split
  · exact hkept
  · show update _ other _ id = _
    rw [update_of_ne hid, hkept]

/-- Where an element stands, it is the one that stands there. -/
def Sound (x : ElementIndex) : Prop := ∀ id path, x.byID id = some path → x.byPath path = some id

theorem Sound.vacate (h : x.Sound) (path : Path) : (x.vacate path).Sound := by
  intro id q hid
  have hbefore := byID_of_byID_vacate hid
  have hne : q ≠ path := by
    rintro rfl
    have hat := h id q hbefore
    unfold ElementIndex.vacate at hid
    rw [hat] at hid
    simp [hbefore] at hid
  rw [byPath_vacate, update_of_ne hne]
  exact h id q hbefore

theorem byPath_apply (x : ElementIndex) (path : Path) (new : String) :
    (x.apply path new).byPath = update x.byPath path (if new = "" then none else some new) := by
  unfold apply
  split
  · exact byPath_vacate
  · show update (x.vacate path).byPath _ _ = _
    rw [byPath_vacate, update_idem]

/-- An element is where the record places it, or where it stood if that is another position. -/
theorem Sound.byID_apply (h : x.Sound) (new : String) {p : Path} : (x.apply path new).byID id = some p ↔
    (new ≠ "" ∧ new = id ∧ p = path) ∨ ((new = "" ∨ new ≠ id) ∧ x.byID id = some p ∧ p ≠ path) := by
  have hvacate : (x.vacate path).byID id = some p ↔ x.byID id = some p ∧ p ≠ path := by
    refine ⟨fun hp ↦ ⟨byID_of_byID_vacate hp, ?_⟩, fun hp ↦ byID_vacate_of_ne hp.1 hp.2⟩
    rintro rfl
    have hat := h.vacate p id p hp
    rw [byPath_vacate, update_self] at hat
    cases hat
  unfold ElementIndex.apply
  split
  · rename_i hnew
    simp [hvacate, hnew]
  · rename_i hnew
    show update (x.vacate path).byID _ _ _ = _ ↔ _
    rcases eq_or_ne id new with rfl | hne
    · simp [hnew, eq_comm]
    · rw [update_of_ne hne]
      simp [hvacate, hne.symm]

theorem Sound.apply (h : x.Sound) (path : Path) (id : String) : (x.apply path id).Sound := by
  intro other q hother
  rw [byPath_apply]
  rcases (h.byID_apply id).mp hother with ⟨hid, rfl, rfl⟩ | ⟨-, hat, hne⟩
  · rw [update_self, if_neg hid]
  · rw [update_of_ne hne, h other q hat]

theorem byPath_of_byPath_apply {q : Path} {other : String} (h : (x.apply path id).byPath q = some other) :
    (q = path ∧ other = id) ∨ x.byPath q = some other := by
  rw [byPath_apply] at h
  rcases eq_or_ne q path with rfl | hne
  · rw [update_self] at h
    split at h
    · cases h
    · exact .inl ⟨rfl, (Option.some.inj h).symm⟩
  · rw [update_of_ne hne] at h
    exact .inr h

end ElementIndex

end Colca.Uns
