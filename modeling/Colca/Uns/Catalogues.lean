import Colca.Store.Record
import Mathlib.Data.Finset.Basic

/-!
# Which catalogue holds a data tag

The index over a node's connector catalogues. A signal names its binding by a tag id only, and the
service whose catalogue holds the tag produces the signal's metrics, so every metric publish asks the
index. It is filled from the store when it is first asked and kept current record by record.

`tagsAt` and `holders` are two views of one relation (`Consistent`), so what the index answers is
decided by `tagsAt` alone.
-/

namespace Colca.Uns

open List Function

/-- Which of a node's catalogues hold a data tag. -/
structure CatalogueIndex where
  loaded : Bool := false
  /-- The tag ids a catalogue holds. -/
  tagsAt : Topic → List String := fun _ ↦ []
  /-- The catalogues that hold a tag. -/
  holders : String → Finset Topic := fun _ ↦ ∅

namespace CatalogueIndex

variable (dataTags : Payload → Option (List String)) (x : CatalogueIndex)

/-- The tags in a catalogue payload: none in a tombstone or a payload that does not decode; entries
without an id are passed over. `dataTags` decodes the ids of a payload. -/
def tagsOf (payload : Payload) : List String :=
  if payload = [] then [] else ((dataTags payload).getD []).filter (· ≠ "")

/-- Forget what the index knows about one catalogue. -/
def forget (topic : Topic) : CatalogueIndex :=
  { x with
    tagsAt := update x.tagsAt topic []
    holders := (x.tagsAt topic).foldl
      (fun h tag ↦ update h tag ((h tag).erase topic)) x.holders }

/-- Replace what the index knows about one catalogue. -/
def apply (topic : Topic) (payload : Payload) : CatalogueIndex :=
  { x.forget topic with
    tagsAt := update (x.forget topic).tagsAt topic (tagsOf dataTags payload)
    holders := (tagsOf dataTags payload).foldl
      (fun h tag ↦ update h tag (insert topic (h tag))) (x.forget topic).holders }

/-- Fill the index on first use from the catalogues the store holds. -/
def load (scan : List (Topic × Payload)) : CatalogueIndex :=
  if x.loaded then x
  else { scan.foldl (fun x r ↦ x.apply dataTags r.1 r.2) x with loaded := true }

/-- Fold a stored catalogue into the index; before the first use there is nothing to keep current. -/
def observe (topic : Topic) (payload : Payload) : CatalogueIndex :=
  if x.loaded then x.apply dataTags topic payload else x

/-- The two views agree. -/
def Consistent : Prop := ∀ tag topic, topic ∈ x.holders tag ↔ tag ∈ x.tagsAt topic

variable {dataTags} {x} {topic : Topic} {payload : Payload}

/-! ### One catalogue replaced -/

/-- A change that can be made twice, made to the holders of each tag of a list. -/
theorem holders_foldl {f : Finset Topic → Finset Topic} (hf : ∀ s, f (f s) = f s) (tags : List String)
    (h : String → Finset Topic) (tag : String) :
    (tags.foldl (fun h tag ↦ update h tag (f (h tag))) h) tag =
      if tag ∈ tags then f (h tag) else h tag := by
  induction tags generalizing h with
  | nil => rfl
  | cons g tags ih =>
    rw [foldl_cons, ih]
    by_cases hg : tag = g
    · subst hg
      simp [hf]
    · simp [hg]

theorem tagsAt_apply (t : Topic) : (x.apply dataTags topic payload).tagsAt t =
    if t = topic then tagsOf dataTags payload else x.tagsAt t := by
  show update (update x.tagsAt topic []) topic _ t = _
  rw [update_idem, update_apply]

theorem Consistent.apply (h : x.Consistent) : (x.apply dataTags topic payload).Consistent := by
  intro tag t
  rw [tagsAt_apply]
  have hforget : t ∈ (x.forget topic).holders tag ↔ t ≠ topic ∧ tag ∈ x.tagsAt t := by
    show t ∈ ((x.tagsAt topic).foldl _ x.holders) tag ↔ _
    rw [holders_foldl (f := (·.erase topic)) fun _ ↦ Finset.erase_idem]
    split
    · rw [Finset.mem_erase, h tag t]
    · rename_i hno
      rw [h tag t, iff_and_self]
      rintro htag rfl
      exact hno htag
  show t ∈ ((tagsOf dataTags payload).foldl _ (x.forget topic).holders) tag ↔ _
  rw [holders_foldl (f := insert topic) (Finset.insert_idem topic)]
  by_cases htag : tag ∈ tagsOf dataTags payload
  · rw [if_pos htag, Finset.mem_insert, hforget]
    by_cases ht : t = topic <;> simp [ht, htag]
  · rw [if_neg htag, hforget]
    by_cases ht : t = topic <;> simp [ht, htag]

/-! ### Many catalogues replaced -/

theorem consistent_empty : ({} : CatalogueIndex).Consistent := fun _ _ ↦ by simp

theorem Consistent.foldl (h : x.Consistent) (scan : List (Topic × Payload)) :
    (scan.foldl (fun x r ↦ x.apply dataTags r.1 r.2) x).Consistent := by
  induction scan generalizing x with
  | nil => exact h
  | cons r scan ih => exact ih h.apply

variable {scan : List (Topic × Payload)} {t : Topic}

theorem tagsAt_foldl_of_not_mem (h : ∀ r ∈ scan, r.1 ≠ t) :
    (scan.foldl (fun x r ↦ x.apply dataTags r.1 r.2) x).tagsAt t = x.tagsAt t := by
  induction scan generalizing x with
  | nil => rfl
  | cons r scan ih =>
    rw [foldl_cons, ih fun r' hr' ↦ h r' (mem_cons_of_mem r hr'), tagsAt_apply,
      if_neg (h r mem_cons_self).symm]

theorem tagsAt_foldl_of_mem {p : Payload} (hnodup : (scan.map Prod.fst).Nodup) (h : (t, p) ∈ scan) :
    (scan.foldl (fun x r ↦ x.apply dataTags r.1 r.2) x).tagsAt t = tagsOf dataTags p := by
  induction scan generalizing x with
  | nil => exact absurd h not_mem_nil
  | cons r scan ih =>
    obtain ⟨hnot, hnodup⟩ := nodup_cons.mp hnodup
    rw [foldl_cons]
    rcases mem_cons.mp h with rfl | h
    · have hlater : ∀ r ∈ scan, r.1 ≠ t := fun r hr heq ↦
        hnot (mem_map.mpr ⟨r, hr, heq⟩)
      rw [tagsAt_foldl_of_not_mem hlater, tagsAt_apply, if_pos rfl]
    · exact ih hnodup h

/-! ### What the index answers -/

theorem Consistent.load (h : x.Consistent) (scan : List (Topic × Payload)) :
    (x.load dataTags scan).Consistent := by
  unfold CatalogueIndex.load
  split
  · exact h
  · exact h.foldl scan

theorem Consistent.observe (h : x.Consistent) : (x.observe dataTags topic payload).Consistent := by
  unfold CatalogueIndex.observe
  split
  · exact h.apply
  · exact h

/-- What consistent indexes answer is decided by the tags they know of. -/
theorem Consistent.holders_eq {y : CatalogueIndex} (hx : x.Consistent) (hy : y.Consistent)
    (h : x.tagsAt = y.tagsAt) : x.holders = y.holders := by
  funext tag
  ext topic
  rw [hx tag topic, hy tag topic, h]

end CatalogueIndex

end Colca.Uns
