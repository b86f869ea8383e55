import Mathlib.Data.Finset.Card
import Mathlib.Data.List.Chain
import Mathlib.Logic.Relation

/-!
# Cycles of links

Every node holds at most one link, so the links are a list of pairs that is looked up. Following them from a
node either ends or enters exactly one cycle. `cycles` follows them from every node in turn, past nothing
that was followed before, and reports the cycles that have a checked member: all of them
(`cycles_ne_nil`).
-/

namespace FollowLinks

open List

variable {α : Type*} [DecidableEq α] (links : List (α × α))

/-- Follow the links from a node until there is none, or a node that was seen before. -/
def follow (reported trail : List α) (node : α) : List α × α :=
  match _h : links.lookup node with
  | none => (trail, node)
  | some next =>
    if _hseen : node ∈ reported ∨ node ∈ trail then (trail, node) else follow reported (trail ++ [node]) next
termination_by ((links.map Prod.fst).toFinset \ trail.toFinset).card
decreasing_by
  have hmem : node ∈ links.map Prod.fst := by
    obtain ⟨l₁, l₂, rfl, -⟩ := lookup_eq_some_iff.mp _h
    simp
  refine Finset.card_lt_card (Finset.ssubset_iff_subset_ne.mpr ⟨fun x hx ↦ ?_, fun heq ↦ ?_⟩)
  · simp only [toFinset_append, Finset.mem_sdiff, Finset.mem_union] at hx ⊢
    exact ⟨hx.1, fun hm ↦ hx.2 (.inl hm)⟩
  · have hin : node ∈ (links.map Prod.fst).toFinset \ trail.toFinset :=
      Finset.mem_sdiff.mpr ⟨mem_toFinset.mpr hmem, fun hm ↦ _hseen (.inr (mem_toFinset.mp hm))⟩
    rw [← heq] at hin
    simp at hin

/-- The cycles with a checked member, each from where it was entered and back. -/
def cycles (checked : α → Bool) (reported : List α) : List α → List (List α)
  | [] => []
  | start :: starts =>
    let x := follow links reported [] start
    let cycle := x.1.drop (x.1.idxOf x.2)
    (if x.2 ∈ x.1 ∧ cycle.any checked then [cycle ++ [x.2]] else []) ++
      cycles checked (reported ++ x.1) starts

/-- There is a link from one node to the other. -/
def Edge (a b : α) : Prop := links.lookup a = some b

variable {links} {checked : α → Bool} {reported trail l : List α} {node x y z : α}

open Relation

theorem Edge.unique (h : Edge links x y) (h' : Edge links x z) : y = z := Option.some.inj (h.symm.trans h')

/-- What a walk leaves: a chain of links, to a node at which it stops. -/
theorem follow_spec (h : (trail ++ [node]).IsChain (Edge links)) :
    ((follow links reported trail node).1 ++ [(follow links reported trail node).2]).IsChain (Edge links) ∧
    (∀ a ∈ trail, a ∈ (follow links reported trail node).1) ∧
    ((∃ next, Edge links node next) → node ∉ reported → node ∈ (follow links reported trail node).1) ∧
    ((∃ next, Edge links (follow links reported trail node).2 next) →
      (follow links reported trail node).2 ∈ reported ∨
        (follow links reported trail node).2 ∈ (follow links reported trail node).1) := by
  fun_induction follow links reported trail node with
  | case1 trail node hnone =>
    refine ⟨h, fun _ ha ↦ ha, ?_, ?_⟩ <;>
    · rintro ⟨next, hnext⟩
      rw [Edge, hnone] at hnext
      cases hnext
  | case2 trail node next hnext hseen =>
    exact ⟨h, fun _ ha ↦ ha, fun _ hr ↦ hseen.resolve_left hr, fun _ ↦ hseen⟩
  | case3 trail node next hnext hseen ih =>
    obtain ⟨hchain, hsub, -, hstop⟩ := ih (by
      rw [append_assoc]
      exact isChain_split.mpr ⟨h, isChain_pair.mpr hnext⟩)
    exact ⟨hchain, fun a ha ↦ hsub a (mem_append_left _ ha),
      fun _ _ ↦ hsub node (mem_append_right _ (mem_singleton_self _)), hstop⟩

/-- What follows a node of a chain is in the chain, or is its last node. -/
theorem mem_of_edge (h : (l ++ [y]).IsChain (Edge links)) (hx : x ∈ l) (he : Edge links x z) :
    z ∈ l ∨ z = y := by
  obtain ⟨l₁, l₂, rfl⟩ := append_of_mem hx
  rw [append_assoc, cons_append, isChain_split] at h
  cases l₂ with
  | nil => exact .inr (he.unique (isChain_pair.mp h.2))
  | cons a l₂ =>
    obtain rfl := he.unique (isChain_cons_cons.mp h.2).1
    exact .inl (by simp)

/-- Along a chain, every node leads to the last one. -/
theorem transGen_of_chain (h : (l ++ [y]).IsChain (Edge links)) (hx : x ∈ l) : TransGen (Edge links) x y := by
  induction l generalizing x with
  | nil => cases hx
  | cons a l ih =>
    cases l with
    | nil =>
      obtain rfl := mem_singleton.mp hx
      exact .single (isChain_pair.mp h)
    | cons b l =>
      obtain ⟨hab, htail⟩ := isChain_cons_cons.mp h
      obtain rfl | hx := mem_cons.mp hx
      · exact .head hab (ih htail mem_cons_self)
      · exact ih htail hx

/-- On a cycle, the way leads back from everywhere. -/
theorem transGen_back (hx : TransGen (Edge links) x x) (hy : TransGen (Edge links) x y) :
    TransGen (Edge links) y x := by
  have hnext : ∀ {a b}, TransGen (Edge links) a x → Edge links a b → TransGen (Edge links) b x :=
    fun {a b} ha hab ↦ by
      obtain ⟨c, hac, hcx⟩ := TransGen.head'_iff.mp ha
      obtain rfl := hac.unique hab
      obtain rfl | hcx := reflTransGen_iff_eq_or_transGen.mp hcx
      · exact hx
      · exact hcx
  induction hy with
  | single he => exact hnext hx he
  | tail _ he ih => exact hnext ih he

/-- A walk that comes to a node of a cycle goes all the way round. -/
theorem mem_cycle (hx : TransGen (Edge links) x x) (hr : ∀ y ∈ reported, ¬ TransGen (Edge links) x y)
    (hmem : y ∈ (follow links reported [] node).1) (hy : TransGen (Edge links) x y)
    (hz : TransGen (Edge links) x z) :
    (follow links reported [] node).2 ∈ (follow links reported [] node).1 ∧
      z ∈ (follow links reported [] node).1.drop
        ((follow links reported [] node).1.idxOf (follow links reported [] node).2) := by
  have hnil : ([] ++ [node]).IsChain (Edge links) := .singleton node
  obtain ⟨hchain, -, -, hstop⟩ := follow_spec hnil 
  generalize follow links reported [] node = w at hmem hchain hstop ⊢
  have hend : TransGen (Edge links) x w.2 := hy.trans (transGen_of_chain hchain hmem)
  have hback := transGen_back hx hend
  obtain ⟨next, hnext, -⟩ := TransGen.head'_iff.mp hback
  have hin : w.2 ∈ w.1 := (hstop ⟨next, hnext⟩).resolve_left fun hm ↦ hr _ hm hend
  refine ⟨hin, ?_⟩
  -- from the last node on, the walk is closed under the links
  obtain ⟨i, hi⟩ : ∃ i, i = w.1.idxOf w.2 := ⟨_, rfl⟩
  have hself : w.2 ∈ w.1.drop i := by
    rw [hi, drop_eq_getElem_cons (idxOf_lt_length_of_mem hin), getElem_idxOf]
    exact mem_cons_self
  have hsuffix : (w.1.drop i ++ [w.2]).IsChain (Edge links) := by
    rw [← take_append_drop i w.1, append_assoc] at hchain
    exact hchain.right_of_append
  rw [← hi]
  have hz' : TransGen (Edge links) w.2 z := hback.trans hz
  clear hz
  induction hz' with
  | single he => exact (mem_of_edge hsuffix hself he).elim id fun h ↦ h ▸ hself
  | tail _ he ih => exact (mem_of_edge hsuffix ih he).elim id fun h ↦ h ▸ hself

/-- **A cycle with a checked member is reported.** -/
theorem cycles_ne_nil {starts : List α} (hx : TransGen (Edge links) x x) (hstart : x ∈ starts)
    (hz : TransGen (Edge links) x z) (hchecked : checked z = true)
    (hr : ∀ y ∈ reported, ¬ TransGen (Edge links) x y) : cycles links checked reported starts ≠ [] := by
  induction starts generalizing reported with
  | nil => cases hstart
  | cons start starts ih =>
    rw [cycles]
    by_cases hmeets : ∃ y ∈ (follow links reported [] start).1, TransGen (Edge links) x y
    · obtain ⟨y, hmem, hy⟩ := hmeets
      obtain ⟨hin, hz'⟩ := mem_cycle hx hr hmem hy hz
      simp [hin, any_eq_true.mpr ⟨z, hz', hchecked⟩]
    · push Not at hmeets
      have hne : x ≠ start := fun heq ↦ by
        subst heq
        have hnil : ([] ++ [x]).IsChain (Edge links) := .singleton x
        obtain ⟨next, hnext, -⟩ := TransGen.head'_iff.mp hx
        have hself := (follow_spec hnil ).2.2.1 ⟨next, hnext⟩
          fun hm ↦ hr x hm hx
        exact hmeets x hself hx
      refine fun hnone ↦ ih ((mem_cons.mp hstart).resolve_left hne) (fun y hy ↦ ?_)
        (append_eq_nil_iff.mp hnone).2
      exact (mem_append.mp hy).elim (hr y) (hmeets y)

end FollowLinks
