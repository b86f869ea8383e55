import Mathlib.Data.List.Sort

/-!
# The smallest members of several sorted lists

A bounded heap that keeps the `n` smallest numbers it was offered, the largest of them on top. It is
offered one increasing list after the other and leaves a list at the first number that is not below its
top: what follows in that list is larger still.

`IsSmallest` says what the heap holds at any time, `heapOffer` is the pass over one list. In increasing order
the heap is a prefix of everything it was offered (`IsSmallest.reverse_eq_take`).
-/

/-- The smallest `n` of the numbers `A`, or all of them, the largest first. -/
structure IsSmallest (n : ℕ) (A : ℕ → Prop) (top : List ℕ) : Prop where
  decreasing : top.Pairwise (· > ·)
  mem : ∀ a ∈ top, A a
  length_le : top.length ≤ n
  rest : ∀ a, A a → a ∈ top ∨ (top.length = n ∧ ∀ b ∈ top, b < a)

/-- Put a number into the heap. -/
def heapPush (a : ℕ) (top : List ℕ) : List ℕ := top.orderedInsert (· ≥ ·) a

/-- Offer an increasing list to a heap of at most `n` numbers. -/
def heapOffer (n : ℕ) : List ℕ → List ℕ → List ℕ
  | top, [] => top
  | top, a :: as =>
    if top.length < n then heapOffer n (heapPush a top) as
    else
      match top with
      | [] => []
      | b :: top => if b ≤ a then b :: top else heapOffer n (heapPush a top) as

theorem mem_heapPush {a b : ℕ} {top : List ℕ} : b ∈ heapPush a top ↔ b = a ∨ b ∈ top :=
  List.mem_orderedInsert _

theorem length_heapPush (a : ℕ) (top : List ℕ) : (heapPush a top).length = top.length + 1 :=
  List.orderedInsert_length _ _ _

theorem decreasing_heapPush {a : ℕ} {top : List ℕ} (h : top.Pairwise (· > ·)) (ha : a ∉ top) :
    (heapPush a top).Pairwise (· > ·) := by
  have hnodup : (heapPush a top).Nodup :=
    (List.perm_orderedInsert _ a top).nodup_iff.mpr (List.nodup_cons.mpr ⟨ha, h.imp ne_of_gt⟩)
  have hsorted : (heapPush a top).Pairwise (· ≥ ·) :=
    List.Pairwise.orderedInsert a top (h.imp le_of_lt)
  exact (hsorted.and hnodup).imp fun ⟨hle, hne⟩ ↦ lt_of_le_of_ne hle hne.symm

namespace IsSmallest

open List

variable {n a b : ℕ} {A B : ℕ → Prop} {top as : List ℕ}

theorem nil (n : ℕ) : IsSmallest n (fun _ ↦ False) [] :=
  ⟨List.Pairwise.nil, fun _ h ↦ (nomatch h), Nat.zero_le n, fun _ h ↦ h.elim⟩

theorem congr (h : IsSmallest n A top) (hB : ∀ a, B a ↔ A a) : IsSmallest n B top :=
  ⟨h.decreasing, fun a ha ↦ (hB a).mpr (h.mem a ha), h.length_le, fun a ha ↦ h.rest a ((hB a).mp ha)⟩

/-- The top is the largest. -/
theorem le_headD (h : IsSmallest n A top) (d : ℕ) : ∀ a ∈ top, a ≤ top.headD d := by
  cases top with
  | nil => exact fun _ ha ↦ nomatch ha
  | cons b top =>
    intro a ha
    rcases mem_cons.mp ha with rfl | ha
    · exact le_rfl
    · exact ((pairwise_cons.mp h.decreasing).1 a ha).le

theorem headD_le (h : IsSmallest n A top) {d : ℕ} (hA : ∀ a, A a → a ≤ d) : top.headD d ≤ d := by
  cases top with
  | nil => exact le_rfl
  | cons b top => exact hA b (h.mem b mem_cons_self)

/-- A heap with room takes the number. -/
theorem push (h : IsSmallest n A top) (hlt : top.length < n) (ha : ¬ A a) :
    IsSmallest n (fun x ↦ A x ∨ x = a) (heapPush a top) where
  decreasing := decreasing_heapPush h.decreasing fun hmem ↦ ha (h.mem a hmem)
  mem x hx := (mem_heapPush.mp hx).elim .inr fun hx ↦ .inl (h.mem x hx)
  length_le := (length_heapPush a top).trans_le hlt
  rest x hx := by
    rcases hx with hx | rfl
    · rcases h.rest x hx with hmem | ⟨hfull, -⟩
      · exact .inl (mem_heapPush.mpr (.inr hmem))
      · exact absurd hfull hlt.ne
    · exact .inl (mem_heapPush.mpr (.inl rfl))

/-- A full heap gives its top for a smaller number. -/
theorem replace (h : IsSmallest n A (b :: top)) (hfull : (b :: top).length = n) (hlt : a < b)
    (ha : ¬ A a) : IsSmallest n (fun x ↦ A x ∨ x = a) (heapPush a top) where
  decreasing := decreasing_heapPush h.decreasing.of_cons fun hmem ↦
    ha (h.mem a (mem_cons_of_mem _ hmem))
  mem x hx := (mem_heapPush.mp hx).elim .inr fun hx ↦ .inl (h.mem x (mem_cons_of_mem _ hx))
  length_le := (length_heapPush a top).trans_le hfull.le
  rest x hx := by
    have htop : ∀ y ∈ top, y < b := (pairwise_cons.mp h.decreasing).1
    -- whatever lies past the old top lies past the new heap
    have hpast : b ≤ x → ∀ y ∈ heapPush a top, y < x := by
      intro hbx y hy
      rcases mem_heapPush.mp hy with rfl | hy
      · exact hlt.trans_le hbx
      · exact (htop y hy).trans_le hbx
    have hlen : (heapPush a top).length = n := (length_heapPush a top).trans hfull
    rcases hx with hx | rfl
    · rcases h.rest x hx with hmem | ⟨-, hbelow⟩
      · rcases mem_cons.mp hmem with rfl | hmem
        · exact .inr ⟨hlen, hpast le_rfl⟩
        · exact .inl (mem_heapPush.mpr (.inr hmem))
      · exact .inr ⟨hlen, hpast (hbelow b mem_cons_self).le⟩
    · exact .inl (mem_heapPush.mpr (.inl rfl))

/-- A full heap is not changed by larger numbers. -/
theorem skip (h : IsSmallest n A top) (hfull : top.length = n) (hB : ∀ x, B x → ∀ y ∈ top, y < x) :
    IsSmallest n (fun x ↦ A x ∨ B x) top :=
  { h with
    mem x hx := .inl (h.mem x hx)
    rest x hx := hx.elim (h.rest x) fun hx ↦ .inr ⟨hfull, hB x hx⟩ }

/-- **One list is offered.** -/
theorem offer (h : IsSmallest n A top) (hinc : as.Pairwise (· < ·)) (hnew : ∀ a ∈ as, ¬ A a) :
    IsSmallest n (fun x ↦ A x ∨ x ∈ as) (heapOffer n top as) := by
  induction as generalizing A top with
  | nil => exact h.congr fun x ↦ by simp
  | cons a as ih =>
    obtain ⟨hgt, hinc⟩ := pairwise_cons.mp hinc
    have ha : ¬ A a := hnew a mem_cons_self
    -- the rest of the list is new to the heap that has taken `a`
    have hnew' : ∀ x ∈ as, ¬ (A x ∨ x = a) := fun x hx hax ↦
      hax.elim (hnew x (mem_cons_of_mem _ hx)) fun heq ↦ (hgt x hx).ne' heq
    have hset : ∀ x, (A x ∨ x ∈ a :: as) ↔ ((A x ∨ x = a) ∨ x ∈ as) := fun x ↦ by
      rw [mem_cons, or_assoc]
    unfold heapOffer
    split
    · rename_i hlt
      exact (ih (h.push hlt ha) hinc hnew').congr hset
    · rename_i hfull
      have hfull : top.length = n := le_antisymm h.length_le (Nat.le_of_not_lt hfull)
      cases top with
      | nil => exact h.skip hfull fun _ _ _ hy ↦ nomatch hy
      | cons b top =>
        dsimp only
        split
        · rename_i hle
          refine h.skip hfull fun x hx y hy ↦ ?_
          -- the number equals no member, and the later ones are larger
          have hba : b < a := lt_of_le_of_ne hle fun heq ↦ ha (heq ▸ h.mem b mem_cons_self)
          have hyb : y ≤ b := (mem_cons.mp hy).elim (·.le) fun hy ↦
            ((pairwise_cons.mp h.decreasing).1 y hy).le
          rcases mem_cons.mp hx with rfl | hx
          · exact hyb.trans_lt hba
          · exact (hyb.trans_lt hba).trans (hgt x hx)
        · rename_i hlt
          exact (ih (h.replace hfull (Nat.lt_of_not_le hlt) ha) hinc hnew').congr hset

/-- **The heap in increasing order** is a prefix of what it was offered. -/
theorem reverse_eq_take (h : IsSmallest n A top) {xs : List ℕ} (hinc : xs.Pairwise (· < ·))
    (hxs : ∀ a, a ∈ xs ↔ A a) : top.reverse = xs.take n := by
  have hrev : top.reverse.Pairwise (· < ·) := pairwise_reverse.mpr h.decreasing
  obtain ⟨zs, hzs⟩ : ∃ zs, zs = xs.filter (· ∉ top) := ⟨_, rfl⟩
  have hmem : ∀ z ∈ zs, A z ∧ z ∉ top := fun z hz ↦ by
    rw [hzs, mem_filter] at hz
    exact ⟨(hxs z).mp hz.1, of_decide_eq_true hz.2⟩
  have hpast : ∀ z ∈ zs, top.length = n ∧ ∀ b ∈ top, b < z := fun z hz ↦
    (h.rest z (hmem z hz).1).resolve_left (hmem z hz).2
  have hsplit : xs = top.reverse ++ zs := by
    refine hinc.eq_of_mem_iff (pairwise_append.mpr ⟨hrev, ?_, ?_⟩) fun x ↦ ?_
    · rw [hzs]
      exact hinc.filter _
    · exact fun b hb z hz ↦ (hpast z hz).2 b (mem_reverse.mp hb)
    · rw [mem_append, mem_reverse, hzs, mem_filter, decide_eq_true_iff, hxs]
      exact ⟨fun hx ↦ (em (x ∈ top)).imp_right (⟨hx, ·⟩), fun hx ↦ hx.elim (h.mem x) And.left⟩
  cases zs with
  | nil =>
    rw [hsplit, append_nil, take_of_length_le]
    exact (length_reverse).trans_le h.length_le
  | cons z zs =>
    have hlen : top.reverse.length = n :=
      length_reverse.trans (hpast z mem_cons_self).1
    rw [hsplit, ← hlen, take_left]

end IsSmallest
