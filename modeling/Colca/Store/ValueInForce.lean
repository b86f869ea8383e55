import Colca.Store.SignalPrune
import Mathlib.Data.Finset.Max

/-!
# The value in force is kept

Of the records a walk holds, none was removed, and every doomed one has a kept one of its signal that is no
older. A batch takes doomed records only, so whatever it takes leaves a record that stands in for it
(`Known.Sound.stands_in`). That is the whole argument, for one call and over many.
-/

namespace Colca.SignalPrune

open Uns List Option StoreRun

variable {env : WriteEnv} {st : Stream} {run run' : StoreRun.State} {w : Walk} {cur : Cur} {s s' : State}
  {off : ℕ} {offs : List ℕ} {e : RecEnc} {c : ℤ}

namespace Known

/-- The values in force: of the signals left behind, and of the one the walk is at. -/
def keeps (w : Known) : List Doomed := w.kept ++ (w.cur.bind Cur.keep).toList

/-- The records the walk holds. -/
def held (w : Known) : List Doomed := w.keeps ++ w.doomed

/-- Index entries of a signal. -/
def Entries (st : Stream) (w : Known) (signalID : String) (offs : List ℕ) : Prop :=
  offs.Pairwise (· < ·) ∧ ∀ o ∈ offs, ∀ e, Has st w.base o e → e.signalID = signalID

/-- The walk at its signal. -/
structure AtCur (st : Stream) (w : Known) (cur : Cur) : Prop where
  entries : w.Entries st cur.signalID cur.offs
  apart : ∀ g ∈ w.groups, cur.signalID ≠ g.1
  below : ∀ x ∈ w.held, x.1 = cur.signalID → ∀ o ∈ cur.offs, x.2.1 < o
  keep_id : ∀ k, cur.keep = some k → k.1 = cur.signalID
  cutoff : ∀ c, (cur.signalID, c) ∈ w.decided ↔ cur.cutoff = some c

/-- **What a walk knows** is so. -/
structure Sound (st : Stream) (run : StoreRun.State) (w : Known) : Prop where
  next_le : w.base.next st ≤ run.next st
  back : ∀ o e, o < w.base.next st → Has st run o e → Has st w.base o e
  clamp_le : w.clamp ≤ w.base.next st
  /-- The records it holds are there, under their signals and before the cutoffs. -/
  held : ∀ x ∈ w.held, Has st run x.2.1 x.2.2 ∧ x.2.2.signalID = x.1 ∧ x.2.1 < w.clamp ∧
    ∃ c, (x.1, c) ∈ w.decided ∧ x.2.2.ts < c
  nodup : (w.held.map fun x ↦ x.2.1).Nodup
  dominated : ∀ x ∈ w.doomed, ∃ k ∈ w.keeps, k.1 = x.1 ∧ x.2.2.ts ≤ k.2.2.ts
  groups_nodup : (w.groups.map Prod.fst).Nodup
  groups : ∀ g ∈ w.groups, w.Entries st g.1 g.2
  cur : ∀ cur, w.cur = some cur → w.AtCur st cur
  decided : ∀ p ∈ w.decided, w.IsCutoff st p.1 p.2
  undecided : ∀ p ∈ w.decided, ∀ g ∈ w.groups, p.1 ≠ g.1
  newest : ∀ c o e, (∀ c', (e.signalID, c') ∈ w.decided → c' ≤ c) → Has st w.base o e → e.ts < c →
    ∃ o' e', Has st w.base o' e' ∧ Has st run o' e' ∧ e'.signalID = e.signalID ∧ e.ts ≤ e'.ts ∧
      e'.ts < c

end Known

/-! ### Steps of the walk -/

namespace Walk

open Known

/-- On to the next signal. -/
theorem sound_leave (h : w.Sound st run) (hcur : w.cur = some cur) : (w.leave cur).Sound st run := by
  have hkeeps : (w.leave cur).keeps = w.keeps := by
    simp [leave, keeps, hcur]
  have hheld : (w.leave cur).toKnown.held = w.toKnown.held := congrArg (· ++ w.doomed) hkeeps
  exact ⟨h.next_le, h.back, h.clamp_le, hheld ▸ h.held, hheld ▸ h.nodup, hkeeps ▸ h.dominated,
    h.groups_nodup, h.groups, nofun, h.decided, h.undecided, h.newest⟩

/-- The next signal is entered. No record of it is held yet, since those have a decision. -/
theorem sound_enter {signalID : String} {groups : List (String × List ℕ)} (h : w.Sound st run)
    (hcur : w.cur = none) (hgroups : w.groups = (signalID, offs) :: groups) :
    (w.enter signalID offs groups).Sound st run := by
  have hkeeps : (w.enter signalID offs groups).keeps = w.keeps := by
    simp [enter, keeps, hcur]
  have hheld : (w.enter signalID offs groups).toKnown.held = w.toKnown.held :=
    congrArg (· ++ w.doomed) hkeeps
  have hsub : ∀ g ∈ groups, g ∈ w.groups := fun g hg ↦ hgroups ▸ mem_cons_of_mem _ hg
  have hundecided : ∀ p ∈ w.decided, p.1 ≠ signalID := fun p hp ↦
    h.undecided p hp (signalID, offs) (hgroups ▸ mem_cons_self)
  have hnodup := h.groups_nodup
  rw [hgroups, map_cons, nodup_cons] at hnodup
  refine ⟨h.next_le, h.back, h.clamp_le, hheld ▸ h.held, hheld ▸ h.nodup, hkeeps ▸ h.dominated,
    hnodup.2, fun g hg ↦ h.groups g (hsub g hg), fun cur hc ↦ ?_, h.decided,
    fun p hp g hg ↦ h.undecided p hp g (hsub g hg), h.newest⟩
  cases hc
  refine ⟨h.groups (signalID, offs) (hgroups ▸ mem_cons_self), fun g hg heq ↦ ?_, fun x hx heq ↦ ?_,
    nofun, fun c ↦ ⟨fun hc ↦ absurd rfl (hundecided _ hc), nofun⟩⟩
  · exact hnodup.1 (mem_map.mpr ⟨g, hg, heq.symm⟩)
  · obtain ⟨-, -, -, c, hc, -⟩ := h.held x (hheld ▸ hx)
    exact absurd heq (hundecided _ hc)

/-- An index entry is passed. -/
theorem sound_visit (h : w.Sound st run) (hcur : w.cur = some cur) (hoffs : cur.offs = off :: offs) :
    (w.visit cur offs).Sound st run := by
  have hkeeps : (w.visit cur offs).keeps = w.keeps := by
    simp [visit, keeps, hcur]
  have hheld : (w.visit cur offs).toKnown.held = w.toKnown.held := congrArg (· ++ w.doomed) hkeeps
  have hsub : ∀ o ∈ offs, o ∈ cur.offs := fun o ho ↦ hoffs ▸ mem_cons_of_mem _ ho
  have hat := h.cur cur hcur
  refine ⟨h.next_le, h.back, h.clamp_le, hheld ▸ h.held, hheld ▸ h.nodup, hkeeps ▸ h.dominated,
    h.groups_nodup, h.groups, fun cur' hc ↦ ?_, h.decided, h.undecided, h.newest⟩
  cases hc
  exact ⟨⟨(hoffs ▸ hat.entries.1).of_cons, fun o ho ↦ hat.entries.2 o (hsub o ho)⟩, hat.apart,
    fun x hx heq o ho ↦ hat.below x (hheld ▸ hx) heq o (hsub o ho), hat.keep_id, hat.cutoff⟩

/-- The signal gets its cutoff, or has it already. -/
theorem sound_decide (h : w.Sound st run) (hcur : w.cur = some cur) (hbase : Has st w.base off e)
    (hid : e.signalID = cur.signalID) (hc : cur.cutoff.or (w.call.cutoff cur.signalID e.topic) = some c) :
    (w.decide cur c).Sound st run := by
  have hkeeps : (w.decide cur c).keeps = w.keeps := by
    simp [decide, keeps, hcur]
  have hheld : (w.decide cur c).toKnown.held = w.toKnown.held := congrArg (· ++ w.doomed) hkeeps
  have hat := h.cur cur hcur
  -- what was decided of the signal before is this cutoff
  have hsame : ∀ c', (cur.signalID, c') ∈ w.decided → c' = c := fun c' hc' ↦ by
    rw [(hat.cutoff c').mp hc'] at hc
    exact some.inj hc
  have hold : ∀ {p}, p ∈ w.decided → p ∈ (w.decide cur c).decided := mem_cons_of_mem _
  refine ⟨h.next_le, h.back, h.clamp_le, ?_, hheld ▸ h.nodup, hkeeps ▸ h.dominated, h.groups_nodup,
    h.groups, fun cur' hc' ↦ ?_, fun p hp ↦ ?_, fun p hp ↦ ?_,
    fun c' o e' hle ↦ h.newest c' o e' fun c'' hc'' ↦ hle c'' (hold hc'')⟩
  · rw [hheld]
    intro x hx
    obtain ⟨hrun, hsig, hlt, c', hc', hts⟩ := h.held x hx
    exact ⟨hrun, hsig, hlt, c', hold hc', hts⟩
  · cases hc'
    refine ⟨hat.entries, hat.apart, hheld ▸ hat.below, hat.keep_id, fun c' ↦ ⟨fun hmem ↦ ?_, ?_⟩⟩
    · rcases mem_cons.mp hmem with heq | hmem
      · exact congrArg some (Prod.mk.inj heq).2.symm
      · exact congrArg some (hsame c' hmem).symm
    · rintro ⟨⟩
      exact mem_cons_self
  · refine ⟨hp, ?_, fun c' hc' ↦ ?_⟩
    · rcases mem_cons.mp hp with rfl | hp
      · cases hcut : cur.cutoff with
        | some c' =>
          rw [hcut] at hc
          cases hc
          exact (h.decided _ ((hat.cutoff _).mpr hcut)).2.1
        | none =>
          rw [hcut] at hc
          exact ⟨off, e, hbase, hid, hc⟩
      · exact (h.decided p hp).2.1
    · rcases mem_cons.mp hp with rfl | hp <;> rcases mem_cons.mp hc' with heq | hc'
      · exact (Prod.mk.inj heq).2
      · exact hsame c' hc'
      · obtain ⟨hp1, hp2⟩ := Prod.mk.inj heq
        rw [hp2, hsame p.2 (hp1 ▸ hp)]
      · exact (h.decided p hp).2.2 c' hc'
  · rcases mem_cons.mp hp with rfl | hp
    · exact hat.apart
    · exact h.undecided p hp

/-- What one more record before the cutoff changes: it joins those held, and one of the signal is kept. -/
structure Joins (w w' : Known) (cur : Cur) (x : Doomed) : Prop where
  frame : (w'.base = w.base ∧ w'.call = w.call ∧ w'.clamp = w.clamp) ∧ w'.groups = w.groups ∧
    w'.decided = w.decided
  cur : ∃ k : Doomed, k.1 = cur.signalID ∧ w'.cur = some { cur with keep := some k }
  held : w'.held.Perm (x :: w.held)
  dominated : (∀ y ∈ w.doomed, ∃ k ∈ w.keeps, k.1 = y.1 ∧ y.2.2.ts ≤ k.2.2.ts) →
    ∀ y ∈ w'.doomed, ∃ k ∈ w'.keeps, k.1 = y.1 ∧ y.2.2.ts ≤ k.2.2.ts

theorem joins_keepOrDoom (hcur : w.cur = some cur) (hkeep : ∀ k, cur.keep = some k → k.1 = cur.signalID)
    {x : Doomed} (hx : x.1 = cur.signalID) : Joins w.toKnown (w.keepOrDoom cur x).toKnown cur x := by
  unfold keepOrDoom
  cases hk : cur.keep with
  | none =>
    refine ⟨⟨⟨rfl, rfl, rfl⟩, rfl, rfl⟩, ⟨x, hx, rfl⟩, ?_, fun h y hy ↦ ?_⟩
    · simp [held, keeps, hcur, hk]
    · obtain ⟨k, hmem, hdom⟩ := h y hy
      refine ⟨k, ?_, hdom⟩
      simp only [keeps, hcur, bind_some, hk, toList_none, append_nil] at hmem
      exact mem_append_left _ hmem
  | some k =>
    have hid := hkeep k hk
    -- whichever is kept is no older than the other
    obtain ⟨k', g, hk', hg, hor, hle⟩ : ∃ k' g, k' = (if k.2.2.ts ≤ x.2.2.ts then x else k) ∧
        g = (if k.2.2.ts ≤ x.2.2.ts then k else x) ∧ (k' = x ∧ g = k ∨ k' = k ∧ g = x) ∧
        g.2.2.ts ≤ k'.2.2.ts := by
      refine ⟨_, _, rfl, rfl, ?_⟩
      split
      · exact ⟨.inl ⟨rfl, rfl⟩, by assumption⟩
      · exact ⟨.inr ⟨rfl, rfl⟩, by omega⟩
    dsimp only
    rw [← hk', ← hg]
    have hkk : k'.1 = cur.signalID ∧ g.1 = cur.signalID ∧ k.2.2.ts ≤ k'.2.2.ts := by
      rcases hor with ⟨rfl, rfl⟩ | ⟨rfl, rfl⟩
      · exact ⟨hx, hid, hle⟩
      · exact ⟨hid, hx, le_rfl⟩
    refine ⟨⟨⟨rfl, rfl, rfl⟩, rfl, rfl⟩, ⟨k', hkk.1, rfl⟩, ?_, fun h y hy ↦ ?_⟩
    · simp only [held, keeps, hcur, hk, bind_some, toList_some, append_assoc, singleton_append]
      rcases hor with ⟨rfl, rfl⟩ | ⟨rfl, rfl⟩
      · exact perm_middle.trans (((perm_append_singleton _ _).append_left _).cons _)
      · rw [← cons_append, ← append_assoc]
        exact perm_append_singleton _ _
    · have hnew : k' ∈ keeps { w.toKnown with
          cur := some { cur with keep := some k' }, doomed := w.doomed ++ [g] } :=
        mem_append_right _ mem_cons_self
      rcases mem_append.mp hy with hy | hy
      · obtain ⟨k₀, hmem, heq, hts⟩ := h y hy
        rcases mem_append.mp hmem with hmem | hmem
        · exact ⟨k₀, mem_append_left _ hmem, heq, hts⟩
        · -- what the old candidate stood for, the new one does
          obtain rfl : k₀ = k := by simpa [hcur, hk, eq_comm] using hmem
          exact ⟨k', hnew, by rw [← heq, hid, hkk.1], hts.trans hkk.2.2⟩
      · rw [mem_singleton.mp hy]
        exact ⟨k', hnew, by rw [hkk.1, hkk.2.1], hle⟩

/-- A record before the cutoff is kept, or the one it stands against. -/
theorem sound_keepOrDoom (h : w.Sound st run) (hcur : w.cur = some cur) (hc : cur.cutoff = some c)
    (hrun : Has st run off e) (hid : e.signalID = cur.signalID) (hlt : off < w.clamp) (hts : e.ts < c)
    (hnew : ∀ x ∈ w.held, x.1 = cur.signalID → x.2.1 < off) (hoffs : ∀ o ∈ cur.offs, off < o) :
    (w.keepOrDoom cur (cur.signalID, off, e)).Sound st run := by
  have hat := h.cur cur hcur
  -- the record is none of those held: it would be under this signal, and below
  have hfresh : off ∉ w.held.map fun x ↦ x.2.1 := fun hmem ↦ by
    obtain ⟨x, hx, rfl⟩ := mem_map.mp hmem
    obtain ⟨hxrun, hxid, -⟩ := h.held x hx
    have heq : x.2.2 = e := some.inj (hxrun.symm.trans hrun)
    exact (hnew x hx (hxid.symm.trans (heq ▸ hid))).false
  have hj := joins_keepOrDoom (x := (cur.signalID, off, e)) hcur hat.keep_id rfl
  obtain ⟨w', hw'⟩ : ∃ w', w' = (w.keepOrDoom cur (cur.signalID, off, e)).toKnown := ⟨_, rfl⟩
  rw [← hw'] at hj ⊢
  obtain ⟨base, call, clamp, groups, decided⟩ : _ ∧ _ ∧ _ ∧ _ ∧ _ :=
    ⟨hj.frame.1.1, hj.frame.1.2.1, hj.frame.1.2.2, hj.frame.2.1, hj.frame.2.2⟩
  obtain ⟨k, hk, hcur'⟩ := hj.cur
  have hmem : ∀ x ∈ w'.held, x = (cur.signalID, off, e) ∨ x ∈ w.held := fun x hx ↦
    mem_cons.mp (hj.held.mem_iff.mp hx)
  have hiff : ∀ id c, w'.IsCutoff st id c ↔ w.IsCutoff st id c := fun id c ↦ by
    rw [IsCutoff, IsCutoff, decided, base, call]
  refine ⟨by rw [base]; exact h.next_le, by rw [base]; exact h.back, by rw [base, clamp]; exact h.clamp_le,
    fun x hx ↦ ?_, ?_, hj.dominated h.dominated, groups ▸ h.groups_nodup, ?_, fun cur' hc' ↦ ?_,
    fun p hp ↦ (hiff _ _).mpr (h.decided p (decided ▸ hp)), by rw [groups, decided]; exact h.undecided,
    by rw [base, decided]; exact h.newest⟩
  · rw [clamp, decided]
    rcases hmem x hx with rfl | hx
    · exact ⟨hrun, hid, hlt, c, (hat.cutoff c).mpr hc, hts⟩
    · exact h.held x hx
  · rw [(hj.held.map _).nodup_iff, map_cons, nodup_cons]
    exact ⟨hfresh, h.nodup⟩
  · rw [groups]
    intro g hg
    rw [Entries, base]
    exact h.groups g hg
  · rw [hcur'] at hc'
    cases hc'
    refine ⟨by rw [Entries, base]; exact hat.entries, groups ▸ hat.apart, fun x hx heq o ho ↦ ?_, ?_,
      by rw [decided]; exact hat.cutoff⟩
    · rcases hmem x hx with rfl | hx
      · exact hoffs o ho
      · exact hat.below x hx heq o ho
    · rintro _ ⟨⟩
      exact hk

/-- **A step of the walk.** -/
theorem sound_advance (h : w.Sound st run) : (w.advance run.store.disk st).Sound st run := by
  unfold advance
  cases hcur : w.cur with
  | none =>
    dsimp only
    cases hgroups : w.groups with
    | nil => exact h
    | cons g groups =>
      dsimp only
      split
      · exact h
      · exact sound_enter h hcur hgroups
  | some cur =>
    dsimp only
    cases hoffs : cur.offs with
    | nil => exact sound_leave h hcur
    | cons off offs =>
      dsimp only
      split
      · exact sound_leave h hcur
      · rename_i hclamp
        have hlt : off < w.clamp := Nat.lt_of_not_le hclamp
        have hv := sound_visit h hcur hoffs
        cases hrec : recordAt run.store.disk st off with
        | none => exact hv
        | some e =>
          have hat := h.cur cur hcur
          have hbase : Has st w.base off e := h.back off e (hlt.trans_le h.clamp_le) hrec
          have hid : e.signalID = cur.signalID :=
            hat.entries.2 off (hoffs ▸ mem_cons_self) e hbase
          dsimp only [found]
          split
          · exact hv
          · split
            · exact sound_leave hv rfl
            · rename_i c hc
              have hd := sound_decide hv rfl hbase hid hc
              split
              · have hl := sound_leave hd rfl
                exact hl
              · rename_i hts
                refine sound_keepOrDoom hd rfl rfl hrec hid hlt (by omega) (fun x hx heq ↦ ?_) ?_
                · refine hat.below x ?_ heq off (hoffs ▸ mem_cons_self)
                  simpa [held, keeps, decide, visit, hcur] using hx
                · have hpw := hat.entries.1
                  rw [hoffs] at hpw
                  exact (pairwise_cons.mp hpw).1

end Walk

/-! ### Batches -/

section Batch

variable {floor o : ℕ} {doomed : List Doomed} {gaps : List Record}

/-- A batch takes what it flushes. -/
theorem has_removeOr (ho : o < run.next st) :
    Has st (run.removeOr env (signalsScanned env run st floor doomed) gaps) o e ↔
      Has st run o e ∧ ∀ x ∈ flushed run st floor doomed, x.2.1 ≠ o := by
  cases hx : signalsScanned env run st floor doomed with
  | none =>
    have hnil : flushed run st floor doomed = [] := by
      unfold signalsScanned at hx
      split at hx
      · assumption
      · cases hx
    simp [hnil, StoreRun.State.removeOr]
  | some x =>
    rw [signalsScanned_eq hx]
    show recordAt (run.remove env _ gaps).store.disk st o = _ ↔ _
    rw [remove_recordAt ho, recordAt_removeKeys]
    rw [ite_none_left_eq_some, and_comm]
    simp only [Has, mem_flatMap, true_and, not_exists, not_and, mem_cons, Gone.record.injEq,
      reduceCtorEq, not_mem_nil, or_false, ne_comm (a := o)]

variable (h : w.Sound st run)
include h

theorem inv_removeOr (hi : StoreRun.Inv run) :
    StoreRun.Inv (run.removeOr env (signalsScanned env run st floor w.doomed) gaps) ∧
      Later run
        (run.removeOr env (signalsScanned env run st floor w.doomed) gaps) := by
  cases hx : signalsScanned env run st floor w.doomed with
  | none => exact ⟨hi, .of_scans run run.scans⟩
  | some x =>
    have hheld : ∀ x ∈ w.doomed, x ∈ w.held := fun x hx ↦ mem_append_right _ hx
    have hread : Read run st (w.doomed.map Prod.snd) := by
      refine ⟨?_, fun y hy ↦ ?_, fun y hy e he ↦ ?_⟩
      · have hnodup := h.nodup
        rw [Known.held, map_append] at hnodup
        rw [List.map_map]
        exact hnodup.of_append_right
      · obtain ⟨x, hx, rfl⟩ := mem_map.mp hy
        exact ((h.held x (hheld x hx)).2.2.1.trans_le h.clamp_le).trans_le h.next_le
      · obtain ⟨x, hx, rfl⟩ := mem_map.mp hy
        exact some.inj (he.symm.trans (h.held x (hheld x hx)).1)
    have hsub := flushed_sublist run st floor w.doomed
    have hsound : x.Sound run := by
      rw [signalsScanned_eq hx]
      exact .of_holes hi ((hread.sublist (hsub.map _)).whole_signals
        fun y hy ↦ (h.held y (hheld y (hsub.subset hy))).2.1)
    exact ⟨hi.removed hsound hi.scans, hsound.later⟩

/-- What the walk keeps is in no batch. -/
theorem has_keeps {k : Doomed} (hk : k ∈ w.keeps) :
    Has st (run.removeOr env (signalsScanned env run st floor w.doomed) gaps) k.2.1 k.2.2 := by
  obtain ⟨hkrun, -, hklt, -⟩ := h.held k (mem_append_left _ hk)
  refine (has_removeOr ((hklt.trans_le h.clamp_le).trans_le h.next_le)).mpr ⟨hkrun, fun y hy heq ↦ ?_⟩
  have hnodup := h.nodup
  rw [Known.held, map_append] at hnodup
  exact disjoint_of_nodup_append hnodup (mem_map_of_mem hk)
    (heq ▸ mem_map_of_mem ((flushed_sublist run st floor w.doomed).subset hy))

/-- **A record that a batch takes has another that stands in for it.** -/
theorem stands_in (ho : o < run.next st) (hhas : Has st run o e) (hts : e.ts < c)
    (hc : ∀ c', (e.signalID, c') ∈ w.decided → c' ≤ c) : ∃ o' e', Has st run o' e' ∧
      Has st (run.removeOr env (signalsScanned env run st floor w.doomed) gaps) o' e' ∧
      e'.signalID = e.signalID ∧ e.ts ≤ e'.ts ∧ e'.ts < c ∧ (o' = o ∨ o' < w.clamp) := by
  by_cases hgone : ∀ x ∈ flushed run st floor w.doomed, x.2.1 ≠ o
  · exact ⟨o, e, hhas, (has_removeOr ho).mpr ⟨hhas, hgone⟩, rfl, le_rfl, hts, .inl rfl⟩
  · push Not at hgone
    obtain ⟨x, hx, rfl⟩ := hgone
    have hx := (flushed_sublist run st floor w.doomed).subset hx
    obtain ⟨hxrun, hxid, -⟩ := h.held x (mem_append_right _ hx)
    obtain rfl : x.2.2 = e := some.inj (hxrun.symm.trans hhas)
    obtain ⟨k, hk, hkid, hle⟩ := h.dominated x hx
    obtain ⟨hkrun, hksig, hklt, c', hc', hkts⟩ := h.held k (mem_append_left _ hk)
    have hid : k.2.2.signalID = x.2.2.signalID := by rw [hksig, hkid, hxid]
    exact ⟨k.2.1, k.2.2, hkrun, has_keeps h hk, hid, hle,
      hkts.trans_le (hc c' (by rw [hxid, ← hkid]; exact hc')), .inr hklt⟩

end Batch

/-- The store goes on, and every record leaves one that stands in for it. -/
theorem Known.Sound.later {w : Known} {doomed : List Doomed} (h : w.Sound st run)
    (hl : Later run run') (hsub : doomed.Sublist w.doomed)
    (hheld : ∀ x ∈ w.keeps ++ doomed, Has st run' x.2.1 x.2.2)
    (hnew : ∀ c o e, (∀ c', (e.signalID, c') ∈ w.decided → c' ≤ c) → o < w.base.next st → Has st run o e →
      e.ts < c → ∃ o' e', Has st run o' e' ∧ Has st run' o' e' ∧ e'.signalID = e.signalID ∧
        e.ts ≤ e'.ts ∧ e'.ts < c ∧ (o' = o ∨ o' < w.clamp)) (hi : StoreRun.Inv w.base) :
    Known.Sound st run' { w with doomed := doomed } := by
  have hs : (w.keeps ++ doomed).Sublist w.held := hsub.append_left _
  refine ⟨h.next_le.trans (hl.next_le st), fun o e ho he ↦ ?_, h.clamp_le, fun x hx ↦ ?_,
    h.nodup.sublist (hs.map _), fun x hx ↦ h.dominated x (hsub.subset hx), h.groups_nodup, h.groups,
    fun cur hcur ↦ ?_, h.decided, h.undecided, fun c o e hc he hts ↦ ?_⟩
  · exact h.back o e ho (hl.kept st o e (ho.trans_le h.next_le) he)
  · exact ⟨hheld x hx, (h.held x (hs.subset hx)).2⟩
  · have hat := h.cur cur hcur
    exact ⟨hat.entries, hat.apart, fun x hx ↦ hat.below x (hs.subset hx), hat.keep_id, hat.cutoff⟩
  · obtain ⟨o₁, e₁, hbase, hrun, hid, hle, hlt⟩ := h.newest c o e hc he hts
    have ho₁ := hi.layout.records.lt_next st o₁ e₁ hbase
    obtain ⟨o₂, e₂, hrun₂, hrun', hid₂, hle₂, hlt₂, ho₂⟩ := hnew c o₁ e₁ (hid ▸ hc) ho₁ hrun hlt
    have hb : o₂ < w.base.next st := ho₂.elim (fun heq ↦ heq ▸ ho₁) fun hlt ↦ hlt.trans_le h.clamp_le
    exact ⟨o₂, e₂, h.back o₂ e₂ hb hrun₂, hrun', hid₂.trans hid, hle.trans hle₂, hlt₂⟩

/-! ### Runs -/

variable {ev : Event} {op : WriteOp} {call : Call} {ok : Bool}

/-- Appends leave every record. -/
theorem write_spec (hi : StoreRun.Inv run)
    (h : StoreRun.step env run (.write op ok) = some run') : StoreRun.Inv run' ∧ Later run run' ∧
      ∀ o e, Has st run o e → Has st run' o e := by
  have hdoes := hi.does h
  refine ⟨hdoes.inv hi, hdoes.later hi nofun, fun o e he ↦ ?_⟩
  have ho := hi.layout.records.lt_next st o e he
  cases hdoes with
  | wrote hb hw => exact (wrote_recordAt hb hw ho).trans he
  | scanned _ => exact he
  | removed hx _ => cases hx
  | reopened hx => cases hx

/-- The floor is at or below every cursor that the call may not pass. -/
theorem floor_le {cursor : String × ℕ} (h : cursor ∈ s.cursors) (hp : call.Protected cursor) :
    s.floor st call ≤ cursor.2 :=
  cursorFloor_le (mem_cons_of_mem _ (mem_map_of_mem (mem_filter.mpr ⟨h, decide_eq_true hp⟩)))

/-- A decision stands, and no lock is taken. -/
theorem Walk.advance_keeps (d : Disk) (st : Stream) (hfree : w.phase.floor = none) :
    (w.advance d st).base = w.base ∧ w.decided ⊆ (w.advance d st).decided ∧
      (w.advance d st).phase.floor = none := by
  have hkeep : ∀ (w' : Walk) cur x, w'.phase.floor = none → w'.base = w.base → w.decided ⊆ w'.decided →
      (w'.keepOrDoom cur x).base = w.base ∧ w.decided ⊆ (w'.keepOrDoom cur x).decided ∧
        (w'.keepOrDoom cur x).phase.floor = none := fun w' cur x hfree hb hd ↦ by
    unfold Walk.keepOrDoom
    split
    · exact ⟨hb, hd, hfree⟩
    · dsimp only
      split <;> exact ⟨hb, hd, rfl⟩
  unfold Walk.advance Walk.found
  repeat' split
  all_goals first
    | exact ⟨rfl, List.Subset.refl _, hfree⟩
    | exact ⟨rfl, List.Subset.refl _, rfl⟩
    | exact ⟨rfl, subset_cons_self _ _, hfree⟩
    | exact hkeep _ _ _ hfree rfl (subset_cons_self _ _)

/-- **The invariant.** -/
structure Inv (st : Stream) (run₀ : StoreRun.State) (s : State) : Prop where
  store : StoreRun.Inv s.run
  walk : ∀ w, s.walk = some w → w.Sound st s.run ∧ StoreRun.Inv w.base
  pass : ∀ c o e, (∀ c', (e.signalID, c') ∈ s.cutoffs → c' ≤ c) → Has st run₀ o e → e.ts < c →
    ∃ o' e', Has st s.run o' e' ∧ e'.signalID = e.signalID ∧ e.ts ≤ e'.ts ∧ e'.ts < c
  /-- A batch that has looked has a floor below the cursors. -/
  locked : ∀ w, s.walk = some w → ∀ floor, w.phase.floor = some floor → ∀ cursor ∈ s.cursors,
    w.call.Protected cursor → floor ≤ cursor.2

variable {run₀ : StoreRun.State}

theorem Inv.write (h : Inv st run₀ s)
    (hs : StoreRun.step env s.run (.write op ok) = some run') : Inv st run₀ { s with run := run' } := by
  obtain ⟨hi, hl, hkept⟩ := write_spec h.store hs
  refine ⟨hi, fun w hw ↦ ?_, fun c o e hc he hts ↦ ?_, h.locked⟩
  · obtain ⟨hsound, hbase⟩ := h.walk w hw
    exact ⟨hsound.later hl (List.Sublist.refl _) (fun x hx ↦ hkept _ _ (hsound.held x hx).1)
      (fun c o e _ _ he hts ↦ ⟨o, e, he, hkept o e he, rfl, le_rfl, hts, .inl rfl⟩) hbase, hbase⟩
  · obtain ⟨o', e', hrun, hrest⟩ := h.pass c o e hc he hts
    exact ⟨o', e', hkept o' e' hrun, hrest⟩

theorem Inv.begin_ (h : Inv st run₀ s) {groups : List (String × List ℕ)}
    (hg : Iterates st s.run groups) : Inv st run₀ (s.begin_ st call groups) := by
  unfold State.begin_
  split
  · exact h
  · refine ⟨h.store, fun w hw ↦ ?_, fun c o e hc ↦ h.pass c o e fun c' hc' ↦
      hc c' (mem_append_left _ hc'), fun w hw ↦ by cases hw; exact nofun⟩
    cases hw
    refine ⟨⟨le_rfl, fun _ _ _ he ↦ he, min_le_right _ _, nofun, nodup_nil, nofun, hg.1,
      fun g hmem ↦ ⟨(hg.2 g hmem).1, fun o ho e he ↦ ?_⟩, nofun, nofun, nofun,
      fun c o e _ he hts ↦ ⟨o, e, he, he, rfl, le_rfl, hts⟩⟩, h.store⟩
    exact h.store.layout.sig.names st g.1 o e ((hg.2 g hmem).2 o ho).1 he

theorem Inv.advance (h : Inv st run₀ s) (hw : s.walk = some w) (hfree : w.phase.floor = none) :
    Inv st run₀ { s with walk := some (w.advance s.run.store.disk st) } := by
  obtain ⟨hsound, hbase⟩ := h.walk w hw
  have hadv := Walk.sound_advance hsound
  have hkeeps := w.advance_keeps s.run.store.disk st hfree
  refine ⟨h.store, fun w' hw' ↦ ?_, fun c o e hc ↦ h.pass c o e fun c' hc' ↦ hc c' ?_, fun w' hw' ↦ ?_⟩
  · cases hw'
    exact ⟨hadv, hkeeps.1 ▸ hbase⟩
  · rw [State.cutoffs, hw] at hc'
    exact mem_append.mpr ((mem_append.mp hc').imp_right fun hm ↦ hkeeps.2.1 hm)
  · cases hw'
    rw [hkeeps.2.2]
    exact nofun

theorem Inv.commit {floor : ℕ} {stale : List (String × ℕ)} (h : Inv st run₀ s) (hw : s.walk = some w)
    (resume : Option String) (gaps : List Record) :
    Inv st run₀ (s.commit env st w resume floor stale gaps) := by
  obtain ⟨hsound, hbase⟩ := h.walk w hw
  obtain ⟨hi, hl⟩ := inv_removeOr hsound h.store
  refine ⟨hi, fun w' hw' ↦ ?_, fun c o e hc he hts ↦ ?_, fun w' hw' floor hf ↦ ?_⟩
  · cases hw'
    refine ⟨hsound.later hl (nil_sublist _) (fun x hx ↦ ?_) (fun c o e hc ho he hts ↦ ?_) hbase, hbase⟩
    · rw [append_nil] at hx
      exact has_keeps hsound hx
    · exact stands_in hsound (ho.trans_le hsound.next_le) he hts hc
  · have hc' : ∀ c', (e.signalID, c') ∈ s.cutoffs → c' ≤ c := fun c' hc' ↦ hc c' (by
      rwa [State.cutoffs, hw] at hc')
    obtain ⟨o₁, e₁, hrun, hid, hle, hlt⟩ := h.pass c o e hc' he hts
    obtain ⟨o₂, e₂, -, hrun₂, hid₂, hle₂, hlt₂, -⟩ := stands_in hsound
      (h.store.layout.records.lt_next st o₁ e₁ hrun) hrun hlt fun c' hm ↦ hc' c' (by
        rw [State.cutoffs, hw]
        exact mem_append_right _ (hid ▸ hm))
    exact ⟨o₂, e₂, hrun₂, hid₂.trans hid, hle.trans hle₂, hlt₂⟩
  · cases hw'
    cases resume <;> cases hf

/-- What a step does. -/
theorem step_cases (hs : step env st s ev = some s') :
    (∃ op ok run', StoreRun.step env s.run (.write op ok) = some run' ∧ s' = { s with run := run' }) ∨
    (∃ cs, ev = .cursors cs ∧ s' = { s with cursors := cs }) ∨
    (∃ call groups, Iterates st s.run groups ∧ s' = s.begin_ st call groups) ∨
    (∃ w, s.walk = some w ∧ w.phase.floor = none ∧
      s' = { s with walk := some (w.advance s.run.store.disk st) }) ∨
    (∃ w resume stale, s.walk = some w ∧
      s' = { s with walk := some { w with phase := .deleting resume (s.floor st w.call) stale } }) ∨
    ∃ w resume floor stale gaps, s.walk = some w ∧ w.phase.floor = some floor ∧
      s' = s.commit env st w resume floor stale gaps := by
  cases ev with
  | write op ok =>
    obtain ⟨-, hs⟩ := ite_none_left_eq_some.mp hs
    obtain ⟨run', hrun, rfl⟩ := map_eq_some_iff.mp hs
    exact .inl ⟨op, ok, run', hrun, rfl⟩
  | cursors cs =>
    cases hs
    exact .inr (.inl ⟨cs, rfl, rfl⟩)
  | call call groups =>
    simp only [step] at hs
    split at hs <;> first | cases hs | skip
    all_goals
      obtain ⟨hg, hs⟩ := ite_none_right_eq_some.mp hs
      cases hs
      exact .inr (.inr (.inl ⟨call, groups, hg, rfl⟩))
  | advance =>
    simp only [step] at hs
    split at hs
    · rename_i w hw
      split at hs <;> cases hs
      rename_i hph
      exact .inr (.inr (.inr (.inl ⟨w, hw, by rw [hph]; rfl, rfl⟩)))
    · cases hs
  | look =>
    simp only [step] at hs
    split at hs
    · rename_i w hw
      split at hs <;> cases hs
      exact .inr (.inr (.inr (.inr (.inl ⟨w, _, _, hw, rfl⟩))))
    · cases hs
  | commit gaps =>
    simp only [step] at hs
    split at hs
    · rename_i w hw
      split at hs <;> cases hs
      rename_i hph
      exact .inr (.inr (.inr (.inr (.inr ⟨w, _, _, _, gaps, hw, by rw [hph]; rfl, rfl⟩))))
    · cases hs

theorem Inv.step (h : Inv st run₀ s) (hC : Undisturbed s ev) (hs : step env st s ev = some s') :
    Inv st run₀ s' := by
  obtain ⟨op, ok, run', hrun, rfl⟩ | ⟨cs, rfl, rfl⟩ | ⟨call, groups, hg, rfl⟩ | ⟨w, hw, hfree, rfl⟩ |
    ⟨w, resume, stale, hw, rfl⟩ | ⟨w, resume, floor, stale, gaps, hw, -, rfl⟩ := step_cases hs
  · exact h.write hrun
  · exact ⟨h.store, h.walk, h.pass, fun w hw floor hf ↦ hC w hw floor hf⟩
  · exact h.begin_ hg
  · exact h.advance hw hfree
  · refine ⟨h.store, fun w' hw' ↦ ?_, fun c o e hc ↦ h.pass c o e fun c' hc' ↦ hc c' ?_, fun w' hw' ↦ ?_⟩
    · cases hw'
      exact h.walk w hw
    · rwa [State.cutoffs, hw] at hc'
    · cases hw'
      rintro _ ⟨⟩ cursor hmem hp
      exact floor_le hmem hp
  · exact h.commit hw resume gaps

/-- Only a batch removes records: those it dooms, before the cutoffs and below the floor. -/
theorem Inv.old {o : ℕ} (h : Inv st run₀ s) (hs : SignalPrune.step env st s ev = some s')
    (he : Has st s.run o e) (hgone : ¬ Has st s'.run o e) :
    ∃ w c, s.walk = some w ∧ w.IsCutoff st e.signalID c ∧ e.ts < c ∧
      ∀ cursor ∈ s.cursors, w.call.Protected cursor → o < cursor.2 := by
  obtain ⟨op, ok, run', hrun, rfl⟩ | ⟨cs, -, rfl⟩ | ⟨call, groups, hg, rfl⟩ | ⟨w, hw, -, rfl⟩ |
    ⟨w, resume, stale, hw, rfl⟩ | ⟨w, resume, floor, stale, gaps, hw, hf, rfl⟩ := step_cases hs
  · exact absurd ((write_spec h.store hrun).2.2 o e he) hgone
  · exact absurd he hgone
  · refine absurd ?_ hgone
    unfold State.begin_
    split <;> exact he
  · exact absurd he hgone
  · exact absurd he hgone
  · have hsound := (h.walk w hw).1
    have ho := h.store.layout.records.lt_next st o e he
    have hflushed : ∃ x ∈ flushed s.run st floor w.doomed, x.2.1 = o := by
      by_contra hno
      push Not at hno
      exact hgone ((has_removeOr ho).mpr ⟨he, hno⟩)
    obtain ⟨x, hx, rfl⟩ := hflushed
    obtain ⟨hx, hkept⟩ := mem_filter.mp hx
    simp only [Bool.and_eq_true, decide_eq_true_eq] at hkept
    obtain ⟨hrun, hid, -, c, hc, hts⟩ := hsound.held x (mem_append_right _ hx)
    obtain rfl : x.2.2 = e := some.inj (hrun.symm.trans he)
    exact ⟨w, c, hw, hid ▸ hsound.decided _ hc, hts, fun cursor hcur hp ↦
      (hkept.1.trans_le (min_le_left _ _)).trans_le (h.locked w hw floor hf cursor hcur hp)⟩

/-- Of finitely many records with a property, one has the latest timestamp. -/
theorem exists_newest (hi : StoreRun.Inv run) (P : RecEnc → Prop) (h : ∃ o e, Has st run o e ∧ P e) :
    ∃ o e, Has st run o e ∧ P e ∧ ∀ o' e', Has st run o' e' → P e' → e'.ts ≤ e.ts := by
  classical
  have hmem : ∀ o e, (o, e) ∈ recordsIn run.store.disk st 0 (run.next st) ↔ Has st run o e := fun o e ↦
    ⟨fun h ↦ (mem_recordsIn.mp h).2.2, fun h ↦
      mem_recordsIn.mpr ⟨Nat.zero_le _, hi.layout.records.lt_next st o e h, h⟩⟩
  obtain ⟨o, e, he, hp⟩ := h
  obtain ⟨x, hx, hmax⟩ := ((recordsIn run.store.disk st 0 (run.next st)).toFinset.filter fun x ↦
    P x.2).exists_max_image (fun x ↦ x.2.ts) ⟨(o, e), by simp [hmem, he, hp]⟩
  simp only [Finset.mem_filter, List.mem_toFinset, hmem] at hx hmax
  exact ⟨x.1, x.2, hx.1, hx.2, fun o' e' he' hp' ↦ hmax (o', e') ⟨he', hp'⟩⟩

theorem Inv.inForce (h : Inv st run₀ s) : s.InForce env st run₀ where
  old _ _ hs _ _ he hgone := h.old hs he hgone
  newest w hw signalID c hc hex := by
    obtain ⟨hsound, hbase⟩ := h.walk w hw
    obtain ⟨o, e, he, ⟨rfl, hts⟩, hmax⟩ := exists_newest hbase (fun e ↦ e.signalID = signalID ∧ e.ts < c) hex
    obtain ⟨o', e', hb, hrun, hid, hle, hlt⟩ := hsound.newest c o e hc he hts
    exact ⟨o', e', hb, hrun, hid, hlt, fun o'' e'' he'' hid'' hts'' ↦
      (hmax o'' e'' he'' ⟨hid'', hts''⟩).trans hle⟩
  pass := h.pass

/-- **The value in force is kept.** From every state of a store, over any calls under any rules and visit
limits, with any appends in between, and with cursor movements of which none undercuts a batch that has
looked at the cursors: a record that is removed is before the cutoff of its signal and below the cursors that
the call may not pass, and of the records a signal had before its cutoff one with the latest timestamp
stays. -/
theorem value_in_force (env : WriteEnv) (st : Stream) (f : Found) (run₀ : StoreRun.State)
    (h₀ : (StoreRun.system env f).Reachable run₀) (s : State)
    (h : (system env st run₀).Reach Undisturbed s) : s.InForce env st run₀ := by
  have hinv : Inv st run₀ s := h.invariant (I := Inv st run₀)
    ⟨inv_of_reachable h₀, fun w hw ↦ (nomatch (hw : none = some w)),
      fun c o e _ he hts ↦ ⟨o, e, he, rfl, le_rfl, hts⟩, fun w hw ↦ (nomatch (hw : none = some w))⟩
    fun s ev s' hi hC hs ↦ hi.step hC hs
  exact hinv.inForce

/-! ### A call cut short -/

/-- A rule of one millisecond for every signal, and a visit limit. -/
def sampleCall (maxVisit : ℕ) : Call where
  now := 100
  rule _ _ := some 1000000
  clamp := 10
  overridden := []
  maxVisit := maxVisit

/-- Three samples of the first milliseconds; a call that ends after two, and one that takes the rest while
a sample arrives. -/
def twoCalls : List Event :=
  [.write (.append [⟨.metrics, [{ sampleMetric 1 with ts := 1 },
      { sampleMetric 2 with ts := 3 }, { sampleMetric 3 with ts := 2 }]⟩]) true,
    .call (sampleCall 2) [("flow", [1, 2, 3])], .advance, .advance, .advance, .advance, .look, .commit [],
    .call (sampleCall 0) [("flow", [2, 3])], .advance, .advance, .advance,
    .write (.append [⟨.metrics, [{ sampleMetric 4 with ts := 200 }]⟩]) true,
    .advance, .advance, .look, .commit []]

/-- The offsets that are left. -/
def retained (s : State) : List ℕ :=
  (recordsIn s.run.store.disk .metrics 0 (s.run.next .metrics)).map Prod.fst

theorem value_in_force_twoCalls : ∃ s,
    (system sampleEnv .metrics (start .empty)).Reach Undisturbed s ∧ retained s = [2, 4] ∧
      s.InForce sampleEnv .metrics (start .empty) := by
  obtain ⟨s, hreach, hs⟩ := (system sampleEnv .metrics (start .empty)).exists_reach Undisturbed twoCalls
    (fun s ↦ retained s = [2, 4])
  exact ⟨s, hreach, hs, value_in_force sampleEnv .metrics .empty _ .start s hreach⟩

/-- The first call looks at the cursors, and then a consumer saves its first position. -/
def savedMeanwhile : List Event := twoCalls.take 7 ++ [.cursors [("child", 1)]]

/-- **A record at the position of a cursor is removed.** -/
theorem saved_meanwhile : ¬ ∀ s, (system sampleEnv .metrics (start .empty)).Reachable s →
    s.InForce sampleEnv .metrics (start .empty) := by
  intro hall
  obtain ⟨s, hreach, hs⟩ := (system sampleEnv .metrics (start .empty)).exists_reachable savedMeanwhile
    (fun s ↦ (recordAt s.run.store.disk .metrics 1).any fun e ↦
      (step sampleEnv .metrics s (.commit [])).any fun s' ↦
        decide (recordAt s'.run.store.disk .metrics 1 ≠ some e ∧ s.cursors = [("child", 1)] ∧
          s.walk.all fun w ↦ w.call.overridden = []))
  obtain ⟨e, he, hs⟩ := (any_eq_true _ _).mp hs
  obtain ⟨s', hs', hd⟩ := (any_eq_true _ _).mp hs
  obtain ⟨hgone, hcur, hnone⟩ := of_decide_eq_true hd
  obtain ⟨w, -, hw, -, -, hbelow⟩ := (hall s hreach).old _ s' hs' 1 e he hgone
  rw [hw] at hnone
  refine (hbelow ("child", 1) (hcur ▸ mem_cons_self) ?_).false
  rw [Call.Protected, of_decide_eq_true hnone]
  exact nofun

end Colca.SignalPrune
