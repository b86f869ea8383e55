import Colca.Retention.EntityInv
import Mathlib.Data.List.Lex
import Mathlib.Data.String.Basic

/-!
# An overriding prune leaves the parent's view right, unless it takes a tombstone

The steps of the pruner, of its refresh, of the uplink and of the parent keep the invariant. A refresh
turns the owed entries into records at the head. A tombstone has nothing to append again: taken unread, it
leaves the parent with an entity the child no longer has, for good. `tombstone_lost` is the run.

`NoTombstoneLost` excludes just this, and in every run that meets it the parent's view is the child's
whenever nothing is owed and everything is pushed (`entity_agrees_of_reach`).
-/

namespace Colca.EntityRefresh

open Uns List Option HighWater

variable {env : Env} {s s' : State} {c c' : Child} {t : Topic} {x y : ℕ × RecEnc} {n : ℕ}

/-! ### Writers -/

/-- An append puts a record at the head, above all that is owed and lost. -/
theorem Inv.append (hi : Inv env s) (e : RecEnc) : Inv env (s.append env e) := by
  refine hi.evolves (hi.child.evolves_append e) (hi.child.append e) rfl (fun r hr ↦ ?_) ?_
  · refine ⟨(hi.refresh r hr).pending, fun t x hx hlo hhi hpast ↦ ?_⟩
    refine (hi.refresh r hr).queued t x ?_ hlo hhi hpast
    rw [append_lookup] at hx
    split at hx
    · -- the new entry lies above the range
      split at hx
      · cases hx
      · cases hx
        exact absurd hhi (hi.child.pending_le _ (hi.refresh r hr).pending).not_gt
    · exact hx
  · intro t y hent hpush hy hlt hnot
    have hy : (s.child.append env e).stream.last t = some y := hy
    rw [append_last] at hy
    split at hy
    · cases hy
      exact absurd hlt s.child.log.lwm_le_next.not_gt
    · exact hi.lost t y hent hpush hy hlt hnot

/-! ### The pruner -/

theorem isEntity_marker (lwm m : ℕ) (ts : ℤ) : env.isEntity (env.marker lwm m ts).topic = false := by
  rw [Env.isEntity, Env.ofEntities, contractOf]
  split
  · rename_i p hp
    obtain ⟨hshape, -⟩ := parse_eq_ok hp
    have hct : "_StreamGap" = p.contract := by
      injection hshape with _ h
      injection h with _ h
      injection h
    simp [← hct, env.gap]
  · rfl

theorem mergeRange_covers {pending : Option (ℕ × ℕ)} {r : ℕ × ℕ}
    (h : (r.1 ≤ n ∧ n < r.2) ∨ ∃ cur, pending = some cur ∧ cur.1 ≤ n ∧ n < cur.2) :
    (mergeRange pending r).1 ≤ n ∧ n < (mergeRange pending r).2 := by
  cases pending with
  | none => exact h.resolve_right fun ⟨_, hcur, _⟩ ↦ (nomatch hcur)
  | some cur =>
    rcases h with ⟨hlo, hhi⟩ | ⟨_, hcur, hlo, hhi⟩
    · exact ⟨(min_le_left _ _).trans hlo, hhi.trans_le (le_max_left _ _)⟩
    · cases hcur
      exact ⟨(min_le_right _ _).trans hlo, hhi.trans_le (le_max_right _ _)⟩

variable {p : Pass} {floor : ℕ}

/-- **A prune takes an unread record only with the uplink cursor it overrides.** -/
theorem Inv.mem_passed (hi : Inv env s) (hp : s.pass = some p) (hy : y ∈ s.child.log.entries)
    (hr : rises y.2 = true) (hnot : y ∉ s.taken) (hlt : y.1 < p.effective s.child.cursor floor) :
    ∃ n ∈ p.passed (p.effective s.child.cursor floor), n ≤ y.1 := by
  cases hup : p.uplink with
  | none =>
    -- no cursor of the uplink is passed: the record is below it
    have hcur : p.effective s.child.cursor floor ≤ s.child.cursor := by
      simp [Pass.effective, hup]
    exact absurd (hi.cursor.taken y hy hr (hlt.trans_le hcur)) hnot
  | some n =>
    have hle : n ≤ y.1 := Nat.le_of_not_lt fun hn ↦ hnot (((hi.pass p hp).2 n hup).taken y hy hr hn)
    refine ⟨n, mem_filter.mpr ⟨?_, by simpa using hle.trans_lt hlt⟩, hle⟩
    rw [hup]
    exact mem_append_left _ (by simp)

theorem effective_le (p : Pass) (cursor floor : ℕ) : p.effective cursor floor ≤ p.upTo :=
  (min_le_left _ _).trans (min_le_left _ _)

variable {start : ℕ} {ts : ℤ} {m : ℕ}

/-- The last record of a topic below the mark of a prune: it was below the old one, or the prune takes
it. -/
theorem Child.Inv.mem_of_lt_prune (hi : c.Inv env) (hy : c.stream.last t = some y)
    (hlt : y.1 < (c.pruneLog m).log.lwm) : y.1 < c.log.lwm ∨ (y ∈ c.log.entries ∧ y.1 < m) := by
  have hlt : y.1 < max c.log.lwm (min m c.log.next) := hlt
  rcases lt_max_iff.mp hlt with hlt | hlt
  · exact .inl hlt
  · by_cases hold : y.1 < c.log.lwm
    · exact .inl hold
    · exact .inr ⟨hi.last_mem t y hy (Nat.le_of_not_lt hold), (lt_min_iff.mp hlt).1⟩

theorem rises_of_last (hi : c.Inv env) (hpush : Uplink.pushable .entities t = true)
    (hy : c.stream.last t = some y) : rises y.2 = true := by
  rw [rises, (hi.last_key t y hy).1]
  exact hpush

/-- A prune that passes no cursor takes nothing the parent has not. -/
theorem Inv.pruneLog (hi : Inv env s) (hp : s.pass = some p)
    (hnone : p.passed (p.effective s.child.cursor floor) = []) :
    Inv env { s with child := s.child.pruneLog (p.effective s.child.cursor floor) } := by
  refine hi.evolves (s.child.evolves_pruneLog _) (hi.child.pruneLog _) rfl ?_ ?_
  · intro r hr
    rw [(hi.pass p hp).1] at hr
    cases hr
  · intro t y hent hpush hy hlt hnot
    rcases hi.child.mem_of_lt_prune hy hlt with hold | ⟨hmem, hlt⟩
    · exact hi.lost t y hent hpush hy hold hnot
    · obtain ⟨n, hn, -⟩ := hi.mem_passed hp hmem (rises_of_last hi.child hpush hy) hnot hlt
      rw [hnone] at hn
      cases hn

/-- A prune that passes cursors owes the entries of what it takes, and takes no tombstone the parent is
still to learn of. -/
theorem Inv.pruneOver (hi : Inv env s) (hp : s.pass = some p) {pos : ℕ} {rest : List ℕ}
    (hpass : p.passed (p.effective s.child.cursor floor) = pos :: rest)
    (hnext : p.upTo ≤ s.child.log.next) (hC : NoTombstoneLost env s (.commit floor ts)) :
    Inv env { s with child :=
      { (s.child.pruneLog (p.effective s.child.cursor floor)).append env
          (env.marker p.lwm (p.effective s.child.cursor floor) ts) with
        pending := some (mergeRange s.child.pending
          (rest.foldr min pos, p.effective s.child.cursor floor)) } } := by
  set m := p.effective s.child.cursor floor with hm
  have hpruned := hi.child.pruneLog m
  have hev := hpruned.evolves_append (env.marker p.lwm m ts)
  have hinv := hpruned.append (env.marker p.lwm m ts)
  refine hi.evolves ⟨?_, fun x hx ↦ hev.known x hx⟩ ⟨hinv.last_key, hinv.last_mem, hinv.known, hinv.kv_eq, ?_⟩
    rfl ?_ ?_
  · exact ⟨hev.log.next_le, fun x hx ↦ (hev.log.retained x hx).imp_left fun h ↦ mem_of_mem_filter h⟩
  · intro r hr
    cases hr
    have hle : m ≤ s.child.log.next + 1 := ((effective_le p _ _).trans hnext).trans (Nat.le_succ _)
    show (mergeRange _ _).2 ≤ s.child.log.next + 1
    cases hpend : s.child.pending with
    | none => exact hle
    | some cur => exact max_le hle ((hi.child.pending_le cur hpend).trans (Nat.le_succ _))
  · intro r hr
    rw [(hi.pass p hp).1] at hr
    cases hr
  · intro t y hent hpush hy hlt hnot
    have hy : ((s.child.pruneLog m).append env (env.marker p.lwm m ts)).stream.last t = some y := hy
    have hne : t ≠ (env.marker p.lwm m ts).topic := by
      rintro rfl
      rw [isEntity_marker] at hent
      cases hent
    rw [append_last, if_neg hne] at hy
    have hy : s.child.stream.last t = some y := hy
    rcases hi.child.mem_of_lt_prune hy hlt with hold | ⟨hmem, hlt⟩
    · obtain ⟨hlive, htomb⟩ := hi.lost t y hent hpush hy hold hnot
      exact ⟨fun h ↦ ⟨_, rfl, mergeRange_covers (.inr (hlive h))⟩, htomb⟩
    · have hr := rises_of_last hi.child hpush hy
      obtain ⟨n, hn, hle⟩ := hi.mem_passed hp hmem hr hnot hlt
      rw [← hm, hpass] at hn
      refine ⟨fun _ ↦ ⟨_, rfl, mergeRange_covers (.inl ⟨(cursorFloor_le hn).trans hle, hlt⟩)⟩, fun hret ↦ ?_⟩
      obtain ⟨htopic, -⟩ := hi.child.last_key t y hy
      subst htopic
      refine hC p hp y hmem hlt hret hent hr ?_
      rw [hi.child.kv_eq, if_pos hent, hy, filter_some, if_neg (by simp [hret])]

theorem Inv.dropPass (hi : Inv env s) : Inv env { s with pass := none } :=
  { hi with pass := fun _ hp ↦ nomatch hp }

theorem Inv.commit (hi : Inv env s) (hp : s.pass = some p) (hC : NoTombstoneLost env s (.commit floor ts)) :
    Inv env { s with child := s.child.prune env p floor ts, pass := none } := by
  unfold Child.prune
  dsimp only
  split
  · exact hi.dropPass
  · rename_i hgo
    push Not at hgo
    split
    · rename_i hnone
      exact (hi.pruneLog hp hnone).dropPass
    · rename_i pos rest hpass
      exact (hi.pruneOver hp hpass hgo.2.1 hC).dropPass

/-! ### The refresh -/

variable {r : Refresh}

/-- The scan comes to the next key: of the keys it has gone past, this one is new. -/
theorem Refresh.Valid.visit (h : r.Valid env c) (hx : c.kv.lookup t = some x)
    (hnext : ∀ k ∈ c.kv.keys, r.ahead env k = true → env.before k t = false)
    (htopic : x.2.topic = t) : (r.visit t x).Valid env c where
  pending := h.pending
  queued k z hz hlo hhi hpast := by
    have hpast : env.before t k = false := hpast
    by_cases hk : r.ahead env k = true
    · -- nothing lies between the old key and the new one
      have hkey : k ∈ c.kv.keys := AList.mem_keys.mpr (AList.lookup_isSome.mp (by rw [hz]; rfl))
      have heq : k = t := by
        rcases env.before_total k t with hlt | heq | hgt
        · exact absurd hlt (by simp [hnext k hkey hk])
        · exact heq
        · exact absurd hgt (by simp [hpast])
      subst heq
      obtain rfl : x = z := some.inj (hx.symm.trans hz)
      refine .inr ⟨x, ?_, htopic, rfl⟩
      show x ∈ if r.range.1 ≤ x.1 ∧ x.1 < r.range.2 then r.queue ++ [x] else r.queue
      rw [if_pos ⟨hlo, hhi⟩]
      exact mem_append_right _ (mem_singleton_self _)
    · refine (h.queued k z hz hlo hhi (Bool.eq_false_of_not_eq_true hk)).imp_right ?_
      rintro ⟨q, hq, hqk⟩
      refine ⟨q, ?_, hqk⟩
      show q ∈ if r.range.1 ≤ x.1 ∧ x.1 < r.range.2 then r.queue ++ [x] else r.queue
      split
      · exact mem_append_left _ hq
      · exact hq

variable {rest : List (ℕ × RecEnc)}

/-- An entry that is no longer what was read leaves the queue. -/
theorem Refresh.Valid.pop (h : r.Valid env c) (hq : r.queue = x :: rest)
    (hx : ∀ z, c.kv.lookup x.2.topic = some z → z.1 < r.range.2 → z.1 ≠ x.1) :
    ({ r with queue := rest, failed := r.failed || !true } : Refresh).Valid env c where
  pending := h.pending
  queued t z hz hlo hhi hpast := by
    rcases h.queued t z hz hlo hhi hpast with hfail | ⟨q, hmem, hqt, hqz⟩
    · exact .inl (by simp [hfail])
    · rw [hq] at hmem
      rcases mem_cons.mp hmem with rfl | hmem
      · subst hqt
        exact absurd hqz.symm (hx z hz hhi)
      · exact .inr ⟨q, hmem, hqt, hqz⟩

theorem Inv.setRefresh (hi : Inv env s) (hpass : s.pass = none) (hr : r.Valid env s.child) :
    Inv env { s with refresh := some r } :=
  { hi with
    pass := fun p hp ↦ by
      have hp : s.pass = some p := hp
      rw [hpass] at hp
      cases hp
    refresh := fun r' hr' ↦ by
      cases hr'
      exact hr }

/-- While a refresh is under way no pass is. -/
theorem Inv.pass_eq_none (hi : Inv env s) (hr : s.refresh = some r) : s.pass = none := by
  cases hp : s.pass with
  | none => rfl
  | some p =>
    rw [(hi.pass p hp).1] at hr
    cases hr

theorem Inv.publish (hi : Inv env s) (hr : s.refresh = some r) (hq : r.queue = x :: rest) (now : ℤ) :
    Inv env { s with
      child := s.child.ingestRefresh env x now
      refresh := some { r with queue := rest, failed := r.failed || !true } } := by
  have hpass := hi.pass_eq_none hr
  unfold Child.ingestRefresh
  split
  · -- the entry has moved to the head, above the range
    have hi' := hi.append (refreshRecord x now)
    refine hi'.setRefresh hpass ((hi'.refresh r hr).pop hq fun z hz hlt ↦ ?_)
    have hent := (hi'.child.last_of_lookup hz).1
    have hz : (s.child.append env (refreshRecord x now)).kv.lookup x.2.topic = some z := hz
    rw [append_lookup, if_pos ⟨rfl, hent⟩] at hz
    split at hz
    · cases hz
    · cases hz
      exact absurd hlt (hi.child.pending_le _ (hi.refresh r hr).pending).not_gt
  · rename_i hmoved
    refine hi.setRefresh hpass ((hi.refresh r hr).pop hq fun z hz _ heq ↦ hmoved ?_)
    rw [hz, ← heq]
    rfl

theorem Inv.failPublish (hi : Inv env s) (hr : s.refresh = some r) :
    Inv env { s with refresh := some { r with queue := rest, failed := r.failed || !false } } :=
  hi.setRefresh (hi.pass_eq_none hr)
    ⟨(hi.refresh r hr).pending, fun _ _ _ _ _ _ ↦ .inl (Bool.or_true _)⟩

/-- **A refresh that went through leaves nothing owed.** -/
theorem Inv.clear (hi : Inv env s) (hr : s.refresh = some r) (hq : r.queue = [])
    (hend : ∀ k ∈ s.child.kv.keys, r.ahead env k = false) (hfail : r.failed = false) :
    Inv env { s with child := { s.child with pending := none }, refresh := none } := by
  have hchild : ({ s.child with pending := none } : Child).Inv env :=
    ⟨hi.child.last_key, hi.child.last_mem, hi.child.known, hi.child.kv_eq, fun _ h ↦ nomatch h⟩
  have hcleared : Inv env { s with child := { s.child with pending := none }, refresh := none } :=
    { hi with
      child := hchild
      cursor := ⟨hi.cursor.le_next, hi.cursor.taken⟩
      placed := fun n hn ↦ ⟨(hi.placed n hn).le_next, (hi.placed n hn).taken⟩
      pass := fun p hp ↦ by
        have hp : s.pass = some p := hp
        rw [hi.pass_eq_none hr] at hp
        cases hp
      sent := fun b hb ↦ { hi.sent b hb with }
      refresh := fun _ h ↦ nomatch h
      lost := fun t y hent hpush hy hlt hnot ↦ by
        obtain ⟨hlive, htomb⟩ := hi.lost t y hent hpush hy hlt hnot
        refine ⟨fun hret ↦ ?_, htomb⟩
        -- its entry would still be in the range, and the scan has gone past every key
        obtain ⟨r', hr', hlo, hhi⟩ := hlive hret
        have hv := hi.refresh r hr
        obtain rfl : r' = r.range := some.inj (hr'.symm.trans hv.pending)
        have hlookup : s.child.kv.lookup t = some y := by
          have hy : s.child.stream.last t = some y := hy
          rw [hi.child.kv_eq, if_pos hent, hy, filter_some, if_pos (by simp [hret])]
        have hkey : t ∈ s.child.kv.keys := AList.mem_keys.mpr (AList.lookup_isSome.mp (by rw [hlookup]; rfl))
        rcases hv.queued t y hlookup hlo hhi (hend t hkey) with hf | ⟨q, hmem, -⟩
        · rw [hfail] at hf
          cases hf
        · rw [hq] at hmem
          cases hmem }
  exact hcleared

/-! ### The uplink -/

theorem Inv.moveCursor (hi : Inv env s) (hn : Behind s.child s.taken n) :
    Inv env { s with child := { s.child with cursor := n } } :=
  { hi with
    child := { hi.child with }
    cursor := ⟨hn.le_next, hn.taken⟩
    placed := fun k hk ↦ ⟨(hi.placed k hk).le_next, (hi.placed k hk).taken⟩
    pass := fun p hp ↦ ⟨(hi.pass p hp).1, fun k hk ↦
      ⟨((hi.pass p hp).2 k hk).le_next, ((hi.pass p hp).2 k hk).taken⟩⟩
    sent := fun b hb ↦ { hi.sent b hb with }
    refresh := fun r hr ↦ ⟨(hi.refresh r hr).pending, (hi.refresh r hr).queued⟩ }

variable {taken : List (ℕ × RecEnc)}

/-- Nothing stands below the low-water mark. -/
theorem Behind.max_lwm (h : Behind c taken n) : Behind c taken (max n c.log.lwm) where
  le_next := max_le h.le_next c.log.lwm_le_next
  taken x hx hr hlt := by
    rcases lt_max_iff.mp hlt with hlt | hlt
    · exact h.taken x hx hr hlt
    · exact absurd (c.log.bounds x hx).1 hlt.not_ge

/-- A page carries what is there from where it starts. -/
theorem page_valid (hc : c.Inv env) (h : Behind c taken start) (limit : ℕ) :
    Batch.Valid c taken
      ⟨(c.log.page start limit).filter fun x ↦ rises x.2, c.log.pageNext start limit⟩ where
  le_next := OffsetLog.pageNext_le_next h.le_next
  increasing := (c.log.page_increasing start limit).filter _
  known x hx :=
    ⟨hc.known x (OffsetLog.mem_of_mem_page (mem_of_mem_filter hx)).1,
      OffsetLog.lt_pageNext (mem_of_mem_filter hx)⟩
  taken x hx hr hlt := by
    by_cases hstart : start ≤ x.1
    · exact .inr (mem_filter.mpr ⟨OffsetLog.mem_page_of_lt hx hstart hlt, hr⟩)
    · exact .inl (h.taken x hx hr (Nat.lt_of_not_le hstart))

variable {b : Batch}

/-- A batch of what is there brings nothing of a topic whose last record is pruned. -/
theorem not_brings_of_pruned (hc : c.Inv env) (hy : c.stream.last t = some y)
    (hlt : y.1 < c.log.lwm) (hb : ∀ x ∈ b.recs, x ∈ c.log.entries) (hwm : ℕ) : b.brings hwm t = false := by
  have hnone : newest b.recs.reverse t = none := by
    cases hnew : newest b.recs.reverse t with
    | none => rfl
    | some x =>
      have hx := hb x (mem_reverse.mp (mem_of_find?_eq_some hnew))
      obtain ⟨z, hz, hle⟩ := hc.known x hx
      rw [newest_topic hnew, hy] at hz
      cases hz
      exact absurd (c.log.bounds x hx).1 (hle.trans_lt hlt).not_ge
  rw [Batch.brings, hnone]
  rfl

theorem Inv.page (hi : Inv env s) (hp : Behind s.child s.taken start) (limit : ℕ) :
    Inv env { s with
      placed := none
      sent := s.sent ++
        [⟨(s.child.log.page start limit).filter fun x ↦ rises x.2, s.child.log.pageNext start limit⟩] } :=
  { hi with
    placed := fun _ h ↦ nomatch h
    sent := forall_mem_concat hi.sent (page_valid hi.child hp limit)
    lost := fun t y hent hpush hy hlt hnot ↦ by
      obtain ⟨hlive, htomb⟩ := hi.lost t y hent hpush hy hlt hnot
      refine ⟨hlive, fun hret ↦ ?_⟩
      have hunknown := htomb hret
      simp only [State.unknown, all_append, all_cons, all_nil, Bool.and_true,
        Bool.and_eq_true] at hunknown ⊢
      refine ⟨hunknown.1, hunknown.2, ?_⟩
      rw [not_brings_of_pruned hi.child hy hlt]
      · rfl
      · exact fun x hx ↦ (OffsetLog.mem_of_mem_page (mem_of_mem_filter hx)).1 }

/-! ### The parent -/

/-- A batch that brings no entry of a topic leaves the parent without one, and so do the others. -/
theorem unknown_store (ht : env.isEntity t = true)
    (hsent : ∀ b ∈ s.sent, b.recs.Pairwise (·.1 < ·.1)) (hb : b ∈ s.sent) (h : s.unknown env t = true) :
    State.unknown env { s with parent := s.parent.store env b, taken := taken } t = true := by
  simp only [State.unknown, Bool.and_eq_true, List.all_eq_true, isNone_iff_eq_none] at h ⊢
  obtain ⟨hview, hbrings⟩ := h
  have hbring : ∀ b' ∈ s.sent, ∀ x, newest b'.recs.reverse t = some x → s.parent.hwm < x.1 →
      isRetraction x.2 = true := by
    intro b' hb' x hx hlt
    have hnot := hbrings b' hb'
    rw [Batch.brings, hx] at hnot
    simpa [hlt] using hnot
  constructor
  · rw [Parent.store, foldl_take_view ht, newest_fresh (hsent b hb)]
    cases hnew : newest b.recs.reverse t with
    | none => exact hview
    | some x =>
      rw [filter_some]
      split
      · rename_i hlt
        show valueOf x.2 = none
        rw [valueOf, if_pos (hbring b hb x hnew (by simpa using hlt))]
      · exact hview
  · intro b' hb'
    have hle : s.parent.hwm ≤ (s.parent.store env b).hwm := store_hwm ▸ le_highest
    rw [Batch.brings]
    cases hnew : newest b'.recs.reverse t with
    | none => rfl
    | some x =>
      by_cases hlt : (s.parent.store env b).hwm < x.1
      · simp [hbring b' hb' x hnew (hle.trans_lt hlt)]
      · simp [hlt]

theorem Inv.deliver (hi : Inv env s) (hb : b ∈ s.sent) :
    Inv env { s with
      parent := s.parent.store env b
      taken := (s.parent.fresh b).reverse ++ s.taken } := by
  have hv := hi.sent b hb
  have hfresh : ∀ x, x ∈ s.parent.fresh b ↔ x ∈ b.recs ∧ s.parent.hwm < x.1 := by
    intro x
    rw [fresh_eq hv.increasing, mem_filter, decide_eq_true_iff]
  have hsub : ∀ x ∈ s.taken, x ∈ (s.parent.fresh b).reverse ++ s.taken :=
    fun x hx ↦ mem_append_right _ hx
  have hle : s.parent.hwm ≤ (s.parent.store env b).hwm := store_hwm ▸ le_highest
  refine
    { hi with
      decreasing := ?_
      taken := fun x hx ↦ ?_
      hwm_lt := ?_
      view := fun t ht ↦ ?_
      held := fun x hx hr hlex ↦ ?_
      cursor := hi.cursor.mono hsub
      placed := fun n hn ↦ (hi.placed n hn).mono hsub
      pass := fun p hp ↦ ⟨(hi.pass p hp).1, fun n hn ↦ ((hi.pass p hp).2 n hn).mono hsub⟩
      sent := fun b' hb' ↦
        ⟨(hi.sent b' hb').le_next, (hi.sent b' hb').increasing, (hi.sent b' hb').known,
          fun x hx hr hlt ↦ ((hi.sent b' hb').taken x hx hr hlt).imp_left (hsub x)⟩
      lost := fun t y hent hpush hy hlt hnot ↦ ?_ }
  · refine pairwise_append.mpr ⟨?_, hi.decreasing, fun x hx y hy ↦ ?_⟩
    · rw [fresh_eq hv.increasing]
      exact pairwise_reverse.mpr (hv.increasing.filter _)
    · exact (hi.taken y hy).1.trans_lt ((hfresh x).mp (mem_reverse.mp hx)).2
  · rcases mem_append.mp hx with hx | hx
    · have hmem := ((hfresh x).mp (mem_reverse.mp hx)).1
      exact ⟨store_hwm ▸ off_le_highest hmem, (hv.known x hmem).1⟩
    · exact ⟨(hi.taken x hx).1.trans hle, (hi.taken x hx).2⟩
  · show (s.parent.store env b).hwm < s.child.log.next
    rw [store_hwm, ← not_le]
    intro hge
    have hlt : s.child.log.next - 1 < highest Prod.fst s.parent.hwm b.recs := by
      have := hi.hwm_lt
      omega
    rcases lt_highest_iff.mp hlt with hlt | ⟨x, hx, hlt⟩
    · have := hi.hwm_lt
      omega
    · have := ((hv.known x hx).2).trans_le hv.le_next
      omega
  · show (s.parent.store env b).view _ = (newest ((s.parent.fresh b).reverse ++ s.taken) t).bind _
    rw [Parent.store, foldl_take_view ht, newest_append, hi.view t ht]
    cases newest (s.parent.fresh b).reverse t with
    | none => rfl
    | some x => rfl
  · by_cases hold : x.1 ≤ s.parent.hwm
    · exact hsub x (hi.held x hx hr hold)
    · -- the batch goes past the record, so it carries it
      have hlex : x.1 ≤ highest Prod.fst s.parent.hwm b.recs := store_hwm ▸ hlex
      have hlt : x.1 - 1 < highest Prod.fst s.parent.hwm b.recs := by omega
      rcases lt_highest_iff.mp hlt with hlt | ⟨z, hz, hlt⟩
      · omega
      · have hzx : x.1 ≤ z.1 := by omega
        rcases hv.taken x hx hr (hzx.trans_lt (hv.known z hz).2) with hmem | hmem
        · exact hsub x hmem
        · refine mem_append_left _ (mem_reverse.mpr ((hfresh x).mpr ⟨hmem, ?_⟩))
          exact Nat.lt_of_not_le hold
  · obtain ⟨hlive, htomb⟩ := hi.lost t y hent hpush hy hlt fun h ↦ hnot (hsub y h)
    exact ⟨hlive, fun hret ↦ unknown_store hent (fun b' hb' ↦ (hi.sent b' hb').increasing) hb (htomb hret)⟩

/-- What the parent has of a batch is behind its end. -/
theorem Inv.behind_next (hi : Inv env s) (hb : b ∈ s.sent)
    (hle : ∀ x ∈ b.recs, x.1 ≤ s.parent.hwm) : Behind s.child s.taken b.next where
  le_next := (hi.sent b hb).le_next
  taken x hx hr hlt := by
    rcases (hi.sent b hb).taken x hx hr hlt with hmem | hmem
    · exact hmem
    · exact hi.held x hx hr (hle x hmem)

theorem Behind.max (h : Behind c taken n) (h' : Behind c taken m) : Behind c taken (max n m) := by
  rcases max_choice n m with heq | heq
  · rw [heq]
    exact h
  · rw [heq]
    exact h'

/-! ### Runs -/

theorem Inv.step (hi : Inv env s) {e : Event} (hC : NoTombstoneLost env s e)
    (h : step env s e = some s') : Inv env s' := by
  cases e with
  | write e =>
    cases h
    exact hi.append e
  | decide upTo stale others =>
    obtain ⟨⟨-, hrefresh, -, -, -⟩, rfl⟩ := ite_none_right_eq_some.mp h |>.imp_right some.inj
    refine { hi with pass := fun p hp ↦ ?_ }
    cases hp
    refine ⟨isNone_iff_eq_none.mp hrefresh, fun n hn ↦ ?_⟩
    obtain ⟨-, heq⟩ := ite_none_right_eq_some.mp hn
    cases heq
    exact hi.cursor
  | commit floor ts =>
    obtain ⟨p, hp, rfl⟩ := map_eq_some_iff.mp h
    exact hi.commit hp hC
  | giveUp =>
    cases h
    exact hi.dropPass
  | beginRefresh =>
    simp only [EntityRefresh.step] at h
    split at h
    · rename_i hfree
      obtain ⟨r, hr, rfl⟩ := map_eq_some_iff.mp h
      refine hi.setRefresh (isNone_iff_eq_none.mp hfree.1) ⟨hr, fun t x _ _ _ hpast ↦ ?_⟩
      cases hpast
    · cases h
  | visit t =>
    simp only [EntityRefresh.step] at h
    split at h
    · rename_i r x hr hx
      obtain ⟨⟨-, hnext⟩, rfl⟩ := ite_none_right_eq_some.mp h |>.imp_right some.inj
      obtain ⟨-, hlast⟩ := hi.child.last_of_lookup hx
      exact hi.setRefresh (hi.pass_eq_none hr)
        ((hi.refresh r hr).visit hx hnext (hi.child.last_key t x hlast).1)
    · cases h
  | publish now ok =>
    simp only [EntityRefresh.step] at h
    split at h
    · rename_i r hr
      split at h
      · rename_i x rest hq
        cases h
        cases ok with
        | true => exact hi.publish hr hq now
        | false => exact hi.failPublish hr
      · cases h
    · cases h
  | endRefresh cleared =>
    simp only [EntityRefresh.step] at h
    split at h
    · rename_i r hr
      obtain ⟨⟨hq, hend⟩, rfl⟩ := ite_none_right_eq_some.mp h |>.imp_right some.inj
      by_cases hkeep : r.failed = true ∨ cleared = false
      · rw [if_pos hkeep]
        refine { hi with pass := fun p hp ↦ ⟨rfl, (hi.pass p hp).2⟩, refresh := fun _ h ↦ nomatch h }
      · rw [if_neg hkeep]
        push Not at hkeep
        exact hi.clear hr hq hend (Bool.eq_false_of_not_eq_true hkeep.1)
    · cases h
  | place =>
    cases h
    have hi' := hi.moveCursor hi.cursor.max_lwm
    refine { hi' with placed := fun n hn ↦ ?_ }
    cases hn
    exact hi'.cursor
  | page limit =>
    simp only [EntityRefresh.step] at h
    split at h
    · rename_i start hstart
      split at h
      · cases h
        exact { hi with placed := fun _ h ↦ nomatch h }
      · cases h
        exact hi.page (hi.placed start hstart) limit
    · cases h
  | deliver i =>
    obtain ⟨b, hb, rfl⟩ := map_eq_some_iff.mp h
    exact hi.deliver (mem_of_getElem? hb)
  | ack i =>
    simp only [EntityRefresh.step] at h
    split at h
    · rename_i b hb
      obtain ⟨hle, rfl⟩ := ite_none_right_eq_some.mp h |>.imp_right some.inj
      exact hi.moveCursor (hi.cursor.max (hi.behind_next (mem_of_getElem? hb) hle))
    · cases h
  | restart =>
    cases h
    exact { hi with
            placed := fun _ h ↦ nomatch h
            pass := fun _ h ↦ nomatch h
            refresh := fun _ h ↦ nomatch h }

theorem inv_start (env : Env) : Inv env (system env).start where
  child := ⟨fun _ _ h ↦ (nomatch h), fun _ _ h ↦ (nomatch h), fun _ h ↦ (nomatch h),
    fun t ↦ by split <;> rfl, fun _ h ↦ (nomatch h)⟩
  decreasing := List.Pairwise.nil
  taken _ h := nomatch h
  hwm_lt := Nat.zero_lt_one
  view _ _ := rfl
  held _ h := nomatch h
  cursor := ⟨le_rfl, fun _ h ↦ nomatch h⟩
  placed _ h := nomatch h
  pass _ h := nomatch h
  sent _ h := nomatch h
  refresh _ h := nomatch h
  lost _ _ _ _ h := nomatch h

/-- The child's value of an entity is that of its last record. -/
theorem Child.Inv.current_eq (hc : c.Inv env) (ht : env.isEntity t = true) :
    c.current t = (c.stream.last t).bind fun y ↦ valueOf y.2 := by
  rw [Child.current, hc.kv_eq, if_pos ht]
  cases c.stream.last t with
  | none => rfl
  | some y =>
    rw [filter_some]
    show _ = if isRetraction y.2 then none else some (y.2.payload, y.2.ts)
    cases isRetraction y.2 <;> rfl

/-- A settled state of the invariant agrees. -/
theorem Inv.agrees (hi : Inv env s) (hs : s.Settled) : s.Agrees env := by
  intro t hent hpush
  rw [hi.child.current_eq hent, hi.view t hent]
  cases hlast : s.child.stream.last t with
  | none =>
    -- nothing was ever written for it, so the parent has nothing of it
    have hnone : newest s.taken t = none := by
      cases hnew : newest s.taken t with
      | none => rfl
      | some x =>
        obtain ⟨y, hy, -⟩ := (hi.taken x (mem_of_find?_eq_some hnew)).2
        rw [newest_topic hnew, hlast] at hy
        cases hy
    rw [hnone]
  | some y =>
    obtain ⟨htopic, -⟩ := hi.child.last_key t y hlast
    by_cases htaken : y ∈ s.taken
    · -- the parent has the last record, and it is the newest it has
      have hmax : ∀ x ∈ s.taken, x.2.topic = t → x.1 ≤ y.1 := by
        intro x hx hxt
        obtain ⟨z, hz, hle⟩ := (hi.taken x hx).2
        rw [hxt, hlast] at hz
        cases hz
        exact hle
      rw [newest_of_forall_le hi.decreasing htaken htopic hmax]
    · have hlwm : y.1 < s.child.log.lwm := by
        by_contra hge
        have hmem := hi.child.last_mem t y hlast (Nat.le_of_not_lt hge)
        have hr := rises_of_last hi.child hpush hlast
        exact htaken (hi.held y hmem hr (hs.2 y hmem hr))
      obtain ⟨hlive, htomb⟩ := hi.lost t y hent hpush hlast hlwm htaken
      cases hret : isRetraction y.2 with
      | false =>
        obtain ⟨r, hr, -⟩ := hlive hret
        rw [hs.1] at hr
        cases hr
      | true =>
        have hunknown := (Bool.and_eq_true_iff.mp (htomb hret)).1
        rw [hi.view t hent, isNone_iff_eq_none] at hunknown
        rw [hunknown]
        show none = if isRetraction y.2 then none else some (y.2.payload, y.2.ts)
        rw [if_pos hret]

end Colca.EntityRefresh
