import Colca.Repl.UplinkInvariant

/-!
# The uplink delivers exactly once

One child and one parent whose stores were never replaced by an older copy. In every state of every
run, the records the parent stored of a stream are records the child wrote to it, in their order and
each once, and of the records up to the parent's mark that are to reach it none is missing except for
a stated reason: the child set it aside, or its retention removed it before the parent stored it.

The proof is the invariant of `Colca.Repl.UplinkInvariant` at the parent's own marks. Where the
parent's store only grows, every mark in circulation is one the parent reached, so a push that is let
in always reaches back to the mark.
-/

namespace Colca.Uplink

open Uns List Function Option

/-- The event replaces the parent's store by an older copy. -/
def Event.isRestore : Event → Bool
  | .restore _ => true
  | _ => false

/-- The parent's store is not replaced. -/
def NoRestore (_ : Sys) (e : Event) : Prop := e.isRestore = false

instance (s : Sys) (e : Event) : Decidable (NoRestore s e) :=
  inferInstanceAs (Decidable (e.isRestore = false))

/-! ### The parent only grows -/

/-- No mark moves back, and nothing that is held is lost. -/
structure Parent.Grows (cfg : Config) (p p' : Parent) : Prop where
  mark_le : ∀ st, p.mark cfg st ≤ p'.mark cfg st
  held : ∀ st, ∀ r ∈ p.held st, r ∈ p'.held st

section Grows

variable {cfg : Config} {cap : Stream → ℕ} {s s' : Sys} {e : Event} {p p' : Parent}

theorem Parent.Grows.of_eq (hstore : p'.store = p.store) (hheld : p'.held = p.held) : p.Grows cfg p' := by
  refine ⟨fun st ↦ ?_, fun st r hr ↦ hheld ▸ hr⟩
  rw [Parent.mark, Parent.mark, hstore]

theorem Parent.Frame.grows (h : p.Frame p') : p.Grows cfg p' := .of_eq h.store h.held

theorem mem_noteHeld {held : Stream → List ReplRecord} {done : List (ReplRequest × Answer)}
    {st : Stream} {r : ReplRecord} (h : r ∈ held st) : r ∈ noteHeld held done st := by
  induction done generalizing held with
  | nil => exact h
  | cons d done ih =>
    refine ih ?_
    show r ∈ update held d.1.stream _ st
    rcases eq_or_ne st d.1.stream with rfl | hne
    · rw [update_self]
      exact mem_append_left _ h
    · rwa [update_of_ne hne]

/-- **A step of the parent** leaves the child alone, and the parent grows, unless its store is
replaced. -/
theorem Inv.stepParent_grows (h : Inv cfg cap s) (he : NoRestore s e) (hs : s.stepParent cfg e = some s') :
    s.parent.Grows cfg s'.parent ∧ s'.child = s.child ∧ s'.prunedAhead = s.prunedAhead := by
  have hframe := fun recorded pos ↦ Parent.judged_frame cfg s.parent s.fresh recorded pos
  cases e with
  | arrivePush id gate =>
    obtain ⟨req, hreq, rfl⟩ := map_eq_some_iff.mp hs
    refine ⟨?_, rfl, rfl⟩
    dsimp only
    rcases s.parent.handleReplicate_cases cfg s.fresh id gate req with
      ⟨-, -, -, hf⟩ | ⟨-, -, -, recs, -, heq⟩
    · exact hf.grows
    · rw [heq, (h.link.push req (mem_of_getElem? hreq)).store]
      obtain ⟨-, hstore, -, hheld⟩ := h.parent.adopt
      exact .of_eq hstore hheld
  | commit =>
    simp only [Sys.stepParent] at hs
    split at hs
    · cases hs
    · cases hs
      obtain ⟨-, -, hle, -⟩ := h.parent.commit (fun st ↦ (h.lane st).hist) h.queue
      exact ⟨⟨hle, fun st r hr ↦ mem_noteHeld hr⟩, rfl, rfl⟩
  | arriveHello id defNext =>
    obtain ⟨req, hreq, hs⟩ := bind_eq_some_iff.mp hs
    split at hs
    · cases hs
      obtain ⟨-, hstore, -, hheld, -⟩ :=
        h.parent.handleHello s.fresh defNext (h.link.down_store req (mem_of_getElem? hreq))
      exact ⟨.of_eq hstore hheld, rfl, rfl⟩
    · cases hs
  | arrivePoll id =>
    obtain ⟨req, -, hs⟩ := bind_eq_some_iff.mp hs
    split at hs
    · cases hs
    · cases hs
      refine ⟨?_, rfl, rfl⟩
      dsimp only [Parent.handlePoll]
      split
      · exact (hframe _ _).grows
      · exact .of_eq (hframe _ _).store (hframe _ _).held
  | answerPoll i next defNext =>
    obtain ⟨w, -, hs⟩ := bind_eq_some_iff.mp hs
    split at hs
    · cases hs
      exact ⟨.of_eq rfl rfl, rfl, rfl⟩
    · cases hs
  | recheckPoll i =>
    obtain ⟨w, -, rfl⟩ := map_eq_some_iff.mp hs
    dsimp only
    split
    · exact ⟨.of_eq (hframe _ _).store (hframe _ _).held, rfl, rfl⟩
    · exact ⟨.of_eq rfl rfl, rfl, rfl⟩
  | appendParent st r =>
    simp only [Sys.stepParent] at hs
    split at hs
    · cases hs
      refine ⟨⟨fun st ↦ ?_, fun _ _ hr ↦ hr⟩, rfl, rfl⟩
      unfold Parent.mark
      rw [Store.append_durableHWM]
    · cases hs
  | crashParent =>
    cases hs
    exact ⟨⟨fun _ ↦ le_rfl, fun _ _ hr ↦ hr⟩, rfl, rfl⟩
  | snapshot =>
    cases hs
    exact ⟨.of_eq rfl rfl, rfl, rfl⟩
  | restore i => cases he
  | _ => cases hs

end Grows

/-! ### What became of every record -/

/-- Every record that is to reach the parent is still retained, was removed by retention before the
parent stored it, was set aside, or is stored. -/
def Kept (cfg : Config) (s : Sys) : Prop :=
  ∀ st, ∀ x ∈ (s.child.lanes st).hist, cfg.rises st x.2 →
    x ∈ (s.child.lanes st).log.entries ∨ x.1 ∈ s.prunedAhead st ∨
      (s.child.lanes st).IsSetAside x.1 ∨ cfg.stored x ∈ s.parent.held st

section Kept

variable {cfg : Config} {cap : Stream → ℕ} {s s' : Sys} {e : Event}

/-- Retention takes records away: what it takes is stored, set aside, or noted as removed ahead of
the mark. -/
theorem Kept.prunes (h : Kept cfg s) (hi : Inv cfg cap s) {st : Stream} {l : Lane}
    (hhist : l.hist = (s.child.lanes st).hist) (hside : l.setAside = (s.child.lanes st).setAside) :
    Kept cfg (s.prunes cfg st l) := by
  intro st' x hx hr
  rcases eq_or_ne st' st with rfl | hne
  · simp only [Sys.prunes, Child.setLane, update_self] at hx ⊢
    have hset : (s.child.lanes st').IsSetAside x.1 → l.IsSetAside x.1 := by
      rw [Lane.IsSetAside, Lane.IsSetAside, hside]
      exact id
    rcases h st' x (hhist ▸ hx) hr with hret | hpr | hsa | hst
    · by_cases hmem : x ∈ l.log.entries
      · exact .inl hmem
      · rcases lt_or_ge (s.parent.mark cfg st') x.1 with hlt | hge
        · refine .inr (.inl (mem_append_right _ ?_))
          simp only [mem_filter, List.mem_map, decide_eq_true_eq]
          exact ⟨⟨x, ⟨hret, hmem⟩, rfl⟩, hlt⟩
        · rcases hi.parent.holds.stored_of_le hret hr hge with hst | hsa
          · exact .inr (.inr (.inr hst))
          · exact .inr (.inr (.inl (hset hsa)))
    · exact .inr (.inl (mem_append_left _ hpr))
    · exact .inr (.inr (.inl (hset hsa)))
    · exact .inr (.inr (.inr hst))
  · simp only [Sys.prunes, Child.setLane, update_of_ne hne] at hx ⊢
    exact h st' x hx hr

theorem Kept.step (h : Kept cfg s) (hi : Inv cfg cap s) (he : NoRestore s e)
    (hs : (system cfg).step s e = some s') : Kept cfg s' := by
  rcases system_step_cases hs with hs | hs | hs
  · unfold Sys.retain at hs
    split at hs
    · cases hs
      exact h.prunes hi rfl rfl
    · cases hs
      exact h.prunes hi rfl rfl
    · cases hs
  · rcases hi.stepChild_cases hs with ⟨st, r, rfl⟩ | hm
    · -- the new record is retained, everything else is as it was
      intro st' x hx hr
      simp only [Sys.withChild, Child.setLane] at hx ⊢
      rcases eq_or_ne st' st with rfl | hne
      · rw [update_self] at hx ⊢
        rcases mem_append.mp hx with hx | hx
        · exact (h st' x hx hr).imp_left (mem_append_left _)
        · exact .inl (mem_append_right _ hx)
      · rw [update_of_ne hne] at hx ⊢
        exact h st' x hx hr
    · intro st x hx hr
      have hmoves := hm.step.moves st
      rw [hmoves.hist] at hx
      rw [hmoves.log, hm.parent, hm.prunedAhead]
      rcases h st x hx hr with hret | hpr | hsa | hst
      · exact .inl hret
      · exact .inr (.inl hpr)
      · exact .inr (.inr (.inl (hmoves.setAside _ hsa)))
      · exact .inr (.inr (.inr hst))
  · obtain ⟨hg, hc, hpr⟩ := hi.stepParent_grows he hs
    intro st x hx hr
    rw [hc] at hx ⊢
    rw [hpr]
    rcases h st x hx hr with hret | hpr | hsa | hst
    · exact .inl hret
    · exact .inr (.inl hpr)
    · exact .inr (.inr (.inl hsa))
    · exact .inr (.inr (.inr (hg.held st _ hst)))

end Kept

/-! ### Exactly once -/

section Run

variable {cfg : Config} {s s' : Sys} {e : Event}

/-- What a run keeps in which the parent's store is never replaced: every mark in circulation is one
the parent reached, and every record is accounted for. -/
structure OnceInv (cfg : Config) (s : Sys) : Prop where
  inv : Inv cfg (s.parent.mark cfg) s
  kept : Kept cfg s

theorem OnceInv.mark_le (h : OnceInv cfg s) (he : NoRestore s e)
    (hs : (system cfg).step s e = some s') (st : Stream) :
    s.parent.mark cfg st ≤ s'.parent.mark cfg st := by
  rcases system_step_cases hs with hs | hs | hs
  · unfold Sys.retain at hs
    split at hs
    · cases hs
      exact le_rfl
    · cases hs
      exact le_rfl
    · cases hs
  · rcases h.inv.stepChild_cases hs with ⟨st, r, rfl⟩ | hm
    · exact le_rfl
    · rw [hm.parent]
  · exact (h.inv.stepParent_grows he hs).1.mark_le st

theorem OnceInv.sound (h : OnceInv cfg s) (e : Event) : Sound cfg s e := by
  cases e with
  | arrivePush id gate =>
    intro req hreq _ _
    exact (h.inv.link.push req (mem_of_getElem? hreq)).base_le
  | _ => trivial

theorem OnceInv.step (h : OnceInv cfg s) (he : NoRestore s e)
    (hs : (system cfg).step s e = some s') : OnceInv cfg s' := by
  have hcap : raise cfg (s.parent.mark cfg) s' = s'.parent.mark cfg :=
    funext fun st ↦ max_eq_right (h.mark_le he hs st)
  exact ⟨hcap ▸ h.inv.step (h.sound e) hs, h.kept.step h.inv he hs⟩

theorem OnceInv.of_reach (h : (system cfg).Reach NoRestore s) : OnceInv cfg s := by
  refine h.invariant (I := OnceInv cfg) ?_ fun _ _ _ hi he hs ↦ hi.step he hs
  exact ⟨Inv.start cfg, by rintro _ _ ⟨⟩⟩

end Run

/-- What the parent stored of a stream is, in order and each once, **exactly** the records up to its
mark that are to reach it and were neither set aside nor removed before the parent stored them. -/
def StoredExactly (cfg : Config) (s : Sys) (st : Stream) : Prop :=
  ∃ xs : List (ℕ × RecEnc), s.parent.held st = xs.map cfg.stored ∧ xs.Pairwise (·.1 < ·.1) ∧
    ∀ x, x ∈ xs ↔ x ∈ (s.child.lanes st).hist ∧ cfg.rises st x.2 ∧ x.1 ≤ s.parent.mark cfg st ∧
      ¬ (s.child.lanes st).IsSetAside x.1 ∧ x.1 ∉ s.prunedAhead st

/-- The cursor of a stream stands above **no** retained record that is to reach the parent and that
the parent has not stored. -/
def CursorBehindStored (cfg : Config) (s : Sys) (st : Stream) : Prop :=
  ∀ x ∈ (s.child.lanes st).log.entries, cfg.rises st x.2 → x.1 < (s.child.lanes st).pos →
    cfg.stored x ∈ s.parent.held st

/-- The uplink of a stream delivered once. What the parent stored are, in order and each once, records
up to its mark that are to reach it; of these all, except records set aside and records retention
removed before the parent stored them. The cursor stands above no retained record that is to reach the
parent, was not set aside, and that the parent has not stored. -/
structure DeliveredOnce (cfg : Config) (s : Sys) (st : Stream) : Prop where
  stored : ∃ xs : List (ℕ × RecEnc), s.parent.held st = xs.map cfg.stored ∧
    xs.Pairwise (·.1 < ·.1) ∧
    (∀ x ∈ xs, x ∈ (s.child.lanes st).hist ∧ cfg.rises st x.2 ∧ x.1 ≤ s.parent.mark cfg st) ∧
    ∀ x ∈ (s.child.lanes st).hist, cfg.rises st x.2 → x.1 ≤ s.parent.mark cfg st →
      ¬ (s.child.lanes st).IsSetAside x.1 → x.1 ∉ s.prunedAhead st → x ∈ xs
  cursor : ∀ x ∈ (s.child.lanes st).log.entries, cfg.rises st x.2 → x.1 < (s.child.lanes st).pos →
    ¬ (s.child.lanes st).IsSetAside x.1 → cfg.stored x ∈ s.parent.held st

/-- **The uplink delivers once**, in every state of every run in which the parent's store is not
replaced: any interleaving of appends, retention, passes of every lane, requests lost and repeated,
answers lost, hellos and polls, and crashes of either side. -/
theorem uplink_delivers_once (cfg : Config) {s : Sys} (h : (system cfg).Reach NoRestore s)
    (st : Stream) : DeliveredOnce cfg s st := by
  obtain ⟨hi, hk⟩ := OnceInv.of_reach h
  obtain ⟨xs, hxs⟩ := hi.parent.holds st
  refine ⟨⟨xs, hxs.held_eq, hxs.increasing, hxs.mem, fun x hx hr hle hside hpr ↦ ?_⟩,
    fun x hx hr hlt hside ↦ ?_⟩
  · rcases hk st x hx hr with hret | hpr' | hsa | hst
    · exact (hxs.complete x hret hr hle).resolve_right hside
    · exact absurd hpr' hpr
    · exact absurd hsa hside
    · -- the stored copy is of this very record: an offset names one record of the stream
      rw [hxs.held_eq] at hst
      obtain ⟨y, hy, heq⟩ := List.mem_map.mp hst
      have hoff : y.1 = x.1 := by
        have := congrArg ReplRecord.childOffset heq
        simpa [Config.stored] using this
      exact OffsetLog.eq_of_offset_eq (hi.lane st).hist.increasing (hxs.mem y hy).1 hx hoff ▸ hy
  · -- behind the cursor everything was confirmed, and what was confirmed lies below the mark
    have hacked := ((hi.lane st).behind.elim hx hr hlt).resolve_right hside
    have hle := hacked.trans (hi.lane st).acked_le
    exact (hi.parent.holds.stored_of_le hx hr hle).resolve_right hside

/-! ### Runs -/

/-- An edge node under `plant/line1`. Every record costs 100 bytes of body, and so does naming the
parent's incarnation. Its parent takes bodies of up to `limit` bytes. -/
def edge (limit : ℕ) : Config where
  child := "edge"
  mount := ["plant", "line1"]
  codec := ⟨fun _ ↦ 1, fun _ ↦ ""⟩
  bodySize env batch := 100 * batch.length + if env.parent = none then 0 else 100
  maxReplicateBody := 1000
  replicateBodyLimit := limit
  grace := 900

/-- A change of an alarm's state. -/
def alarmChange : RecEnc where
  sourceLocalOnly := false
  topic := ["colca", "v1", "_AlarmStateChange", "edge", "pump", "overheated"]
  payload := [1]
  ts := 0
  by_ := {}
  originOffset := 1
  door := ""
  signalID := ""

/-- One pass over the alarms lane whose request `id` arrives. -/
def alarmsPass (id : ℕ) : List Event :=
  [.startPush .alarms, .readCursor, .readPage, .sendBatch, .arrivePush id .pass]

/-- The first hello and its answer. -/
def firstHello : List Event := [.sendHello, .arriveHello 0 1, .receiveDown 0]

/-- The parent refuses the record alone, and again once the grace is over. -/
def refusedRun : List Event :=
  [.append .alarms alarmChange] ++ alarmsPass 0 ++ [.receivePush 0 0] ++ alarmsPass 1 ++
    [.receivePush 1 900]

/-- The parent stores the record and the answer is lost. The repeated push names the parent's
incarnation, which makes it too large for the parent, and it is refused until the grace is over. -/
def storedAndRefusedRun : List Event :=
  [.append .alarms alarmChange] ++ alarmsPass 0 ++ [.commit, .losePush] ++ firstHello ++
    alarmsPass 1 ++ [.receivePush 1 0] ++ alarmsPass 2 ++ [.receivePush 2 900]

/-- The parent stores the record, and the push is repeated because the answer was lost. -/
def storedRun : List Event :=
  [.append .alarms alarmChange] ++ alarmsPass 0 ++ [.commit, .losePush] ++ alarmsPass 1 ++
    [.commit, .receivePush 1 0]

/-- The run with a repeated push: the parent stored the record, once. -/
theorem repeated_push_delivered_once :
    ∃ s, (system (edge 1000)).Reach NoRestore s ∧
      s.parent.held .alarms = [(edge 1000).stored (1, alarmChange)] ∧
      DeliveredOnce (edge 1000) s .alarms := by
  obtain ⟨s, hs, hp⟩ := (system (edge 1000)).exists_reach NoRestore storedRun
    (fun s ↦ s.parent.held .alarms = [(edge 1000).stored (1, alarmChange)])
  exact ⟨s, hs, hp, uplink_delivers_once _ hs _⟩

/-- A record that the parent refuses for longer than the grace is set aside **and stays retained**:
the cursor stands above it, and the parent has not stored it. A record that was stored, with the
answer lost, can be set aside as well: then it is set aside and stored. -/
theorem set_aside_not_exactly_once :
    (¬ ∀ (cfg : Config) (s : Sys), (system cfg).Reach NoRestore s →
      ∀ st, CursorBehindStored cfg s st) ∧
    ¬ ∀ (cfg : Config) (s : Sys), (system cfg).Reach NoRestore s → ∀ st, StoredExactly cfg s st := by
  constructor
  · intro h
    obtain ⟨s, hs, hp⟩ := (system (edge 50)).exists_reach NoRestore refusedRun
      (fun s ↦ (1, alarmChange) ∈ (s.child.lanes .alarms).log.entries ∧
        1 < (s.child.lanes .alarms).pos ∧ s.parent.held .alarms = [])
    have hmem := h _ s hs .alarms _ hp.1 (by decide +kernel) hp.2.1
    rw [hp.2.2] at hmem
    cases hmem
  · intro h
    obtain ⟨s, hs, hp⟩ := (system (edge 150)).exists_reach NoRestore storedAndRefusedRun
      (fun s ↦ s.parent.held .alarms = [(edge 150).stored (1, alarmChange)] ∧
        (s.child.lanes .alarms).setAside = [(1, alarmChange)])
    obtain ⟨xs, hheld, -, hxs⟩ := h _ s hs .alarms
    -- the one record stored is the one set aside
    rw [hp.1] at hheld
    obtain ⟨y, hy, heq⟩ := List.mem_map.mp (hheld ▸ mem_singleton_self _)
    have hoff : y.1 = 1 := by
      have := congrArg ReplRecord.childOffset heq
      simpa [Config.stored] using this
    refine ((hxs y).mp hy).2.2.2.1 ⟨(1, alarmChange), ?_, hoff.symm⟩
    rw [hp.2]
    exact mem_singleton_self _

end Colca.Uplink
