import Colca.Repl.UplinkSystem

/-!
# What a run of the uplink keeps

The invariant of a child and its parent, and the step lemma: every event keeps it, provided a push
that is let in reaches back to the parent's mark (`Sound`). When that proviso is met is the business
of `Colca.Repl.ExactlyOnce` and `Colca.Repl.ParentRestore`.

The invariant has a part for each party and one for the link. All of it is about the child's lanes,
and none of it is disturbed by a lane that moves on (`Lane.Evolves`); so a step of the child owes
only its own part (`ChildStep`), and a step of the parent leaves the child's part alone.
-/

namespace Colca.Uplink

open Uns Incarnation HighWater List Function Option Lane Parent

/-! ### The parts

`cap` bounds every mark the child or the link knows of: the confirmed marks, the bases of passes and
requests, the answers. It never passes what a stream has handed out. Where the parent's store was
never replaced it is the parent's mark itself. -/

/-- A lane whose cursor left nothing behind. -/
structure LaneInv (cfg : Config) (cap : ℕ) (st : Stream) (l : Lane) : Prop where
  hist : l.HistInv
  pos_le : l.pos ≤ l.log.next
  behind : l.Behind cfg st l.pos l.acked
  acked_le : l.acked ≤ cap

/-- A pass belongs to this epoch or an earlier one; in its own epoch the confirmed mark is the one it
started from. -/
structure Pass.Inv (cap : Stream → ℕ) (c : Child) (p : Pass) (base : ℕ) : Prop where
  epoch_le : p.epoch ≤ c.epoch
  acked_eq : p.epoch = c.epoch → (c.lanes p.st).acked = base
  base_le : base ≤ cap p.st

/-- The pass in hand leaves nothing behind. -/
def PushInv (cfg : Config) (cap : Stream → ℕ) (pushes : List Request) (c : Child) : Prop :=
  match c.push with
  | .idle => True
  | .named p => p.epoch ≤ c.epoch
  | .placed p start base =>
    p.Inv cap c base ∧ start ≤ (c.lanes p.st).log.next ∧ (c.lanes p.st).Behind cfg p.st start base
  | .paged p recs next base =>
    p.Inv cap c base ∧ BatchInv cfg p.st (c.lanes p.st) (buildBatch p.st recs) next base
  | .sent p _ req next id =>
    p.Inv cap c req.base ∧ BatchInv cfg p.st (c.lanes p.st) req.batch next req.base ∧
      pushes[id]? = some req ∧ req.env.stream = p.st

/-- A request the child's lanes account for. -/
structure Request.Inv (cfg : Config) (cap : Stream → ℕ) (lanes : Stream → Lane) (storeID : ℕ)
    (req : Request) : Prop where
  store : req.env.store = storeID
  base_le : req.base ≤ cap req.env.stream
  batch : ∃ n, BatchInv cfg req.env.stream (lanes req.env.stream) req.batch n req.base

/-- Every request and answer on the link is one the child's lanes account for. -/
structure LinkInv (cfg : Config) (cap : Stream → ℕ) (lanes : Stream → Lane) (storeID : ℕ)
    (s : Sys) : Prop where
  push : ∀ req ∈ s.pushes, req.Inv cfg cap lanes storeID
  answer : ∀ id hwm, (id, PushAnswer.ok hwm) ∈ s.pushAnswers → ∃ req, s.pushes[id]? = some req ∧
    req.base ≤ hwm ∧ hwm ≤ cap req.env.stream
  down_store : ∀ req ∈ s.downs, req.position.store = some storeID
  hello : ∀ id a, (id, DownAnswer.hello a) ∈ s.downAnswers → ∀ st, a.hwms st ≤ cap st

/-- A parent, or a copy of one, holds what its marks say. -/
structure ParentInv (cfg : Config) (cap : Stream → ℕ) (lanes : Stream → Lane) (storeID : ℕ)
    (p : Parent) : Prop where
  holds : HoldsAll cfg lanes p.store.durableHWM p.held
  childStore : p.childStore = none ∨ p.childStore = some storeID
  mark_le : ∀ st, p.mark cfg st ≤ cap st

/-- Every queued push was sent, and reaches back to the mark. -/
def QueueInv (cfg : Config) (lanes : Stream → Lane) (pushes : List Request) (p : Parent) : Prop :=
  ∀ w ∈ p.queue, ∃ req n, pushes[w.id]? = some req ∧ w.req.stream = req.env.stream ∧
    Admitted cfg lanes p.store.durableHWM w.req req.batch n req.base

/-- **The invariant** of a child and its parent. -/
structure Inv (cfg : Config) (cap : Stream → ℕ) (s : Sys) : Prop where
  cap_lt : ∀ st, cap st < (s.child.lanes st).log.next
  lane : ∀ st, LaneInv cfg (cap st) st (s.child.lanes st)
  push : PushInv cfg cap s.pushes s.child
  link : LinkInv cfg cap s.child.lanes s.child.storeID s
  parent : ParentInv cfg cap s.child.lanes s.child.storeID s.parent
  queue : QueueInv cfg s.child.lanes s.pushes s.parent
  backup : ∀ b ∈ s.backups, ParentInv cfg cap s.child.lanes s.child.storeID b

/-! ### Lanes that move on, and a cap that is raised -/

section Evolves

variable {cfg : Config} {lanes lanes' : Stream → Lane} {storeID : ℕ} {s : Sys} {p : Parent}
  {pushes : List Request} {m : Receiver.Marks} {cap cap' : Stream → ℕ}

theorem Admitted.evolves {r : ReplRequest} {batch : List ReplRecord} {n base : ℕ}
    (h : Admitted cfg lanes m r batch n base) (he : ∀ st, (lanes st).Evolves (lanes' st)) :
    Admitted cfg lanes' m r batch n base :=
  ⟨h.child_eq, h.recs_eq, h.valid, h.batch.evolves (he _), h.base_le⟩

variable {held : Stream → List ReplRecord}

theorem HoldsAll.evolves (h : HoldsAll cfg lanes m held)
    (he : ∀ st, (lanes st).Evolves (lanes' st)) : HoldsAll cfg lanes' m held := by
  intro st
  obtain ⟨xs, hxs⟩ := h st
  exact ⟨xs, hxs.evolves (he st)⟩

/-- A retained record at or below the parent's mark is stored or set aside. -/
theorem HoldsAll.stored_of_le (h : HoldsAll cfg lanes m held)
    {st : Stream} {x : ℕ × RecEnc} (hx : x ∈ (lanes st).log.entries) (hr : cfg.rises st x.2)
    (hle : x.1 ≤ m ⟨cfg.child, st⟩) : cfg.stored x ∈ held st ∨ (lanes st).IsSetAside x.1 := by
  obtain ⟨xs, hxs⟩ := h st
  refine (hxs.complete x hx hr hle).imp_left fun hmem ↦ ?_
  rw [hxs.held_eq]
  exact mem_map_of_mem hmem

theorem ParentInv.evolves (h : ParentInv cfg cap lanes storeID p)
    (he : ∀ st, (lanes st).Evolves (lanes' st)) : ParentInv cfg cap lanes' storeID p :=
  ⟨h.holds.evolves he, h.childStore, h.mark_le⟩

theorem QueueInv.evolves (h : QueueInv cfg lanes pushes p)
    (he : ∀ st, (lanes st).Evolves (lanes' st)) : QueueInv cfg lanes' pushes p := by
  intro w hw
  obtain ⟨req, n, hreq, hst, had⟩ := h w hw
  exact ⟨req, n, hreq, hst, had.evolves he⟩

theorem Request.Inv.evolves {req : Request} (h : req.Inv cfg cap lanes storeID)
    (he : ∀ st, (lanes st).Evolves (lanes' st)) : req.Inv cfg cap lanes' storeID := by
  obtain ⟨n, hb⟩ := h.batch
  exact ⟨h.store, h.base_le, n, hb.evolves (he _)⟩

theorem Inv.mono (h : Inv cfg cap s) (hle : ∀ st, cap st ≤ cap' st)
    (hlt : ∀ st, cap' st < (s.child.lanes st).log.next) : Inv cfg cap' s where
  cap_lt := hlt
  lane st := by
    obtain ⟨hh, hp, hb, ha⟩ := h.lane st
    exact ⟨hh, hp, hb, ha.trans (hle st)⟩
  push := by
    have hpass : ∀ {p : Pass} {base : ℕ}, p.Inv cap s.child base → p.Inv cap' s.child base :=
      fun hp ↦ ⟨hp.epoch_le, hp.acked_eq, hp.base_le.trans (hle _)⟩
    have := h.push
    unfold PushInv at this ⊢
    split at this
    · trivial
    · exact this
    · exact ⟨hpass this.1, this.2⟩
    · exact ⟨hpass this.1, this.2⟩
    · exact ⟨hpass this.1, this.2⟩
  link :=
    { push := fun req hreq ↦ by
        obtain ⟨hs, hb, hn⟩ := h.link.push req hreq
        exact ⟨hs, hb.trans (hle _), hn⟩
      answer := fun id hwm hmem ↦ by
        obtain ⟨req, hreq, hb, hc⟩ := h.link.answer id hwm hmem
        exact ⟨req, hreq, hb, hc.trans (hle _)⟩
      down_store := h.link.down_store
      hello := fun id a hmem st ↦ (h.link.hello id a hmem st).trans (hle st) }
  parent := ⟨h.parent.holds, h.parent.childStore, fun st ↦ (h.parent.mark_le st).trans (hle st)⟩
  queue := h.queue
  backup b hb := by
    obtain ⟨hh, hc, hm⟩ := h.backup b hb
    exact ⟨hh, hc, fun st ↦ (hm st).trans (hle st)⟩

/-- A lane put in place of one that moved on to it. -/
theorem evolves_update {st : Stream} {l : Lane} (h : (lanes st).Evolves l) :
    ∀ st', (lanes st').Evolves (update lanes st l st') :=
  (forall_update_iff lanes fun st' ↦ (lanes st').Evolves).mpr ⟨h, fun _ _ ↦ .refl _⟩

theorem moves_update {st : Stream} {l : Lane} (h : (lanes st).Moves l) :
    ∀ st', (lanes st').Moves (update lanes st l st') :=
  (forall_update_iff lanes fun st' ↦ (lanes st').Moves).mpr ⟨h, fun _ _ ↦ .refl _⟩

end Evolves

/-! ### Steps of the child -/

/-- What a step of the child owes that leaves its streams alone. -/
structure ChildStep (cfg : Config) (cap : Stream → ℕ) (pushes : List Request) (c c' : Child) :
    Prop where
  storeID : c'.storeID = c.storeID
  lane : ∀ st, LaneInv cfg (cap st) st (c'.lanes st)
  moves : ∀ st, (c.lanes st).Moves (c'.lanes st)
  push : PushInv cfg cap pushes c'

/-- A step of the child, with the requests it sends. -/
theorem Inv.childStep {cfg : Config} {cap : Stream → ℕ} {s s' : Sys} (h : Inv cfg cap s)
    {sent : List Request} {asked : List DownRequest} (hid : s'.child.storeID = s.child.storeID)
    (hlane : ∀ st, LaneInv cfg (cap st) st (s'.child.lanes st))
    (hev : ∀ st, (s.child.lanes st).Evolves (s'.child.lanes st))
    (hpush : PushInv cfg cap (s.pushes ++ sent) s'.child)
    (hsent : ∀ req ∈ sent, req.Inv cfg cap s'.child.lanes s.child.storeID)
    (hasked : ∀ req ∈ asked, req.position.store = some s.child.storeID)
    (hpushes : s'.pushes = s.pushes ++ sent) (hdowns : s'.downs = s.downs ++ asked)
    (hpa : s'.pushAnswers = s.pushAnswers) (hda : s'.downAnswers = s.downAnswers)
    (hp : s'.parent = s.parent) (hb : s'.backups = s.backups) : Inv cfg cap s' := by
  have hkeep : ∀ {id : ℕ} {req : Request}, s.pushes[id]? = some req →
      s'.pushes[id]? = some req := by
    intro id req hreq
    rw [hpushes, getElem?_append_left (List.getElem?_eq_some_iff.mp hreq).1]
    exact hreq
  refine ⟨fun st ↦ (h.cap_lt st).trans_le (hev st).log.next_le, hlane, hpushes ▸ hpush,
    ⟨?_, ?_, ?_, ?_⟩, ?_, ?_, ?_⟩
  · rw [hpushes, hid]
    exact forall_mem_append.mpr ⟨fun req hreq ↦ (h.link.push req hreq).evolves hev, hsent⟩
  · rw [hpa]
    intro id hwm hmem
    obtain ⟨req, hreq, hrest⟩ := h.link.answer id hwm hmem
    exact ⟨req, hkeep hreq, hrest⟩
  · rw [hdowns, hid]
    exact forall_mem_append.mpr ⟨h.link.down_store, hasked⟩
  · rw [hda]
    exact h.link.hello
  · rw [hp, hid]
    exact h.parent.evolves hev
  · rw [hp]
    intro w hw
    obtain ⟨req, n, hreq, hst, had⟩ := h.queue.evolves hev w hw
    exact ⟨req, n, hkeep hreq, hst, had⟩
  · rw [hb, hid]
    exact fun b hb ↦ (h.backup b hb).evolves hev

theorem Lane.moves_seat (l : Lane) :
    l.Moves (if 1 < l.pos then l else { l with cursor := some (l.cursor.getD l.log.lwm) }) := by
  split
  · exact .refl _
  · exact moves_of_eq rfl rfl rfl

theorem Child.moves_resync (c : Child) (a : HelloAnswer) (replay : Bool) (st : Stream) :
    (c.lanes st).Moves ((c.resync a replay).lanes st) := by
  show (c.lanes st).Moves (if _ then _ else _)
  split
  · exact moves_of_eq rfl rfl rfl
  · exact .refl _

theorem Child.replayed_pos (c : Child) (a : HelloAnswer) (st : Stream) :
    (c.replayed a st).pos = (c.plan a st).place (c.lanes st).pos := by
  unfold Child.replayed UplinkReplay.place Lane.pos
  split <;> rfl

theorem Child.replayed_pos_le (c : Child) (a : HelloAnswer) (st : Stream) :
    (c.replayed a st).pos ≤ (c.lanes st).pos := by
  rw [c.replayed_pos, Child.plan, planReplay_place]
  exact min_le_left _ _

section Child

variable {cfg : Config} {st : Stream} {l l' : Lane} {cap : ℕ} {caps : Stream → ℕ}
  {pushes : List Request} {c c' : Child}

/-- A lane that moved on under its cursor. -/
theorem LaneInv.evolves (h : LaneInv cfg cap st l) (he : l.Evolves l') (hh : l'.HistInv)
    (hcur : l'.cursor = l.cursor) (hacked : l'.acked = l.acked) : LaneInv cfg cap st l' := by
  have hpos : l'.pos = l.pos := congrArg (Option.getD · 1) hcur
  refine ⟨hh, hpos ▸ h.pos_le.trans he.log.next_le, ?_, hacked ▸ h.acked_le⟩
  rw [hpos, hacked]
  exact h.behind.evolves he h.pos_le

/-- A lane whose cursor and confirmed mark were placed. -/
theorem LaneInv.place (h : LaneInv cfg cap st l) (hlog : l'.log = l.log) (hhist : l'.hist = l.hist)
    (hpos : l'.pos ≤ l.log.next) (hb : l'.Behind cfg st l'.pos l'.acked) (hacked : l'.acked ≤ cap) :
    LaneInv cfg cap st l' where
  hist := h.hist.mono hhist (by rw [hlog]) (by rw [hlog]; exact fun _ hx ↦ hx)
  pos_le := by rw [hlog]; exact hpos
  behind := hb
  acked_le := hacked

/-- The cursor moves to a position that leaves nothing behind. -/
theorem LaneInv.ack {off : ℕ} (h : LaneInv cfg cap st l) (hoff : off ≤ l.log.next)
    (hb : l.Behind cfg st off l.acked) : LaneInv cfg cap st (l.ack off) := by
  refine h.place (l.ack_log off) (l.ack_hist off) ?_ ?_ (by rw [l.ack_acked]; exact h.acked_le)
  · rw [l.ack_pos]
    exact max_le h.pos_le hoff
  · rw [l.ack_pos, l.ack_acked]
    refine .intro fun x hx hr hlt ↦ ?_
    rw [l.ack_log] at hx
    rw [IsSetAside, l.ack_setAside]
    rcases lt_max_iff.mp hlt with hlt | hlt
    · exact h.behind.elim hx hr hlt
    · exact hb.elim hx hr hlt

/-- Below the lowest retained offset nothing is retained. -/
theorem Lane.behind_lwm (cfg : Config) (st : Stream) (l : Lane) (acked : ℕ) :
    l.Behind cfg st l.log.lwm acked := by
  refine .intro fun x hx _ hlt ↦ ?_
  exact absurd (l.log.bounds x hx).1 hlt.not_ge

/-- Seating a cursor that never moved. -/
theorem LaneInv.seat (h : LaneInv cfg cap st l) :
    LaneInv cfg cap st
      (if 1 < l.pos then l else { l with cursor := some (l.cursor.getD l.log.lwm) }) := by
  split
  · exact h
  · refine h.place rfl rfl ?_ ?_ h.acked_le
    · cases hc : l.cursor with
      | none => exact l.log.lwm_le_next
      | some n =>
        have : l.pos = n := by rw [Lane.pos, hc]; rfl
        exact this ▸ h.pos_le
    · cases hc : l.cursor with
      | none => exact behind_lwm cfg st _ _
      | some n =>
        have : l.pos = n := by rw [Lane.pos, hc]; rfl
        exact this ▸ h.behind

variable {batch : List ReplRecord} {a : HelloAnswer} {fresh id : ℕ} {base : ℕ} {now : ℤ} {n : ℕ}

/-- **The cursor moves past a batch the parent confirmed.** -/
theorem LaneInv.confirm {n hwm : ℕ} (h : LaneInv cfg cap st l)
    (hb : BatchInv cfg st l batch n l.acked) (hle : l.acked ≤ hwm) (hcap : hwm ≤ cap)
    (hend : ∀ r ∈ batch, r.childOffset ≤ hwm) : LaneInv cfg cap st { l.ack n with acked := hwm } := by
  have hpos : Lane.pos { l.ack n with acked := hwm } = max l.pos n := l.ack_pos n
  refine h.place (l.ack_log n) (l.ack_hist n) ?_ ?_ hcap
  · rw [hpos]
    exact max_le h.pos_le hb.le_next
  · rw [hpos]
    refine .intro fun x hx hr hlt ↦ ?_
    have hx : x ∈ l.log.entries := l.ack_log n ▸ hx
    have hside : l.IsSetAside x.1 → (l.ack n).IsSetAside x.1 := (l.moves_ack n).setAside _
    rcases lt_max_iff.mp hlt with hlt | hlt
    · exact (h.behind.elim hx hr hlt).imp (·.trans hle) hside
    · exact ((hb.behind hle hend).elim hx hr hlt).imp id hside

/-- **A record refused alone is set aside**: everything behind it was confirmed or set aside. -/
theorem LaneInv.setAsideUplink {r : ReplRecord} {x : ℕ × RecEnc} (h : LaneInv cfg cap st l)
    (hb : BatchInv cfg st l [r] n l.acked) (hx : r.childOffset = x.1) :
    LaneInv cfg cap st (l.setAsideUplink x) := by
  have hn : x.1 < n := hx ▸ hb.lt r (by simp)
  unfold Lane.setAsideUplink
  split
  · exact h
  · refine h.place rfl rfl (Nat.succ_le_of_lt (hn.trans_le hb.le_next)) ?_ h.acked_le
    refine .intro fun y hy hr hlt ↦ ?_
    have hlt : y.1 < x.1 + 1 := hlt
    rcases Nat.lt_succ_iff_lt_or_eq.mp hlt with hlt | heq
    · rcases hb.carried y hy hr (hlt.trans hn) with hmem | hacked | ⟨z, hz, heq⟩
      · -- the batch is the record refused, which lies further on
        have : y.1 = x.1 := by rw [← hx, ← mem_singleton.mp hmem, toRepl_childOffset]
        omega
      · exact .inl hacked
      · exact .inr ⟨z, mem_append_left _ hz, heq⟩
    · exact .inr ⟨x, by simp, heq.symm⟩

theorem Pass.Inv.congr {p : Pass} (h : p.Inv caps c base) (hep : c'.epoch = c.epoch)
    (hacked : ∀ st, (c'.lanes st).acked = (c.lanes st).acked) : p.Inv caps c' base :=
  ⟨hep ▸ h.epoch_le, fun heq ↦ (hacked _).trans (h.acked_eq (heq.trans hep)), h.base_le⟩

/-- A re-sync that placed the cursors is no matter of a pass of an earlier epoch. -/
theorem Pass.Inv.newEpoch {p : Pass} (h : p.Inv caps c base)
    (hep : c'.epoch = c.epoch + 1) : p.Inv caps c' base := by
  have := h.epoch_le
  exact ⟨by omega, fun heq ↦ by omega, h.base_le⟩

/-- The pass in hand is not disturbed by lanes that move on, as long as the confirmed marks stay or
the epoch is over. -/
theorem PushInv.evolves (h : PushInv cfg caps pushes c) (hpush : c'.push = c.push)
    (he : ∀ st, (c.lanes st).Evolves (c'.lanes st))
    (hep : c'.epoch = c.epoch ∧ (∀ st, (c'.lanes st).acked = (c.lanes st).acked) ∨
      c'.epoch = c.epoch + 1) : PushInv cfg caps pushes c' := by
  have hle : c.epoch ≤ c'.epoch := by omega
  have hpass : ∀ {p : Pass} {base : ℕ}, p.Inv caps c base → p.Inv caps c' base := fun hp ↦
    hep.elim (fun h ↦ hp.congr h.1 h.2) hp.newEpoch
  unfold PushInv at h ⊢
  rw [hpush]
  split at h
  · trivial
  · exact h.trans hle
  · obtain ⟨hp, hle, hb⟩ := h
    exact ⟨hpass hp, hle.trans (he _).log.next_le, hb.evolves (he _) hle⟩
  · obtain ⟨hp, hb⟩ := h
    exact ⟨hpass hp, hb.evolves (he _)⟩
  · obtain ⟨hp, hb, hrest⟩ := h
    exact ⟨hpass hp, hb.evolves (he _), hrest⟩

theorem PushInv.of_idle (h : c.push = .idle) : PushInv cfg caps pushes c := by
  unfold PushInv
  rw [h]
  trivial

/-- One lane is put in place. -/
theorem LaneInv.update (hl : ∀ st, LaneInv cfg (caps st) st (c.lanes st))
    (hi : LaneInv cfg (caps st) st l) : ∀ st', LaneInv cfg (caps st') st' (update c.lanes st l st') :=
  forall_update_iff _ (fun st l ↦ LaneInv cfg (caps st) st l) |>.mpr
    ⟨hi, fun st' _ ↦ hl st'⟩

/-- Fields that no part of the invariant reads. -/
theorem ChildStep.congr {c₁ c₂ : Child} (h : ChildStep cfg caps pushes c c₁)
    (hid : c₂.storeID = c₁.storeID) (hlanes : c₂.lanes = c₁.lanes) (hpush : c₂.push = c₁.push)
    (hep : c₂.epoch = c₁.epoch) : ChildStep cfg caps pushes c c₂ where
  storeID := hid.trans h.storeID
  lane := hlanes ▸ h.lane
  moves := hlanes ▸ h.moves
  push := h.push.evolves hpush (fun _ ↦ hlanes ▸ .refl _) (.inl ⟨hep, fun _ ↦ by rw [hlanes]⟩)

/-! ### The passes of `pushOnce` -/

variable (hl : ∀ st, LaneInv cfg (caps st) st (c.lanes st)) (hp : PushInv cfg caps pushes c)

include hl

/-- A step that touches no lane. -/
theorem ChildStep.of_lanes (hlanes : c'.lanes = c.lanes) (hid : c'.storeID = c.storeID)
    (hp : PushInv cfg caps pushes c') : ChildStep cfg caps pushes c c' where
  storeID := hid
  lane := hlanes ▸ hl
  moves _ := hlanes ▸ .refl _
  push := hp

/-- `ackUplink` after a pass that left nothing behind. -/
theorem ChildStep.ackUplink {p : Pass} {n base : ℕ} {hwm : Option ℕ}
    (hc : c'.lanes = c.lanes) (hid : c'.storeID = c.storeID) (hidle : c'.push = .idle)
    (hpass : p.Inv caps c' base) (hb : BatchInv cfg p.st (c.lanes p.st) batch n base)
    (hle : ∀ v ∈ hwm, base ≤ v ∧ v ≤ caps p.st) (hend : ∀ r ∈ batch, r.childOffset ≤ hwm.getD base) :
    ChildStep cfg caps pushes c (c'.ackUplink p n hwm) := by
  unfold Child.ackUplink
  split
  · rename_i hep
    have hacked : (c.lanes p.st).acked = base := by
      rw [← hc]
      exact hpass.acked_eq hep.symm
    have hle : base ≤ hwm.getD base ∧ hwm.getD base ≤ caps p.st := by
      cases hwm with
      | none => exact ⟨le_rfl, hpass.base_le⟩
      | some v => exact hle v rfl
    have hi : LaneInv cfg (caps p.st) p.st { (c.lanes p.st).ack n with
        acked := hwm.getD ((c.lanes p.st).ack n).acked } := by
      rw [ack_acked, hacked]
      exact (hl p.st).confirm (hacked ▸ hb) (hacked ▸ hle.1) hle.2 hend
    have he : (c.lanes p.st).Moves { (c.lanes p.st).ack n with
        acked := hwm.getD ((c.lanes p.st).ack n).acked } :=
      moves_of_eq (ack_log _ _) (ack_hist _ _) (ack_setAside _ _)
    refine ⟨hid, ?_, ?_, .of_idle hidle⟩
    · show ∀ st, LaneInv cfg (caps st) st (update c'.lanes p.st _ st)
      rw [hc]
      exact LaneInv.update hl hi
    · show ∀ st, (c.lanes st).Moves (update c'.lanes p.st _ st)
      rw [hc]
      exact moves_update he
  · exact .of_lanes hl hc hid (.of_idle hidle)

theorem ChildStep.refused {p : Pass} {recs : List (ℕ × RecEnc)} {req : Request}
    (hpass : p.Inv caps c req.base) (hb : BatchInv cfg p.st (c.lanes p.st) req.batch n req.base) :
    ChildStep cfg caps pushes c (c.refused cfg now p recs req) := by
  unfold Child.refused
  dsimp only
  split
  · rename_i x hfind
    split
    · rename_i hcond
      obtain ⟨r, hr⟩ := LaneHold.refused_snd hcond.1
      have hx : r.childOffset = x.1 := by simpa [hr] using find?_some hfind
      have hacked : (c.lanes p.st).acked = req.base := hpass.acked_eq hcond.2.1.symm
      rw [hr, ← hacked] at hb
      exact ⟨rfl, LaneInv.update hl ((hl p.st).setAsideUplink hb hx),
        moves_update (moves_setAsideUplink _ _), trivial⟩
    · exact .of_lanes hl rfl rfl trivial
  · exact .of_lanes hl rfl rfl trivial

include hp

theorem ChildStep.refl : ChildStep cfg caps pushes c c := .of_lanes hl rfl rfl hp

theorem ChildStep.seat : ChildStep cfg caps pushes c (c.setLane st
    (if 1 < (c.lanes st).pos then c.lanes st
      else { c.lanes st with cursor := some ((c.lanes st).cursor.getD (c.lanes st).log.lwm) })) := by
  have hmoves := (c.lanes st).moves_seat
  refine ⟨rfl, LaneInv.update hl (hl st).seat, moves_update hmoves,
    hp.evolves rfl (fun st' ↦ (moves_update hmoves st').evolves) (.inl ⟨rfl, fun st' ↦ ?_⟩)⟩
  refine (forall_update_iff c.lanes fun st' l ↦ l.acked = (c.lanes st').acked).mpr
    ⟨?_, fun _ _ ↦ rfl⟩ st'
  split <;> rfl

theorem ChildStep.readCursor (h : c.readCursor = some c') : ChildStep cfg caps pushes c c' := by
  unfold Child.readCursor at h
  split at h
  · rename_i p hpush
    cases h
    have hlwm := (c.lanes p.st).log.lwm_le_next
    have hi := (hl p.st).ack hlwm (behind_lwm cfg p.st _ _)
    refine ⟨rfl, LaneInv.update hl hi, moves_update ((c.lanes p.st).moves_ack _),
      ⟨?_, fun _ ↦ ?_, (hl p.st).acked_le⟩, ?_⟩
    · show p.epoch ≤ c.epoch
      simpa [PushInv, hpush] using hp
    · show (update c.lanes p.st _ p.st).acked = _
      rw [update_self, ack_acked]
    · show _ ≤ (update c.lanes p.st _ p.st).log.next ∧
        (update c.lanes p.st _ p.st).Behind cfg p.st _ _
      rw [update_self]
      refine ⟨hi.pos_le, ?_⟩
      have := hi.behind
      rwa [ack_acked] at this
  · cases h

theorem ChildStep.readPage (h : c.readPage cfg = some c') : ChildStep cfg caps pushes c c' := by
  unfold Child.readPage at h
  split at h
  · rename_i p start base hpush
    dsimp only at h
    split at h
    · cases h
      exact .of_lanes hl rfl rfl trivial
    · cases h
      obtain ⟨hpass, hle, hb⟩ : p.Inv caps c base ∧ start ≤ (c.lanes p.st).log.next ∧
          (c.lanes p.st).Behind cfg p.st start base := by simpa [PushInv, hpush] using hp
      exact .of_lanes hl rfl rfl ⟨hpass.congr rfl fun _ ↦ rfl, .page (hl p.st).hist hle hb⟩
  · cases h

theorem ChildStep.sendBatch {req : Option Request} (h : c.sendBatch cfg pushes.length = some (c', req)) :
    ChildStep cfg caps (pushes ++ req.toList) c c' ∧
      ∀ r ∈ req.toList, r.Inv cfg caps c'.lanes c.storeID := by
  unfold Child.sendBatch at h
  split at h
  · rename_i p recs next base hpush
    obtain ⟨hpass, hb⟩ : p.Inv caps c base ∧
        BatchInv cfg p.st (c.lanes p.st) (buildBatch p.st recs) next base := by
      simpa [PushInv, hpush] using hp
    split at h
    · rename_i hempty
      cases h
      exact ⟨.ackUplink hl rfl rfl rfl (hpass.congr rfl fun _ ↦ rfl) hb (by simp)
        (by simp [hempty]), by simp⟩
    · rename_i hne
      split at h
      · cases h
        exact ⟨.of_lanes hl rfl rfl trivial, by simp⟩
      · rename_i fit hfit
        cases h
        have hcut : BatchInv cfg p.st (c.lanes p.st) ((c.hold p.st).cut fit)
            (cutNext (buildBatch p.st recs) ((c.hold p.st).cut fit) next) base :=
          hb.cut ((LaneHold.cut_isPrefix _ _).trans (Config.fitReplicationBatch_isPrefix hfit))
            (LaneHold.cut_ne_nil _ (Config.fitReplicationBatch_ne_nil hne hfit))
        refine ⟨.of_lanes hl rfl rfl ⟨hpass.congr rfl fun _ ↦ rfl, hcut, ?_, rfl⟩, ?_⟩
        · simp
        · intro r hr
          obtain rfl : r = _ := by simpa using hr
          exact ⟨rfl, hpass.base_le, _, hcut⟩
  · cases h

/-- Receiving the answer to a push. -/
theorem ChildStep.receivePush {a : PushAnswer} (hcap : ∀ st, caps st < (c.lanes st).log.next)
    (hans : ∀ hwm, a = .ok hwm → ∃ req, pushes[id]? = some req ∧ req.base ≤ hwm ∧
      hwm ≤ caps req.env.stream)
    (h : c.receivePush cfg fresh now id a = some c') : ChildStep cfg caps pushes c c' := by
  unfold Child.receivePush at h
  split at h
  · rename_i p recs req next id' hpush
    obtain ⟨hpass, hb, hreq, hst⟩ : p.Inv caps c req.base ∧
        BatchInv cfg p.st (c.lanes p.st) req.batch next req.base ∧ pushes[id']? = some req ∧
          req.env.stream = p.st := by
      simpa [PushInv, hpush] using hp
    split at h
    · rename_i hid
      subst hid
      cases h
      cases a with
      | ok hwm =>
        obtain ⟨req', hreq', hbase, hle⟩ := hans hwm rfl
        obtain rfl : req = req' := by simpa [hreq] using hreq'
        rw [hst] at hle
        dsimp only
        split
        · exact .of_lanes hl rfl rfl trivial
        · rename_i hany
          -- the parent's mark lies below the head, so the child's own store is not behind
          have hown : ¬ (c.lanes p.st).log.next ≤ hwm := not_le.mpr (hle.trans_lt (hcap _))
          have hend : ∀ r ∈ req.batch, r.childOffset ≤ hwm := by simpa using hany
          unfold Child.accepted
          dsimp only
          rw [if_neg fun hcond ↦ hown hcond.1]
          exact .ackUplink hl rfl rfl rfl (hpass.congr rfl fun _ ↦ rfl) hb
            (fun v hv ↦ mem_some.mp hv ▸ ⟨hbase, hle⟩) hend
      | refused r => exact .refused hl hpass hb
      | storeChanged | unauthorized | busy | failure => exact .of_lanes hl rfl rfl trivial
    · cases h
  · cases h

/-! ### The downlink loop -/

/-- **A re-sync** places every cursor where nothing is left behind: below it lies only what the
parent holds, or what is not retained any more. -/
theorem ChildStep.resync (hans : ∀ st, a.hwms st ≤ caps st) :
    ChildStep cfg caps pushes c (c.resync a true) := by
  have hmoves := c.moves_resync a true
  refine ⟨rfl, fun st ↦ ?_, hmoves, hp.evolves rfl (fun st ↦ (hmoves st).evolves) (.inr rfl)⟩
  show LaneInv cfg (caps st) st (if _ then _ else _)
  split
  · refine (hl st).place rfl rfl ((c.replayed_pos_le a st).trans (hl st).pos_le)
      (.intro fun x hx _ hlt ↦ .inl ?_) (hans st)
    rw [c.replayed_pos] at hlt
    exact le_of_lt_place hlt ((c.lanes st).log.bounds x hx).1
  · exact hl st

theorem ChildStep.placeAgainst {fresh : ℕ}
    (hcap : ∀ st, caps st < (c.lanes st).log.next) (hans : ∀ st, a.hwms st ≤ caps st) :
    ChildStep cfg caps pushes c (c.placeAgainst fresh a) := by
  -- every mark of the parent lies below the child's head, so the child's store did not regress
  have hown : (uplinkStreams.any fun st ↦ c.ownStoreBehind st (a.hwms st)) = false := by
    refine any_eq_false.mpr fun st _ ↦ ?_
    simp [Child.ownStoreBehind, (hans st).trans_lt (hcap st)]
  unfold Child.placeAgainst
  simp only [hown, Bool.false_eq_true, if_false, Bool.not_false]
  split
  · exact .resync hl hp hans
  · exact (ChildStep.refl hl hp).congr rfl rfl rfl rfl
  · exact .refl hl hp
  · exact .refl hl hp

/-- Receiving the answer to a hello or a poll. -/
theorem ChildStep.receiveDown {a : DownAnswer} (hcap : ∀ st, caps st < (c.lanes st).log.next)
    (hans : ∀ r, a = .hello r → ∀ st, r.hwms st ≤ caps st)
    (h : c.receiveDown fresh id a = some c') : ChildStep cfg caps pushes c c' := by
  unfold Child.receiveDown at h
  split at h
  · cases h
    cases a with
    | poll | storeChanged | failure => exact (ChildStep.refl hl hp).congr rfl rfl rfl rfl
    | hello r => exact (ChildStep.placeAgainst hl hp hcap (hans r rfl)).congr rfl rfl rfl rfl
  · cases h

end Child

/-! ### Steps of the parent -/

/-- Nothing that the invariant reads changed at the parent. -/
structure Parent.Frame (p p' : Parent) : Prop where
  store : p'.store = p.store
  held : p'.held = p.held
  childStore : p'.childStore = p.childStore
  queue : p'.queue = p.queue

section Parent

variable {cfg : Config} {cap : Stream → ℕ} {lanes : Stream → Lane} {storeID : ℕ}
  {pushes : List Request} {p p' : Parent} {s : Sys}

theorem Parent.judged_frame (cfg : Config) (p : Parent) (fresh : ℕ) (recorded : Option ℕ)
    (pos : ChildPosition) : p.Frame (p.judged cfg fresh recorded pos).2 := by
  unfold judged
  dsimp only
  split <;> exact ⟨rfl, rfl, rfl, rfl⟩

theorem ParentInv.frame (h : ParentInv cfg cap lanes storeID p) (hf : p.Frame p') :
    ParentInv cfg cap lanes storeID p' :=
  ⟨by rw [hf.store, hf.held]; exact h.holds, by rw [hf.childStore]; exact h.childStore, by
    unfold mark
    rw [hf.store]
    exact h.mark_le⟩

theorem QueueInv.frame (h : QueueInv cfg lanes pushes p) (hf : p.Frame p') :
    QueueInv cfg lanes pushes p' := by
  unfold QueueInv
  rw [hf.queue, hf.store]
  exact h

/-- Adopting the store of a child that never changed it keeps the marks. -/
theorem ParentInv.adopt (h : ParentInv cfg cap lanes storeID p) :
    ParentInv cfg cap lanes storeID (p.adopt cfg storeID) ∧
      (p.adopt cfg storeID).store = p.store ∧ (p.adopt cfg storeID).queue = p.queue ∧
      (p.adopt cfg storeID).held = p.held := by
  unfold Parent.adopt
  rcases h.childStore with hc | hc
  · rw [if_neg (by simp [hc]), if_pos hc]
    exact ⟨⟨h.holds, .inr rfl, h.mark_le⟩, rfl, rfl, rfl⟩
  · rw [if_pos hc]
    exact ⟨h, rfl, rfl, rfl⟩

theorem ParentInv.reopen (h : ParentInv cfg cap lanes storeID p) :
    ParentInv cfg cap lanes storeID p.reopen :=
  { h with }

theorem HoldsAll.lt_next {m : Receiver.Marks} {held : Stream → List ReplRecord}
    (h : HoldsAll cfg lanes m held) (st : Stream) : m ⟨cfg.child, st⟩ < (lanes st).log.next := by
  obtain ⟨xs, hxs⟩ := h st
  exact hxs.lt_next

/-- **What a push can do at the door**: it is answered, and nothing that counts changes; or it is
admitted, and it is queued as the copy of its batch. -/
theorem Parent.handleReplicate_cases (cfg : Config) (p : Parent) (fresh id : ℕ) (gate : Gate)
    (req : Request) :
    (∃ a, (p.handleReplicate cfg fresh id gate req).1 = some a ∧ (∀ hwm, a ≠ .ok hwm) ∧
      p.Frame (p.handleReplicate cfg fresh id gate req).2) ∨
    (gate = .pass ∧ isUplinkStream req.env.stream ∧
      (p.judged cfg fresh req.env.parent req.env.position).1 = false ∧
      ∃ recs, cfg.convert req.env.stream 0 req.batch = .ok recs ∧
        p.handleReplicate cfg fresh id gate req =
          (none, { p.adopt cfg req.env.store with
            queue := (p.adopt cfg req.env.store).queue ++
              [⟨id, cfg.child, req.env.stream, dropUnreplicable req.env.stream recs⟩] })) := by
  have hframe : p.Frame p := ⟨rfl, rfl, rfl, rfl⟩
  unfold handleReplicate
  split
  · exact .inl ⟨_, rfl, by simp, hframe⟩
  · exact .inl ⟨_, rfl, by simp, hframe⟩
  · exact .inl ⟨_, rfl, by simp, hframe⟩
  · split
    · exact .inl ⟨_, rfl, by simp, hframe⟩
    · split
      · exact .inl ⟨_, rfl, by simp, hframe⟩
      · split
        · exact .inl ⟨_, rfl, by simp, hframe⟩
        · rename_i hup
          split
          · exact .inl ⟨_, rfl, by simp, judged_frame ..⟩
          · rename_i hjudged
            split
            · exact .inl ⟨_, rfl, by simp, hframe⟩
            · rename_i recs hrecs
              exact .inr ⟨rfl, by simpa using hup, by simpa using hjudged, recs, hrecs, rfl⟩

/-- A record that rises leaves the node. -/
theorem leavesTheNode_of_rises {st : Stream} {e : RecEnc} (h : cfg.rises st e) : leavesTheNode e.topic := by
  simp only [Config.rises, Config.mayPush, pushable, Bool.and_eq_true] at h
  exact h.1.1.1

/-- A batch that was converted is admitted, when its custody reaches back to the mark. -/
theorem Admitted.of_convert {m : Receiver.Marks} {req : Request} {recs : List ReplRecord} {n : ℕ}
    (hup : isUplinkStream req.env.stream)
    (hb : BatchInv cfg req.env.stream (lanes req.env.stream) req.batch n req.base)
    (hrecs : cfg.convert req.env.stream 0 req.batch = .ok recs)
    (hbase : req.base ≤ m ⟨cfg.child, req.env.stream⟩) :
    Admitted cfg lanes m
      ⟨cfg.child, req.env.stream, dropUnreplicable req.env.stream recs⟩ req.batch n req.base := by
  have hleave : ∀ r ∈ req.batch, r.skipFrom = 0 → leavesTheNode r.topic := by
    intro r hr hskip
    obtain ⟨x, -, hrise, rfl⟩ := hb.data r hr hskip
    exact leavesTheNode_of_rises hrise
  have hfixed : req.env.stream.isFixed := by
    revert hup
    cases req.env.stream <;> simp [isUplinkStream, Stream.isFixed]
  have hcopy := dropUnreplicable_copy hrecs hleave
  obtain ⟨rfl, hvalid, -⟩ := cfg.convert_eq_ok hrecs
  refine ⟨rfl, hcopy, ?_, hb, hbase⟩
  rw [hcopy]
  simp only [ReplRequest.valid, hfixed, Bool.true_and, List.all_eq_true, Bool.not_eq_true']
  exact hvalid

/-- **The group commit** keeps what the parent holds, and answers every push between its base and the
mark. -/
theorem ParentInv.commit (h : ParentInv cfg cap lanes storeID p) (hh : ∀ st, (lanes st).HistInv)
    (hq : QueueInv cfg lanes pushes p) :
    HoldsAll cfg lanes (p.commit cfg).2.store.durableHWM (p.commit cfg).2.held ∧
      QueueInv cfg lanes pushes (p.commit cfg).2 ∧
      (∀ st, p.mark cfg st ≤ (p.commit cfg).2.mark cfg st) ∧
      ∀ id hwm, (id, PushAnswer.ok hwm) ∈ (p.commit cfg).1 → ∃ req, pushes[id]? = some req ∧
        req.base ≤ hwm ∧ hwm ≤ (p.commit cfg).2.mark cfg req.env.stream := by
  obtain ⟨hans, hmarks⟩ := commitReplicated_ok cfg.codec p.store
    ((takeGroup (fun w : Pending ↦ w.req.recs.length) p.queue).1.map Pending.req)
  have happ := takeGroup_append (fun w : Pending ↦ w.req.recs.length) p.queue
  unfold Parent.commit mark
  dsimp only
  rw [hmarks, hans]
  generalize (takeGroup (fun w : Pending ↦ w.req.recs.length) p.queue).1 = group at *
  generalize (takeGroup (fun w : Pending ↦ w.req.recs.length) p.queue).2 = rest at *
  have hadm : ∀ w ∈ group ++ rest, ∃ req n, pushes[w.id]? = some req ∧
      w.req.stream = req.env.stream ∧
      Admitted cfg lanes p.store.durableHWM w.req req.batch n req.base := by
    rw [happ]
    exact hq
  have hreqs : ∀ r ∈ group.map Pending.req, ∃ batch n base,
      Admitted cfg lanes p.store.durableHWM r batch n base := by
    intro r hr
    obtain ⟨w, hw, rfl⟩ := List.mem_map.mp hr
    obtain ⟨req, n, -, -, had⟩ := hadm w (mem_append_left _ hw)
    exact ⟨_, n, _, had⟩
  obtain ⟨hH, hle, hb⟩ := h.holds.absorb_all hh hreqs
  refine ⟨hH, fun w hw ↦ ?_, fun st ↦ hle _, fun id hwm hmem ↦ ?_⟩
  · obtain ⟨req, n, hreq, hst, had⟩ := hadm w (mem_append_right _ hw)
    have had := had.mono hle
    rw [← hmarks] at had
    exact ⟨req, n, hreq, hst, had⟩
  · rw [zip_map, List.mem_map] at hmem
    obtain ⟨⟨w, a⟩, hwa, heq⟩ := hmem
    obtain ⟨rfl, ha⟩ : w.id = id ∧ pushAnswer a = .ok hwm := by simpa using heq
    obtain ⟨herr, hlo, hhi⟩ := hb (w.req, a) (by
      rw [zip_map_left]
      exact mem_map_of_mem hwa)
    obtain ⟨req, n, hreq, hst, had⟩ := hadm w (mem_append_left _ (of_mem_zip hwa).1)
    rw [pushAnswer, if_pos (show a.err = none from herr)] at ha
    cases ha
    exact ⟨req, hreq, had.base_le.trans hlo, hst ▸ hhi⟩

/-- A hello keeps what the parent holds, and reports marks below the child's heads. -/
theorem ParentInv.handleHello (h : ParentInv cfg cap lanes storeID p) (fresh defNext : ℕ)
    {req : DownRequest} (hreq : req.position.store = some storeID) :
    ParentInv cfg cap lanes storeID (p.handleHello cfg fresh defNext req).2 ∧
      (p.handleHello cfg fresh defNext req).2.store = p.store ∧
      (p.handleHello cfg fresh defNext req).2.queue = p.queue ∧
      (p.handleHello cfg fresh defNext req).2.held = p.held ∧
      ∀ st, (p.handleHello cfg fresh defNext req).1.hwms st ≤ p.mark cfg st := by
  have hframe := judged_frame cfg p fresh req.parent req.position
  obtain ⟨hadopt, hstore, hqueue, hheld⟩ := (h.frame hframe).adopt
  unfold Parent.handleHello
  simp only [hreq]
  refine ⟨{ hadopt with }, hstore.trans hframe.store, hqueue.trans hframe.queue,
    hheld.trans hframe.held, fun st ↦ ?_⟩
  split
  · rw [Store.hwmGet_eq, hstore, hframe.store]
    exact le_rfl
  · exact Nat.zero_le _

end Parent

/-! ### The step lemma -/

/-- A push that is let in reaches back to the parent's mark. -/
def Sound (cfg : Config) (s : Sys) : Event → Prop
  | .arrivePush id _ => ∀ req, s.pushes[id]? = some req → isUplinkStream req.env.stream →
    (s.parent.judged cfg s.fresh req.env.parent req.env.position).1 = false →
      req.base ≤ s.parent.mark cfg req.env.stream
  | _ => True

theorem system_step_cases {cfg : Config} {s s' : Sys} {e : Event} (h : (system cfg).step s e = some s') :
    s.retain cfg e = some s' ∨ s.stepChild cfg e = some s' ∨ s.stepParent cfg e = some s' := by
  change ((s.retain cfg e).orElse fun _ ↦ s.stepChild cfg e).orElse (fun _ ↦ s.stepParent cfg e) =
    some s' at h
  cases hr : s.retain cfg e with
  | some t =>
    rw [hr] at h
    exact .inl h
  | none =>
    rw [hr] at h
    cases hc : s.stepChild cfg e with
    | some t =>
      rw [orElse_none, hc] at h
      exact .inr (.inl h)
    | none =>
      rw [orElse_none, hc] at h
      exact .inr (.inr h)

section Step

variable {cfg : Config} {cap : Stream → ℕ} {s s' : Sys} {e : Event}

theorem Inv.start (cfg : Config) : Inv cfg (fun _ ↦ 0) (system cfg).start := by
  have hlane : ∀ st, LaneInv cfg 0 st {} := fun st ↦
    ⟨⟨List.Pairwise.nil, by rintro _ ⟨⟩, by rintro _ ⟨⟩⟩, le_rfl, .intro (by rintro _ ⟨⟩), le_rfl⟩
  refine ⟨fun _ ↦ Nat.one_pos, hlane, trivial, ⟨?_, ?_, ?_, ?_⟩,
    ⟨fun st ↦ ⟨[], ?_⟩, .inl rfl, fun _ ↦ le_rfl⟩, ?_, ?_⟩
  · rintro _ ⟨⟩
  · rintro _ _ ⟨⟩
  · rintro _ ⟨⟩
  · rintro _ _ ⟨⟩
  · exact ⟨Nat.one_pos, rfl, List.Pairwise.nil, by rintro _ ⟨⟩, by rintro _ ⟨⟩⟩
  · rintro _ ⟨⟩
  · rintro _ ⟨⟩

/-- The stream of a lane moves on; its cursor and its confirmed mark stay. -/
theorem Inv.setLane (h : Inv cfg cap s) {st : Stream} {l : Lane}
    (he : (s.child.lanes st).Evolves l) (hh : l.HistInv)
    (hcur : l.cursor = (s.child.lanes st).cursor) (hacked : l.acked = (s.child.lanes st).acked)
    (pruned : Stream → List ℕ) :
    Inv cfg cap { s with child := s.child.setLane st l, prunedAhead := pruned } := by
  have hev := evolves_update he
  have hpush : PushInv cfg cap s.pushes (s.child.setLane st l) := by
    refine h.push.evolves rfl hev (.inl ⟨rfl, fun st' ↦ ?_⟩)
    show (update s.child.lanes st l st').acked = _
    rcases eq_or_ne st' st with rfl | hne
    · rw [update_self, hacked]
    · rw [update_of_ne hne]
  exact h.childStep rfl (LaneInv.update h.lane ((h.lane st).evolves he hh hcur hacked)) hev
    (by rw [append_nil]; exact hpush) (by rintro _ ⟨⟩) (by rintro _ ⟨⟩)
    (append_nil _).symm (append_nil _).symm rfl rfl rfl rfl

theorem Inv.retain (h : Inv cfg cap s) (hs : s.retain cfg e = some s') : Inv cfg cap s' := by
  unfold Sys.retain at hs
  split at hs
  · rename_i st upTo
    cases hs
    refine h.setLane (evolves_prune _ _) ((h.lane st).hist.mono rfl rfl ?_) rfl rfl _
    intro x hx
    exact (mem_filter.mp hx).1
  · rename_i st offs
    cases hs
    refine h.setLane (evolves_remove _ _) ((h.lane st).hist.mono rfl rfl ?_) rfl rfl _
    intro x hx
    exact (mem_filter.mp hx).1
  · cases hs

/-- What the child does between two writes to its streams: it moves its lanes, and may send a
request. -/
structure ChildMoves (cfg : Config) (cap : Stream → ℕ) (s s' : Sys) : Prop where
  step : ChildStep cfg cap s'.pushes s.child s'.child
  pushes : ∃ sent, s'.pushes = s.pushes ++ sent ∧
    ∀ req ∈ sent, req.Inv cfg cap s'.child.lanes s.child.storeID
  downs : ∃ asked, s'.downs = s.downs ++ asked ∧
    ∀ req ∈ asked, req.position.store = some s.child.storeID
  pushAnswers : s'.pushAnswers = s.pushAnswers
  downAnswers : s'.downAnswers = s.downAnswers
  parent : s'.parent = s.parent
  backups : s'.backups = s.backups
  prunedAhead : s'.prunedAhead = s.prunedAhead

/-- A step of the child that sends nothing. -/
theorem ChildMoves.alone {c : Child} (h : ChildStep cfg cap s.pushes s.child c) {n : ℕ} :
    ChildMoves cfg cap s { s with child := c, fresh := n } :=
  ⟨h, ⟨[], (append_nil _).symm, by rintro _ ⟨⟩⟩, ⟨[], (append_nil _).symm, by rintro _ ⟨⟩⟩,
    rfl, rfl, rfl, rfl, rfl⟩

/-- The child says hello or polls. -/
theorem ChildMoves.asks {c : Child} (h : ChildStep cfg cap s.pushes s.child c) {req : DownRequest}
    (hreq : req.position.store = some s.child.storeID) :
    ChildMoves cfg cap s { s with child := c, downs := s.downs ++ [req] } := by
  refine ⟨h, ⟨[], (append_nil _).symm, by rintro _ ⟨⟩⟩, ⟨[req], rfl, ?_⟩, rfl, rfl, rfl, rfl, rfl⟩
  intro req' hreq'
  rwa [mem_singleton.mp hreq']

/-- **What a step of the child can do**: store a record, or move its lanes. -/
theorem Inv.stepChild_cases (h : Inv cfg cap s) (hs : s.stepChild cfg e = some s') :
    (∃ st r, s' = s.withChild (s.child.setLane st ((s.child.lanes st).append r))) ∨
      ChildMoves cfg cap s s' := by
  have hrefl := ChildStep.refl h.lane h.push
  unfold Sys.stepChild at hs
  split at hs
  · -- append
    rename_i st r
    cases hs
    exact .inl ⟨st, r, rfl⟩
  · -- seat
    cases hs
    exact .inr (.alone (.seat h.lane h.push))
  · -- startPush
    obtain ⟨c, hc, rfl⟩ := map_eq_some_iff.mp hs
    unfold Child.startPush at hc
    split at hc
    · cases hc
      refine .inr (.alone ?_)
      exact .of_lanes h.lane rfl rfl le_rfl
    · cases hc
  · -- readCursor
    obtain ⟨c, hc, rfl⟩ := map_eq_some_iff.mp hs
    exact .inr (.alone (.readCursor h.lane h.push hc))
  · -- readPage
    obtain ⟨c, hc, rfl⟩ := map_eq_some_iff.mp hs
    exact .inr (.alone (.readPage h.lane h.push hc))
  · -- sendBatch
    obtain ⟨⟨c, req⟩, hc, rfl⟩ := map_eq_some_iff.mp hs
    obtain ⟨hstep, hsent⟩ := ChildStep.sendBatch h.lane h.push hc
    exact .inr ⟨hstep, ⟨_, rfl, hsent⟩, ⟨[], (append_nil _).symm, by rintro _ ⟨⟩⟩,
      rfl, rfl, rfl, rfl, rfl⟩
  · -- receivePush
    obtain ⟨⟨id, a⟩, hk, hs⟩ := bind_eq_some_iff.mp hs
    obtain ⟨c, hc, rfl⟩ := map_eq_some_iff.mp hs
    refine .inr (.alone (.receivePush h.lane h.push h.cap_lt ?_ hc))
    rintro hwm rfl
    exact h.link.answer id hwm (mem_of_getElem? hk)
  · -- losePush
    cases hs
    refine .inr (.alone ?_)
    exact .of_lanes h.lane rfl rfl trivial
  · -- sendHello
    split at hs
    · cases hs
      refine .inr (.asks ?_ rfl)
      exact hrefl.congr rfl rfl rfl rfl
    · cases hs
  · -- sendPoll
    split at hs
    · cases hs
      refine .inr (.asks ?_ rfl)
      exact hrefl.congr rfl rfl rfl rfl
    · cases hs
  · -- receiveDown
    obtain ⟨⟨id, a⟩, hk, hs⟩ := bind_eq_some_iff.mp hs
    obtain ⟨c, hc, rfl⟩ := map_eq_some_iff.mp hs
    refine .inr (.alone (.receiveDown h.lane h.push h.cap_lt ?_ hc))
    rintro r rfl
    exact h.link.hello id r (mem_of_getElem? hk)
  · -- loseDown
    cases hs
    refine .inr (.alone ?_)
    exact hrefl.congr rfl rfl rfl rfl
  · -- crashChild
    cases hs
    refine .inr (.alone ?_)
    exact .of_lanes h.lane rfl rfl trivial
  · cases hs

theorem Inv.stepChild (h : Inv cfg cap s) (hs : s.stepChild cfg e = some s') : Inv cfg cap s' := by
  rcases h.stepChild_cases hs with ⟨st, r, rfl⟩ | hm
  · exact h.setLane (evolves_append _ _) ((h.lane st).hist.append r) rfl rfl _
  · obtain ⟨sent, hpushes, hsent⟩ := hm.pushes
    obtain ⟨asked, hdowns, hasked⟩ := hm.downs
    exact h.childStep hm.step.storeID hm.step.lane (fun st ↦ (hm.step.moves st).evolves)
      (hpushes ▸ hm.step.push) hsent hasked hpushes hdowns hm.pushAnswers hm.downAnswers hm.parent
      hm.backups

variable {answers : List (ℕ × PushAnswer)} {downs : List (ℕ × DownAnswer)}

/-- A step of the parent, with the answers it gives. -/
theorem Inv.parentStep (h : Inv cfg cap s) (hc : s'.child = s.child) (hpushes : s'.pushes = s.pushes)
    (hdowns : s'.downs = s.downs) (hpa : s'.pushAnswers = s.pushAnswers ++ answers)
    (hda : s'.downAnswers = s.downAnswers ++ downs) (hb : s'.backups = s.backups)
    (hp : ParentInv cfg cap s.child.lanes s.child.storeID s'.parent)
    (hq : QueueInv cfg s.child.lanes s.pushes s'.parent)
    (hans : ∀ id hwm, (id, PushAnswer.ok hwm) ∈ answers → ∃ req, s.pushes[id]? = some req ∧
      req.base ≤ hwm ∧ hwm ≤ cap req.env.stream)
    (hhello : ∀ id a, (id, DownAnswer.hello a) ∈ downs → ∀ st, a.hwms st ≤ cap st) : Inv cfg cap s' := by
  refine ⟨hc ▸ h.cap_lt, hc ▸ h.lane, hc ▸ hpushes ▸ h.push, hc ▸ ⟨?_, ?_, ?_, ?_⟩, hc ▸ hp,
    hc ▸ hpushes ▸ hq, hc ▸ hb ▸ h.backup⟩
  · exact hpushes ▸ h.link.push
  · rw [hpa, hpushes]
    intro id hwm hmem
    rcases mem_append.mp hmem with hmem | hmem
    · exact h.link.answer id hwm hmem
    · exact hans id hwm hmem
  · exact hdowns ▸ h.link.down_store
  · rw [hda]
    intro id a hmem
    rcases mem_append.mp hmem with hmem | hmem
    · exact h.link.hello id a hmem
    · exact hhello id a hmem

/-- A step of the parent that answers nothing of weight and changes nothing that counts. -/
theorem Inv.frame (h : Inv cfg cap s)
    (hf : s.parent.Frame s'.parent) (hc : s'.child = s.child) (hpushes : s'.pushes = s.pushes)
    (hdowns : s'.downs = s.downs) (hpa : s'.pushAnswers = s.pushAnswers ++ answers)
    (hda : s'.downAnswers = s.downAnswers ++ downs) (hb : s'.backups = s.backups)
    (hans : ∀ id hwm, (id, PushAnswer.ok hwm) ∉ answers)
    (hhello : ∀ id a, (id, DownAnswer.hello a) ∉ downs) : Inv cfg cap s' :=
  h.parentStep hc hpushes hdowns hpa hda hb (h.parent.frame hf) (h.queue.frame hf)
    (fun id hwm hmem ↦ absurd hmem (hans id hwm)) fun id a hmem ↦ absurd hmem (hhello id a)

/-- A push arrives. -/
theorem Inv.arrivePush (h : Inv cfg cap s) {id : ℕ} {gate : Gate} (hsound : Sound cfg s (.arrivePush id gate))
    (hs : s.stepParent cfg (.arrivePush id gate) = some s') : Inv cfg cap s' := by
  obtain ⟨req, hreq, rfl⟩ := map_eq_some_iff.mp hs
  have hmem : req ∈ s.pushes := mem_of_getElem? hreq
  dsimp only
  rcases s.parent.handleReplicate_cases cfg s.fresh id gate req with
    ⟨a, ha, hok, hframe⟩ | ⟨-, hup, hjudged, recs, hrecs, heq⟩
  · refine h.frame hframe rfl rfl rfl rfl (append_nil _).symm rfl ?_ (by rintro _ _ ⟨⟩)
    rw [ha]
    intro id' hwm hmem'
    obtain ⟨-, rfl⟩ : id' = id ∧ PushAnswer.ok hwm = a := by simpa using hmem'
    exact hok hwm rfl
  · obtain ⟨hstore, -, n, hb⟩ := h.link.push req hmem
    obtain ⟨hadopt, hst, hqu, -⟩ := h.parent.adopt
    rw [heq, hstore]
    refine h.parentStep rfl rfl rfl rfl (append_nil _).symm rfl
      { hadopt with } ?_ (by rintro _ _ ⟨⟩) (by rintro _ _ ⟨⟩)
    intro w hw
    rcases mem_append.mp hw with hw | hw
    · obtain ⟨req', n', hrest⟩ := h.queue w (hqu ▸ hw)
      exact ⟨req', n', hst ▸ hrest⟩
    · rw [mem_singleton.mp hw]
      refine ⟨req, n, hreq, rfl, .of_convert hup hb hrecs ?_⟩
      rw [hst]
      exact hsound req hreq hup hjudged

/-- The cap after a step: the marks the parent reached count as well. -/
def raise (cfg : Config) (cap : Stream → ℕ) (s : Sys) (st : Stream) : ℕ :=
  max (cap st) (s.parent.mark cfg st)

theorem Inv.raise (h : Inv cfg cap s) : Inv cfg (raise cfg cap s) s := by
  have hcap : Uplink.raise cfg cap s = cap := funext fun st ↦ max_eq_left (h.parent.mark_le st)
  rw [hcap]
  exact h

/-- The group commit. -/
theorem Inv.commit (h : Inv cfg cap s) (hs : s.stepParent cfg .commit = some s') :
    Inv cfg (Uplink.raise cfg cap s') s' := by
  simp only [Sys.stepParent] at hs
  split at hs
  · cases hs
  · cases hs
    obtain ⟨hH, hq, -, hans⟩ := h.parent.commit (fun st ↦ (h.lane st).hist) h.queue
    have hraised := h.mono (fun st ↦ le_max_left _ ((s.parent.commit cfg).2.mark cfg st)) fun st ↦
      max_lt (h.cap_lt st) (hH.lt_next st)
    refine hraised.parentStep rfl rfl rfl rfl (append_nil _).symm rfl
      ⟨hH, h.parent.childStore, fun st ↦ le_max_right _ _⟩ hq ?_ (by rintro _ _ ⟨⟩)
    intro id hwm hmem
    obtain ⟨req, hreq, hbase, hle⟩ := hans id hwm hmem
    exact ⟨req, hreq, hbase, hle.trans (le_max_right _ _)⟩

theorem Inv.stepParent (h : Inv cfg cap s) (hsound : Sound cfg s e) (he : e ≠ .commit)
    (hs : s.stepParent cfg e = some s') : Inv cfg cap s' := by
  cases e with
  | arrivePush id gate => exact h.arrivePush hsound hs
  | commit => exact absurd rfl he
  | arriveHello id defNext =>
    obtain ⟨req, hreq, hs⟩ := bind_eq_some_iff.mp hs
    split at hs
    · cases hs
      have hstore := h.link.down_store req (mem_of_getElem? hreq)
      obtain ⟨hp, hst, hqu, -, hmarks⟩ := h.parent.handleHello s.fresh defNext hstore
      refine h.parentStep rfl rfl rfl (append_nil _).symm rfl rfl hp ?_ (by rintro _ _ ⟨⟩) ?_
      · unfold QueueInv
        rw [hqu, hst]
        exact h.queue
      · intro id' a hmem st
        obtain ⟨-, rfl⟩ : id' = id ∧ a = _ := by simpa using hmem
        exact (hmarks st).trans (h.parent.mark_le st)
    · cases hs
  | arrivePoll id =>
    obtain ⟨req, hreq, hs⟩ := bind_eq_some_iff.mp hs
    split at hs
    · cases hs
    · cases hs
      have hframe := judged_frame cfg s.parent s.fresh req.parent req.position
      refine h.frame ?_ rfl rfl rfl (append_nil _).symm rfl rfl (by rintro _ _ ⟨⟩) ?_
      · dsimp only [handlePoll]
        split
        · exact hframe
        · exact { hframe with }
      · dsimp only [handlePoll]
        split <;> simp
  | answerPoll i next defNext =>
    obtain ⟨w, -, hs⟩ := bind_eq_some_iff.mp hs
    split at hs
    · cases hs
      exact h.frame ⟨rfl, rfl, rfl, rfl⟩ rfl rfl rfl (append_nil _).symm rfl rfl
        (by rintro _ _ ⟨⟩) (by simp)
    · cases hs
  | recheckPoll i =>
    obtain ⟨w, -, rfl⟩ := map_eq_some_iff.mp hs
    have hframe := judged_frame cfg s.parent s.fresh w.req.parent w.req.position
    dsimp only
    split
    · exact h.frame { hframe with } rfl rfl rfl
        (append_nil _).symm rfl rfl (by rintro _ _ ⟨⟩) (by simp)
    · exact h
  | appendParent st r =>
    simp only [Sys.stepParent] at hs
    split at hs
    · cases hs
      refine h.parentStep rfl rfl rfl (append_nil _).symm (append_nil _).symm rfl
        ⟨?_, h.parent.childStore, ?_⟩ ?_ (by rintro _ _ ⟨⟩) (by rintro _ _ ⟨⟩)
      · rw [Store.append_durableHWM]
        exact h.parent.holds
      · unfold mark
        rw [Store.append_durableHWM]
        exact h.parent.mark_le
      · unfold QueueInv
        rw [Store.append_durableHWM]
        exact h.queue
    · cases hs
  | crashParent =>
    cases hs
    exact h.parentStep rfl rfl rfl (append_nil _).symm (append_nil _).symm rfl
      h.parent.reopen (by rintro _ ⟨⟩) (by rintro _ _ ⟨⟩) (by rintro _ _ ⟨⟩)
  | snapshot =>
    cases hs
    refine ⟨h.cap_lt, h.lane, h.push,
      { h.link with }, h.parent, h.queue, ?_⟩
    exact forall_mem_concat h.backup h.parent
  | restore i =>
    obtain ⟨b, hb, rfl⟩ := map_eq_some_iff.mp hs
    exact h.parentStep rfl rfl rfl (append_nil _).symm (append_nil _).symm rfl
      (h.backup b (mem_of_getElem? hb)).reopen (by rintro _ ⟨⟩) (by rintro _ _ ⟨⟩)
      (by rintro _ _ ⟨⟩)
  | _ => cases hs

/-- **Every step keeps the invariant**, when a push that is let in reaches back to the mark. -/
theorem Inv.step (h : Inv cfg cap s) (hsound : Sound cfg s e)
    (hs : (system cfg).step s e = some s') : Inv cfg (Uplink.raise cfg cap s') s' := by
  rcases system_step_cases hs with hs | hs | hs
  · exact (h.retain hs).raise
  · exact (h.stepChild hs).raise
  · rcases eq_or_ne e .commit with rfl | he
    · exact h.commit hs
    · exact (h.stepParent hsound he hs).raise

end Step

end Colca.Uplink
