import Colca.Repl.UplinkInvariant

/-!
# What the child answers for

The chain of custody of `Colca.Repl.UplinkLane` measures what was confirmed by a mark. Where the
marks of the parent and the offsets of the child belong to different histories a mark says nothing,
so here the same chain is followed with an arbitrary set `K` of records in its place: the records
that are **accounted for**. The cursor, the page in hand and every request leave behind only records
of `K`.

A step of the child keeps this for every `K` that holds what the step sets aside (`KeptStep`). The
one step that has to know more is the answer to a push: what the answered batch carried has to be in
`K` before the cursor may pass it.
-/

namespace Colca.Uplink

open Uns Incarnation List Function Lane

section Lane

variable {cfg : Config} {st : Stream} {l l' : Lane} {K K' : ℕ × RecEnc → Prop}
  {batch fit : List ReplRecord} {n : ℕ} {x : ℕ × RecEnc}

/-- Every retained record below `n` that rises is in `K`. -/
def Lane.Accounted (cfg : Config) (st : Stream) (l : Lane) (K : ℕ × RecEnc → Prop) (n : ℕ) : Prop :=
  ∀ x ∈ l.log.entries, cfg.rises st x.2 → x.1 < n → K x

theorem Lane.Accounted.mono (h : l.Accounted cfg st K n) (hK : ∀ x, K x → K' x) : l.Accounted cfg st K' n :=
  fun x hx hr hlt ↦ hK x (h x hx hr hlt)

theorem Lane.Accounted.evolves (h : l.Accounted cfg st K n) (he : l.Evolves l')
    (hn : n ≤ l.log.next) : l'.Accounted cfg st K n :=
  fun x hx hr hlt ↦ h x (he.log.mem_of_lt hx (hlt.trans_le hn)) hr hlt

theorem Lane.Accounted.congr (h : l.Accounted cfg st K n) (hlog : l'.log = l.log) :
    l'.Accounted cfg st K n := by
  intro x hx
  rw [hlog] at hx
  exact h x hx

/-- Below the lowest retained offset nothing is retained. -/
theorem Lane.accounted_lwm (cfg : Config) (st : Stream) (l : Lane) (K : ℕ × RecEnc → Prop) :
    l.Accounted cfg st K l.log.lwm :=
  fun x hx _ hlt ↦ absurd (l.log.bounds x hx).1 hlt.not_ge

theorem Lane.one_le_of_mem (l : Lane) (hx : x ∈ l.log.entries) : 1 ≤ x.1 :=
  l.log.one_le_lwm.trans (l.log.bounds x hx).1

/-- A batch that starts behind some offset `b`, with everything up to `b` accounted for. -/
def Carries (cfg : Config) (st : Stream) (l : Lane) (K : ℕ × RecEnc → Prop)
    (batch : List ReplRecord) (n : ℕ) : Prop :=
  ∃ b, BatchInv cfg st l batch n b ∧ b < l.log.next ∧ l.Accounted cfg st K (b + 1)

section

variable (h : Carries cfg st l K batch n)

include h

theorem Carries.mono (hK : ∀ x, K x → K' x) : Carries cfg st l K' batch n := by
  obtain ⟨b, hb, hlt, ha⟩ := h
  exact ⟨b, hb, hlt, ha.mono hK⟩

theorem Carries.evolves (he : l.Evolves l') : Carries cfg st l' K batch n := by
  obtain ⟨b, hb, hlt, ha⟩ := h
  exact ⟨b, hb.evolves he, hlt.trans_le he.log.next_le, ha.evolves he hlt⟩

theorem Carries.le_next : n ≤ l.log.next := by
  obtain ⟨b, hb, -⟩ := h
  exact hb.le_next

/-- The records of a batch lie below what the stream has handed out. -/
theorem Carries.lt_next {r : ReplRecord} (hr : r ∈ batch) : r.childOffset < l.log.next := by
  obtain ⟨b, hb, -⟩ := h
  exact (hb.lt r hr).trans_le hb.le_next

theorem Carries.elim (hset : l.IsSetAside x.1 → K x)
    (hx : x ∈ l.log.entries) (hr : cfg.rises st x.2) (hlt : x.1 < n) : toRepl x ∈ batch ∨ K x := by
  obtain ⟨b, hb, -, ha⟩ := h
  rcases hb.carried x hx hr hlt with hmem | hle | hside
  · exact .inl hmem
  · exact .inr (ha x hx hr (Nat.lt_succ_of_le hle))
  · exact .inr (hset hside)

end

/-- **Reading a page** at a position with everything behind it accounted for. -/
theorem Carries.page (hh : l.HistInv) {start : ℕ} (hle : start ≤ l.log.next)
    (ha : l.Accounted cfg st K start) :
    Carries cfg st l K (buildBatch st (cfg.pageRecords st l start))
      (l.log.pageNext start replBatch) := by
  have hone : 1 ≤ l.log.next := l.log.one_le_lwm.trans l.log.lwm_le_next
  refine ⟨start - 1, .page hh hle (.intro fun x _ _ hlt ↦ .inl ?_), by omega,
    fun x hx hr hlt ↦ ha x hx hr ?_⟩
  · omega
  · have := l.one_le_of_mem hx
    omega

/-- **Cutting a batch down** leaves what was cut off ahead of it. -/
theorem Carries.cut (h : Carries cfg st l K batch n) (hfit : fit <+: batch) (hne : fit ≠ []) :
    Carries cfg st l K fit (cutNext batch fit n) := by
  obtain ⟨b, hb, hrest⟩ := h
  exact ⟨b, hb.cut hfit hne, hrest⟩

/-- A lane whose cursor left only accounted records behind. -/
structure LaneKept (cfg : Config) (st : Stream) (K : ℕ × RecEnc → Prop) (l : Lane) : Prop where
  hist : l.HistInv
  pos_le : l.pos ≤ l.log.next
  behind : l.Accounted cfg st K l.pos

section

variable (h : LaneKept cfg st K l)

include h

theorem LaneKept.mono (hK : ∀ x, K x → K' x) : LaneKept cfg st K' l :=
  ⟨h.hist, h.pos_le, h.behind.mono hK⟩

/-- A lane that moved on under its cursor. -/
theorem LaneKept.evolves (he : l.Evolves l') (hh : l'.HistInv)
    (hcur : l'.cursor = l.cursor) : LaneKept cfg st K l' := by
  have hpos : l'.pos = l.pos := congrArg (Option.getD · 1) hcur
  refine ⟨hh, hpos ▸ h.pos_le.trans he.log.next_le, ?_⟩
  rw [hpos]
  exact h.behind.evolves he h.pos_le

/-- A lane whose cursor was placed. -/
theorem LaneKept.place (hlog : l'.log = l.log) (hhist : l'.hist = l.hist)
    (hpos : l'.pos ≤ l.log.next) (ha : l.Accounted cfg st K l'.pos) : LaneKept cfg st K l' where
  hist := h.hist.mono hhist (by rw [hlog]) (by rw [hlog]; exact fun _ hx ↦ hx)
  pos_le := by rw [hlog]; exact hpos
  behind := ha.congr hlog

/-- The cursor moves to a position that leaves only accounted records behind. -/
theorem LaneKept.ack {off : ℕ} (hoff : off ≤ l.log.next)
    (ha : l.Accounted cfg st K off) : LaneKept cfg st K (l.ack off) := by
  refine h.place (l.ack_log off) (l.ack_hist off) ?_ ?_
  · rw [l.ack_pos]
    exact max_le h.pos_le hoff
  · rw [l.ack_pos]
    intro x hx hr hlt
    rcases lt_max_iff.mp hlt with hlt | hlt
    · exact h.behind x hx hr hlt
    · exact ha x hx hr hlt

/-- Seating a cursor that never moved. -/
theorem LaneKept.seat :
    LaneKept cfg st K
      (if 1 < l.pos then l else { l with cursor := some (l.cursor.getD l.log.lwm) }) := by
  split
  · exact h
  · cases hc : l.cursor with
    | none => exact h.place rfl rfl l.log.lwm_le_next (l.accounted_lwm cfg st K)
    | some n =>
      have hn : l.pos = n := by rw [pos, hc]; rfl
      exact h.place rfl rfl (hn ▸ h.pos_le) (hn ▸ h.behind)

/-- **A record refused alone is set aside**: everything behind it was accounted for. -/
theorem LaneKept.setAsideUplink {r : ReplRecord} (hc : Carries cfg st l K [r] n) (hx : r.childOffset = x.1)
    (hset : ∀ y, (l.setAsideUplink x).IsSetAside y.1 → K y) : LaneKept cfg st K (l.setAsideUplink x) := by
  have hmoves := l.moves_setAsideUplink x
  have hn : x.1 < n := by
    obtain ⟨b, hb, -⟩ := hc
    exact hx ▸ hb.lt r (by simp)
  have hle := hc.le_next
  revert hset
  unfold Lane.setAsideUplink at hmoves ⊢
  split
  · exact fun _ ↦ h
  · rename_i hpos
    rw [if_neg hpos] at hmoves
    intro hset
    refine h.place rfl rfl (Nat.succ_le_of_lt (hn.trans_le hle)) fun y hy hr hlt ↦ ?_
    have hlt : y.1 < x.1 + 1 := hlt
    rcases Nat.lt_succ_iff_lt_or_eq.mp hlt with hlt | heq
    · have haside : l.IsSetAside y.1 → K y := fun hs ↦ hset y (hmoves.setAside _ hs)
      rcases hc.elim haside hy hr (hlt.trans hn) with hmem | hk
      · -- the batch is the record refused, which lies further on
        have : y.1 = x.1 := by rw [← hx, ← mem_singleton.mp hmem, toRepl_childOffset]
        omega
      · exact hk
    · exact hset y ⟨x, by simp, heq.symm⟩

end

end Lane

/-! ### The child -/

/-- The pass in hand leaves only accounted records behind. -/
def PushKept (cfg : Config) (K : Stream → ℕ × RecEnc → Prop) (pushes : List Request) (c : Child) :
    Prop :=
  match c.push with
  | .idle | .named _ => True
  | .placed p start _ =>
    start ≤ (c.lanes p.st).log.next ∧ (c.lanes p.st).Accounted cfg p.st (K p.st) start
  | .paged p recs next _ => Carries cfg p.st (c.lanes p.st) (K p.st) (buildBatch p.st recs) next
  | .sent p _ req next id =>
    Carries cfg p.st (c.lanes p.st) (K p.st) req.batch next ∧ pushes[id]? = some req ∧
      req.env.stream = p.st

/-- Every lane of the child and its pass in hand leave only accounted records behind. -/
structure ChildKept (cfg : Config) (K : Stream → ℕ × RecEnc → Prop) (pushes : List Request)
    (c : Child) : Prop where
  lane : ∀ st, LaneKept cfg st (K st) (c.lanes st)
  push : PushKept cfg K pushes c

/-- The child's store keeps its incarnation, or takes the one that is `fresh`. -/
def Child.KeepsStore (fresh : ℕ) (c c' : Child) : Prop :=
  c'.storeID = c.storeID ∧ (c'.minted → c.minted) ∨ c'.storeID = fresh

theorem Child.KeepsStore.of_eq {fresh : ℕ} {c c' : Child} (hid : c'.storeID = c.storeID)
    (hm : c'.minted = c.minted) : c.KeepsStore fresh c' :=
  .inl ⟨hid, fun h ↦ hm ▸ h⟩

/-- A step of the child that leaves its streams alone. -/
structure KeptStep (cfg : Config) (K : Stream → ℕ × RecEnc → Prop) (fresh : ℕ)
    (pushes : List Request) (c c' : Child) : Prop where
  kept : ChildKept cfg K pushes c'
  moves : ∀ st, (c.lanes st).Moves (c'.lanes st)
  store : c.KeepsStore fresh c'

theorem Lane.Moves.trans {a b c : Lane} (h₁ : a.Moves b) (h₂ : b.Moves c) : a.Moves c :=
  ⟨h₂.log.trans h₁.log, h₂.hist.trans h₁.hist, fun o h ↦ h₂.setAside o (h₁.setAside o h)⟩

section StoreID

variable {cfg : Config} {c c' : Child}

theorem Child.readCursor_storeID (h : c.readCursor = some c') : c'.storeID = c.storeID := by
  unfold Child.readCursor at h
  split at h
  · cases h
    rfl
  · cases h

theorem Child.readPage_storeID (h : c.readPage cfg = some c') : c'.storeID = c.storeID := by
  unfold Child.readPage at h
  split at h
  · dsimp only at h
    split at h <;> cases h <;> rfl
  · cases h

@[simp] theorem Child.ackUplink_storeID {p : Pass} {n : ℕ} {hwm : Option ℕ} :
    (c.ackUplink p n hwm).storeID = c.storeID := by
  unfold Child.ackUplink
  split <;> rfl

theorem Child.sendBatch_storeID {n : ℕ} {req : Option Request}
    (h : c.sendBatch cfg n = some (c', req)) : c'.storeID = c.storeID := by
  unfold Child.sendBatch at h
  split at h
  · split at h
    · cases h
      exact Child.ackUplink_storeID
    · split at h <;> cases h <;> rfl
  · cases h

end StoreID

section Child

variable {cfg : Config} {st : Stream} {l : Lane} {K K' : Stream → ℕ × RecEnc → Prop} {fresh : ℕ}
  {pushes pushes' : List Request} {c c₁ c' : Child}

theorem PushKept.mono (h : PushKept cfg K pushes c) (hK : ∀ st x, K st x → K' st x)
    (hp : ∀ (id : ℕ) req, pushes[id]? = some req → pushes'[id]? = some req) :
    PushKept cfg K' pushes' c := by
  unfold PushKept at h ⊢
  split at h
  · trivial
  · trivial
  · exact ⟨h.1, h.2.mono (hK _)⟩
  · exact h.mono (hK _)
  · exact ⟨h.1.mono (hK _), hp _ _ h.2.1, h.2.2⟩

theorem ChildKept.mono (h : ChildKept cfg K pushes c) (hK : ∀ st x, K st x → K' st x)
    (hp : ∀ (id : ℕ) req, pushes[id]? = some req → pushes'[id]? = some req) : ChildKept cfg K' pushes' c :=
  ⟨fun st ↦ (h.lane st).mono (hK st), h.push.mono hK hp⟩

/-- The pass in hand is not disturbed by lanes that move on. -/
theorem PushKept.evolves (h : PushKept cfg K pushes c) (hpush : c'.push = c.push)
    (he : ∀ st, (c.lanes st).Evolves (c'.lanes st)) : PushKept cfg K pushes c' := by
  unfold PushKept at h ⊢
  rw [hpush]
  split at h
  · trivial
  · trivial
  · exact ⟨h.1.trans (he _).log.next_le, h.2.evolves (he _) h.1⟩
  · exact h.evolves (he _)
  · exact ⟨h.1.evolves (he _), h.2⟩

theorem PushKept.of_idle (h : c.push = .idle) : PushKept cfg K pushes c := by
  unfold PushKept
  rw [h]
  trivial

/-- One lane is put in place. -/
theorem LaneKept.update (hl : ∀ st, LaneKept cfg st (K st) (c.lanes st)) (hi : LaneKept cfg st (K st) l) :
    ∀ st', LaneKept cfg st' (K st') (update c.lanes st l st') :=
  forall_update_iff _ (fun st l ↦ LaneKept cfg st (K st) l) |>.mpr
    ⟨hi, fun st' _ ↦ hl st'⟩

/-- A step that touches no lane. -/
theorem KeptStep.of_lanes (h : ChildKept cfg K pushes c) (hlanes : c'.lanes = c.lanes)
    (hpush : PushKept cfg K pushes c') (hid : c.KeepsStore fresh c') :
    KeptStep cfg K fresh pushes c c' where
  kept := ⟨hlanes ▸ h.lane, hpush⟩
  moves _ := hlanes ▸ .refl _
  store := hid

/-- Fields that neither custody nor the incarnation depends on. -/
theorem KeptStep.congr (h : KeptStep cfg K fresh pushes c c₁) (hlanes : c'.lanes = c₁.lanes)
    (hpush : c'.push = c₁.push) (hid : c'.storeID = c₁.storeID) (hm : c'.minted = c₁.minted) :
    KeptStep cfg K fresh pushes c c' where
  kept := ⟨hlanes ▸ h.kept.lane, h.kept.push.evolves hpush fun _ ↦ hlanes ▸ .refl _⟩
  moves := hlanes ▸ h.moves
  store := by
    rw [Child.KeepsStore, hid, hm]
    exact h.store

theorem KeptStep.trans (h₁ : KeptStep cfg K fresh pushes c c₁)
    (h₂ : KeptStep cfg K fresh pushes c₁ c') : KeptStep cfg K fresh pushes c c' where
  kept := h₂.kept
  moves st := (h₁.moves st).trans (h₂.moves st)
  store := by
    rcases h₂.store with ⟨hid, hm⟩ | hid
    · exact h₁.store.imp (fun h ↦ ⟨hid.trans h.1, fun h' ↦ h.2 (hm h')⟩) hid.trans
    · exact .inr hid

/-- A step that puts one lane in place and goes idle or keeps its pass. -/
theorem KeptStep.setLane (h : ChildKept cfg K pushes c)
    (hlanes : c'.lanes = update c.lanes st l) (hl : LaneKept cfg st (K st) l)
    (hmoves : (c.lanes st).Moves l) (hpush : PushKept cfg K pushes c')
    (hid : c.KeepsStore fresh c') : KeptStep cfg K fresh pushes c c' where
  kept := ⟨hlanes ▸ LaneKept.update h.lane hl, hpush⟩
  moves := hlanes ▸ moves_update hmoves
  store := hid

variable (h : ChildKept cfg K pushes c)

include h

theorem KeptStep.refl : KeptStep cfg K fresh pushes c c := .of_lanes h rfl h.push (.of_eq rfl rfl)

theorem KeptStep.seat : KeptStep cfg K fresh pushes c (c.setLane st
    (if 1 < (c.lanes st).pos then c.lanes st
      else { c.lanes st with cursor := some ((c.lanes st).cursor.getD (c.lanes st).log.lwm) })) := by
  have hmoves := (c.lanes st).moves_seat
  exact .setLane h rfl (h.lane st).seat hmoves
    (h.push.evolves rfl fun st' ↦ (moves_update hmoves st').evolves) (.of_eq rfl rfl)

theorem KeptStep.readCursor (hs : c.readCursor = some c') : KeptStep cfg K fresh pushes c c' := by
  unfold Child.readCursor at hs
  split at hs
  · rename_i p hpush
    cases hs
    have hlwm := (c.lanes p.st).log.lwm_le_next
    have hi := (h.lane p.st).ack hlwm (accounted_lwm cfg p.st _ _)
    refine .setLane h rfl hi ((c.lanes p.st).moves_ack _) ?_ (.of_eq rfl rfl)
    show _ ≤ (update c.lanes p.st _ p.st).log.next ∧
      (update c.lanes p.st _ p.st).Accounted cfg p.st (K p.st) _
    rw [update_self]
    exact ⟨hi.pos_le, hi.behind⟩
  · cases hs

theorem KeptStep.readPage (hs : c.readPage cfg = some c') : KeptStep cfg K fresh pushes c c' := by
  unfold Child.readPage at hs
  split at hs
  · rename_i p start base hpush
    dsimp only at hs
    split at hs
    · cases hs
      exact .of_lanes h rfl trivial (.of_eq rfl rfl)
    · cases hs
      have hp := h.push
      simp only [PushKept, hpush] at hp
      exact .of_lanes h rfl (Carries.page (h.lane p.st).hist hp.1 hp.2) (.of_eq rfl rfl)
  · cases hs

variable {p : Pass} {hwm : Option ℕ} {a : HelloAnswer} {now : ℤ} {id : ℕ}

omit h in
@[simp] theorem Child.isSetAside_ackUplink {n o : ℕ} :
    ((c.ackUplink p n hwm).lanes st).IsSetAside o ↔ (c.lanes st).IsSetAside o := by
  unfold Child.ackUplink
  split
  · show (update c.lanes p.st _ st).IsSetAside o ↔ _
    rcases eq_or_ne st p.st with rfl | hne
    · rw [update_self, IsSetAside, ack_setAside]
      rfl
    · rw [update_of_ne hne]
  · rfl

/-- `ackUplink` past a batch that was accounted for. -/
theorem KeptStep.ackUplink {batch : List ReplRecord} {n : ℕ}
    (hlanes : c₁.lanes = c.lanes) (hidle : c₁.push = .idle) (hid : c₁.storeID = c.storeID)
    (hm : c₁.minted = c.minted) (hset : ∀ x, (c.lanes p.st).IsSetAside x.1 → K p.st x)
    (hc : Carries cfg p.st (c.lanes p.st) (K p.st) batch n)
    (hbatch : c₁.epoch = p.epoch → ∀ x ∈ (c.lanes p.st).log.entries, cfg.rises p.st x.2 →
      toRepl x ∈ batch → K p.st x) : KeptStep cfg K fresh pushes c (c₁.ackUplink p n hwm) := by
  unfold Child.ackUplink
  split
  · rename_i hep
    have hacc : (c.lanes p.st).Accounted cfg p.st (K p.st) n := fun x hx hr hlt ↦
      (hc.elim (hset x) hx hr hlt).elim (hbatch hep x hx hr) id
    have hl := (h.lane p.st).ack hc.le_next hacc
    have hupdate : (c₁.setLane p.st { (c₁.lanes p.st).ack n with
        acked := hwm.getD ((c₁.lanes p.st).ack n).acked }).lanes =
      update c.lanes p.st { (c.lanes p.st).ack n with
        acked := hwm.getD ((c.lanes p.st).ack n).acked } := by
      show update c₁.lanes p.st _ = _
      rw [hlanes]
    exact .setLane h hupdate (hl.place rfl rfl hl.pos_le hl.behind)
      (moves_of_eq (ack_log _ _) (ack_hist _ _) (ack_setAside _ _))
      (.of_idle hidle) (.of_eq hid hm)
  · exact .of_lanes h hlanes (.of_idle hidle) (.of_eq hid hm)

theorem KeptStep.sendBatch {req : Option Request} (hset : ∀ st x, (c'.lanes st).IsSetAside x.1 → K st x)
    (hs : c.sendBatch cfg pushes.length = some (c', req)) :
    KeptStep cfg K fresh (pushes ++ req.toList) c c' ∧
      ∀ r ∈ req.toList, r.env.store = c.storeID ∧
        ∃ n, Carries cfg r.env.stream (c'.lanes r.env.stream) (K r.env.stream) r.batch n := by
  unfold Child.sendBatch at hs
  split at hs
  · rename_i p recs next base hpush
    have hp := h.push
    simp only [PushKept, hpush] at hp
    split at hs
    · rename_i hempty
      cases hs
      rw [Option.toList_none, append_nil]
      have hset : ∀ x, (c.lanes p.st).IsSetAside x.1 → K p.st x := fun x hx ↦
        hset p.st x (Child.isSetAside_ackUplink.mpr hx)
      exact ⟨.ackUplink h rfl rfl rfl rfl hset hp (by simp [hempty]), by simp⟩
    · rename_i hne
      split at hs
      · cases hs
        rw [Option.toList_none, append_nil]
        exact ⟨.of_lanes h rfl trivial (.of_eq rfl rfl), by simp⟩
      · rename_i fit hfit
        cases hs
        have hcut : Carries cfg p.st (c.lanes p.st) (K p.st) ((c.hold p.st).cut fit)
            (cutNext (buildBatch p.st recs) ((c.hold p.st).cut fit) next) :=
          hp.cut ((LaneHold.cut_isPrefix _ _).trans (Config.fitReplicationBatch_isPrefix hfit))
            (LaneHold.cut_ne_nil _ (Config.fitReplicationBatch_ne_nil hne hfit))
        refine ⟨⟨⟨h.lane, hcut, ?_, rfl⟩, fun _ ↦ .refl _, .of_eq rfl rfl⟩, ?_⟩
        · simp
        · intro r hr
          obtain rfl : r = _ := by simpa using hr
          exact ⟨rfl, _, hcut⟩
  · cases hs

theorem KeptStep.reincarnate : KeptStep cfg K fresh pushes c (c.reincarnate fresh) := by
  have hmoves : ∀ st, (c.lanes st).Moves ((c.reincarnate fresh).lanes st) := fun _ ↦
    moves_of_eq rfl rfl rfl
  refine ⟨⟨fun st ↦ ?_, h.push.evolves rfl fun st ↦ (hmoves st).evolves⟩, hmoves, .inr rfl⟩
  exact (h.lane st).place rfl rfl (h.lane st).pos_le (h.lane st).behind

theorem KeptStep.refused {recs : List (ℕ × RecEnc)} {req : Request} {n : ℕ}
    (hc : Carries cfg p.st (c.lanes p.st) (K p.st) req.batch n)
    (hset : ∀ st x, ((c.refused cfg now p recs req).lanes st).IsSetAside x.1 → K st x) :
    KeptStep cfg K fresh pushes c (c.refused cfg now p recs req) := by
  revert hset
  unfold Child.refused
  dsimp only
  split
  · rename_i x hfind
    split
    · rename_i hcond
      intro hset
      obtain ⟨r, hr⟩ := LaneHold.refused_snd hcond.1
      have hx : r.childOffset = x.1 := by simpa [hr] using find?_some hfind
      rw [hr] at hc
      have hset : ∀ y, ((c.lanes p.st).setAsideUplink x).IsSetAside y.1 → K p.st y := by
        intro y hy
        refine hset p.st y ?_
        show (update c.lanes p.st _ p.st).IsSetAside y.1
        rw [update_self]
        exact hy
      exact .setLane h rfl ((h.lane p.st).setAsideUplink hc hx hset) (moves_setAsideUplink _ _)
        trivial (.of_eq rfl rfl)
    · exact fun _ ↦ .of_lanes h rfl trivial (.of_eq rfl rfl)
  · exact fun _ ↦ .of_lanes h rfl trivial (.of_eq rfl rfl)

/-- **Receiving the answer to a push.** The cursor moves past the batch only where what the batch
carried is accounted for; not when a re-sync took the pass over, nor when the child sees that its
store regressed. -/
theorem KeptStep.receivePush {a : PushAnswer} (hset : ∀ st x, (c'.lanes st).IsSetAside x.1 → K st x)
    (hans : ∀ p recs req next hwm, c.push = .sent p recs req next id → a = .ok hwm →
      c.epoch = p.epoch →
      (∀ x ∈ (c.lanes p.st).log.entries, cfg.rises p.st x.2 → toRepl x ∈ req.batch → K p.st x) ∨
        (c.lanes p.st).log.next ≤ hwm ∧ (req.env.store ≠ c.storeID ∨ c.minted = false))
    (hs : c.receivePush cfg fresh now id a = some c') : KeptStep cfg K fresh pushes c c' := by
  unfold Child.receivePush at hs
  split at hs
  · rename_i p recs req next id' hpush
    have hp := h.push
    simp only [PushKept, hpush] at hp
    split at hs
    · rename_i hid
      subst hid
      cases a with
      | ok hwm =>
        cases hs
        revert hset
        dsimp only
        split
        · exact fun _ ↦ .of_lanes h rfl trivial (.of_eq rfl rfl)
        · unfold Child.accepted
          dsimp only
          split
          · split
            · exact fun _ ↦ .of_lanes h rfl trivial (.of_eq rfl rfl)
            · intro _
              have hidle : KeptStep cfg K fresh pushes c { c with
                  push := .idle, hold := update c.hold p.st (c.hold p.st).accepted } :=
                .of_lanes h rfl trivial (.of_eq rfl rfl)
              exact hidle.trans (.reincarnate hidle.kept)
          · rename_i hbehind
            intro hset
            refine .ackUplink h rfl rfl rfl rfl
              (fun x hx ↦ hset p.st x (Child.isSetAside_ackUplink.mpr hx)) hp.1 fun hep ↦ ?_
            refine (hans p recs req next hwm hpush rfl hep).resolve_right fun hseen ↦ hbehind ?_
            refine ⟨hseen.1, hseen.2.imp_right fun hm ↦ ?_⟩
            show (decide ((c.lanes p.st).log.next ≤ hwm) && !c.minted) = true
            simp [hseen.1, hm]
      | refused r =>
        cases hs
        exact .refused h hp.1 hset
      | storeChanged | unauthorized | busy | failure =>
        cases hs
        exact .of_lanes h rfl trivial (.of_eq rfl rfl)
    · cases hs
  · cases hs

/-! ### The downlink loop -/

/-- A re-sync moves cursors back only. -/
theorem KeptStep.resync {replay : Bool} : KeptStep cfg K fresh pushes c (c.resync a replay) := by
  have hmoves := c.moves_resync a replay
  refine ⟨⟨fun st ↦ ?_, h.push.evolves rfl fun st ↦ (hmoves st).evolves⟩, hmoves, .of_eq rfl rfl⟩
  show LaneKept cfg st (K st) (if _ then _ else _)
  split
  · have hle := c.replayed_pos_le a st
    exact (h.lane st).place rfl rfl (hle.trans (h.lane st).pos_le)
      fun x hx hr hlt ↦ (h.lane st).behind x hx hr (hlt.trans_le hle)
  · exact h.lane st

theorem KeptStep.placeAgainst : KeptStep cfg K fresh pushes c (c.placeAgainst fresh a) := by
  unfold Child.placeAgainst
  dsimp only
  -- whether the marks show that the child's store regressed, and what the parent's id says, are
  -- independent of each other
  have hfirst : KeptStep cfg K fresh pushes c
      (if uplinkStreams.any fun st ↦ c.ownStoreBehind st (a.hwms st) then c.reincarnate fresh
        else c) := by
    split
    · exact .reincarnate h
    · exact .refl h
  split
  · exact hfirst.trans (.resync hfirst.kept)
  · exact hfirst.congr rfl rfl rfl rfl
  · exact hfirst
  · exact hfirst

/-- Receiving the answer to a hello or a poll. -/
theorem KeptStep.receiveDown {a : DownAnswer} (hs : c.receiveDown fresh id a = some c') :
    KeptStep cfg K fresh pushes c c' := by
  unfold Child.receiveDown at hs
  split at hs
  · cases hs
    cases a with
    | poll | storeChanged | failure => exact (KeptStep.refl h).congr rfl rfl rfl rfl
    | hello r => exact (KeptStep.placeAgainst h).congr rfl rfl rfl rfl
  · cases hs

theorem KeptStep.restart : KeptStep cfg K fresh pushes c c.restart :=
  .of_lanes h rfl trivial (.inl ⟨rfl, fun hm ↦ by cases hm⟩)

end Child

/-! ### Adopting an incarnation of the child -/

theorem Parent.adopt_queue (cfg : Config) (p : Parent) (id : ℕ) : (p.adopt cfg id).queue = p.queue := by
  unfold Parent.adopt
  split
  · rfl
  · split <;> rfl

theorem Parent.Frame.adopt {p p' : Parent} (h : p.Frame p') (cfg : Config) (id : ℕ) :
    (p.adopt cfg id).Frame (p'.adopt cfg id) := by
  unfold Parent.adopt
  rw [h.childStore]
  split
  · exact h
  · split
    · exact ⟨h.store, h.held, rfl, h.queue⟩
    · exact ⟨by rw [h.store], rfl, rfl, h.queue⟩

theorem dropMarks_durableHWM (p : Store) (child : String) (st : Stream) :
    (p.dropMarks child).durableHWM ⟨child, st⟩ = 0 := by
  simp [Store.dropMarks, Store.durableHWM, readU64]

end Colca.Uplink
