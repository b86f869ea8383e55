import Colca.Repl.ChildRestore
import Colca.Repl.Custody
import Colca.Store.ReplDurability

/-!
# What a restored child delivers

As long as no answer hides the restore (`RegressionSeen`), nothing the child writes after it is
lost: whatever the uplink cursor has passed is stored at the parent or set aside.

The invariant follows the chain of custody of `Colca.Repl.Custody`. The records accounted for are
those from before the restore, those the parent stored since, and those set aside (`State.Kept`).
The parent's marks are no measure of them: up to the mark of the restore the parent drops records it
never stored, for as long as it keeps that mark. So every statement about a mark, a queued push or an
answer has this one exception, and it ends when the child's new incarnation makes the parent drop its
marks (`State.cleared`).
-/

namespace Colca.ChildRestore

open Uns Uplink Incarnation HighWater List Option Receiver

variable {cfg : Config} {s s' : State} {t : Sys} {st : Stream} {x : ℕ × RecEnc}

/-! ### The invariant -/

/-- A record that is accounted for. -/
def State.Kept (cfg : Config) (s : State) (st : Stream) (x : ℕ × RecEnc) : Prop :=
  x.1 < s.last.head st ∨ cfg.stored x ∈ s.stored st ∨ (s.sys.child.lanes st).IsSetAside x.1

/-- An id the child's store has had since the restore: the one the copy carried, or one that the
parent did not have on record. -/
def State.Named (s : State) (id : ℕ) : Prop :=
  id < s.sys.fresh ∧ (id = s.last.id ∨ s.last.record ≠ some id)

/-- Which incarnation ids are in use. -/
structure Ids (s : State) : Prop where
  last_lt : s.last.id < s.sys.fresh
  record_lt : ∀ id ∈ s.last.record, id < s.sys.fresh
  onRecord_lt : ∀ id ∈ s.sys.parent.childStore, id < s.sys.fresh
  copies : ∀ c ∈ s.copies, c.storeID < s.sys.fresh
  child : s.Named s.sys.child.storeID
  minted : s.sys.child.minted → s.sys.child.storeID ≠ s.last.id
  push : ∀ req ∈ s.sys.pushes, s.Named req.env.store
  down : ∀ req ∈ s.sys.downs, ∀ id ∈ req.position.store, s.Named id

/-- What the parent has on record of the child. -/
structure OnRecord (cfg : Config) (s : State) : Prop where
  /-- Until the marks are dropped the record is that of the restore. -/
  record : s.cleared = false → s.sys.parent.childStore = s.last.record ∨ s.last.record = none
  /-- A parent that has no record of the child has no marks of it either. -/
  unmarked : s.sys.parent.childStore = none →
    s.sys.parent.queue = [] ∧ ∀ st, s.sys.parent.mark cfg st = 0
  last_unmarked : s.last.record = none → ∀ st, s.last.mark st = 0

/-- A queued push is the copy of the batch that was sent. -/
structure Queued (cfg : Config) (w : Pending) (req : Request) : Prop where
  child : w.req.child = cfg.child
  stream : w.req.stream = req.env.stream
  recs : w.req.recs = req.batch.map cfg.copy
  valid : w.req.valid

/-- **The invariant** of a restored child and its parent. -/
structure Inv (cfg : Config) (s : State) : Prop where
  ids : Ids s
  onRecord : OnRecord cfg s
  child : ChildKept cfg (s.Kept cfg) s.sys.pushes s.sys.child
  push : ∀ req ∈ s.sys.pushes, ∃ n, Carries cfg req.env.stream (s.sys.child.lanes req.env.stream)
    (s.Kept cfg req.env.stream) req.batch n
  /-- A push that was let in under the marks of the restore names the incarnation of the copy. -/
  queue : ∀ w ∈ s.sys.parent.queue, ∃ req, s.sys.pushes[w.id]? = some req ∧ Queued cfg w req ∧
    (s.cleared ∨ req.env.store = s.last.id ∨ ∀ st, s.last.mark st = 0)
  /-- Up to the parent's mark every record is accounted for, or below the mark of the restore. -/
  marks : ∀ st, ∀ x ∈ (s.sys.child.lanes st).log.entries, cfg.rises st x.2 →
    x.1 ≤ s.sys.parent.mark cfg st → s.Kept cfg st x ∨ s.cleared = false ∧ x.1 ≤ s.last.mark st
  mark_lt : ∀ st, s.sys.parent.mark cfg st < (s.sys.child.lanes st).log.next ∨
    s.cleared = false ∧ s.sys.parent.mark cfg st ≤ s.last.mark st
  answer : ∀ k id hwm, s.sys.pushAnswers[k]? = some (id, .ok hwm) →
    ∃ req, s.sys.pushes[id]? = some req ∧
      ∀ x ∈ (s.sys.child.lanes req.env.stream).log.entries, cfg.rises req.env.stream x.2 →
        toRepl x ∈ req.batch → s.Kept cfg req.env.stream x ∨
          k < s.early ∧ x.1 ≤ s.last.mark req.env.stream ∧ req.env.store = s.last.id
  early : s.cleared = false → s.early = s.sys.pushAnswers.length
  copies : ∀ c ∈ s.copies, ∀ st, (c.lanes st).HistInv ∧ (c.lanes st).pos ≤ (c.lanes st).log.next

theorem Inv.delivered (h : Inv cfg s) : Delivered cfg s := by
  intro st x hx hhead hr hlt
  rcases (h.child.lane st).behind x hx hr hlt with hlt | hkept
  · omega
  · exact hkept

theorem Inv.start (cfg : Config) : Inv cfg (restoreSystem cfg).start where
  ids := ⟨Nat.two_pos, by rintro _ ⟨⟩, by rintro _ ⟨⟩, by rintro _ ⟨⟩, ⟨Nat.two_pos, .inl rfl⟩,
    by rintro ⟨⟩, by rintro _ ⟨⟩, by rintro _ ⟨⟩⟩
  onRecord := ⟨fun _ ↦ .inl rfl, fun _ ↦ ⟨rfl, fun _ ↦ rfl⟩, fun _ _ ↦ rfl⟩
  child := ⟨fun st ↦ ⟨⟨List.Pairwise.nil, by rintro _ ⟨⟩, by rintro _ ⟨⟩⟩, le_rfl, by rintro _ ⟨⟩⟩,
    trivial⟩
  push := by rintro _ ⟨⟩
  queue := by rintro _ ⟨⟩
  marks := by rintro _ _ ⟨⟩
  mark_lt _ := .inl Nat.one_pos
  answer := by rintro _ _ _ ⟨⟩
  early _ := rfl
  copies := by rintro _ ⟨⟩

/-! ### Steps of the child -/

section Child

/-- The child moves, and may send requests; the parent and the answers on the link stay. -/
structure ChildMoved (cfg : Config) (s : State) (t : Sys) : Prop where
  evolves : ∀ st, (s.sys.child.lanes st).Evolves (t.child.lanes st)
  kept : ChildKept cfg ((s.advance cfg t).Kept cfg) t.pushes t.child
  store : s.sys.child.KeepsStore s.sys.fresh t.child
  fresh : s.sys.fresh ≤ t.fresh ∧ (t.child.storeID = s.sys.fresh → s.sys.fresh < t.fresh)
  pushes : ∃ sent, t.pushes = s.sys.pushes ++ sent ∧ ∀ req ∈ sent,
    req.env.store = s.sys.child.storeID ∧ ∃ n, Carries cfg req.env.stream
      (t.child.lanes req.env.stream) ((s.advance cfg t).Kept cfg req.env.stream) req.batch n
  downs : ∃ asked, t.downs = s.sys.downs ++ asked ∧
    ∀ req ∈ asked, req.position.store = some s.sys.child.storeID
  pushAnswers : t.pushAnswers = s.sys.pushAnswers
  parent : t.parent = s.sys.parent

/-- What is accounted for stays so. -/
theorem State.Kept.advance (h : s.Kept cfg st x)
    (hset : ∀ o, (s.sys.child.lanes st).IsSetAside o → (t.child.lanes st).IsSetAside o) :
    (s.advance cfg t).Kept cfg st x := by
  rcases h with h | h | h
  · exact .inl h
  · exact .inr (.inl (mem_union_iff.mpr (.inl h)))
  · exact .inr (.inr (hset _ h))

theorem State.Named.advance {id : ℕ} (h : s.Named id) (hf : s.sys.fresh ≤ t.fresh) :
    (s.advance cfg t).Named id := ⟨h.1.trans_le hf, h.2⟩

/-- The parent's record stays, and so do its marks. -/
theorem State.advance_cleared (h : t.parent.childStore = s.sys.parent.childStore) :
    (s.advance cfg t).cleared = s.cleared := by
  show (s.cleared || (s.sys.parent.childStore != none &&
    t.parent.childStore != s.sys.parent.childStore)) = s.cleared
  simp [h]

theorem Inv.advance_early (h : Inv cfg s) (ha : t.pushAnswers = s.sys.pushAnswers) :
    (s.advance cfg t).early = s.early := by
  show (if s.cleared then s.early else t.pushAnswers.length) = s.early
  split
  · rfl
  · rename_i hc
    rw [ha, h.early (by simpa using hc)]

theorem Ids.childMoved (h : Ids s) (hm : ChildMoved cfg s t) : Ids (s.advance cfg t) := by
  have hold : ∀ {id}, s.Named id → (s.advance cfg t).Named id := fun hn ↦ hn.advance hm.fresh.1
  obtain ⟨c, p, b, n, pushes, answers, downs, downAnswers, pruned⟩ := t
  obtain ⟨-, -, hstore, ⟨hle, hlt⟩, ⟨sent, rfl, hsent⟩, ⟨asked, rfl, hasked⟩, -, rfl⟩ := hm
  have hnew : s.last.record ≠ some s.sys.fresh := fun heq ↦ (h.record_lt _ heq).false
  refine ⟨h.last_lt.trans_le hle, fun id hid ↦ (h.record_lt id hid).trans_le hle,
    fun id hid ↦ (h.onRecord_lt id hid).trans_le hle, fun c hc ↦ (h.copies c hc).trans_le hle,
    ?_, fun hmint ↦ ?_, fun req hreq ↦ ?_, fun req hreq id hid ↦ ?_⟩
  · rcases hstore with ⟨hid, -⟩ | hid
    · exact hold (hid ▸ h.child)
    · exact ⟨hid ▸ hlt hid, .inr (hid ▸ hnew)⟩
  · rcases hstore with ⟨hid, hm⟩ | hid
    · exact hid ▸ h.minted (hm hmint)
    · exact hid ▸ h.last_lt.ne'
  · rcases mem_append.mp hreq with hreq | hreq
    · exact hold (h.push req hreq)
    · exact hold ((hsent req hreq).1 ▸ h.child)
  · rcases mem_append.mp hreq with hreq | hreq
    · exact hold (h.down req hreq id hid)
    · rw [hasked req hreq] at hid
      cases hid
      exact hold h.child

/-- **A step of the child** keeps the invariant. What it appends below the parent's mark lies below
the mark of the restore. -/
theorem Inv.childMoved (h : Inv cfg s) (hm : ChildMoved cfg s t) : Inv cfg (s.advance cfg t) := by
  have hids := h.ids.childMoved hm
  have hcleared : (s.advance cfg t).cleared = s.cleared := State.advance_cleared (by rw [hm.parent])
  have hearly := h.advance_early hm.pushAnswers
  have hkept : ∀ {st x}, s.Kept cfg st x → (s.advance cfg t).Kept cfg st x := fun hk ↦
    hk.advance (hm.evolves _).setAside
  obtain ⟨c, p, b, n, pushes, answers, downs, downAnswers, pruned⟩ := t
  obtain ⟨hev, hc, -, -, ⟨sent, rfl, hsent⟩, -, rfl, rfl⟩ := hm
  have hfind : ∀ {id : ℕ} {req}, s.sys.pushes[id]? = some req →
      (s.sys.pushes ++ sent)[id]? = some req := fun hreq ↦
    getElem?_append_left (List.getElem?_eq_some_iff.mp hreq).1 ▸ hreq
  refine ⟨hids, ⟨hcleared ▸ h.onRecord.record, h.onRecord.unmarked, h.onRecord.last_unmarked⟩, hc,
    fun req hreq ↦ ?_, fun w hw ↦ ?_, fun st x hx hr hle ↦ ?_, fun st ↦ ?_,
    fun k id hwm hk ↦ ?_, hcleared ▸ hearly ▸ h.early, h.copies⟩
  · rcases mem_append.mp hreq with hreq | hreq
    · obtain ⟨n, hn⟩ := h.push req hreq
      exact ⟨n, (hn.evolves (hev _)).mono fun _ ↦ hkept⟩
    · exact (hsent req hreq).2
  · obtain ⟨req, hreq, hq, hown⟩ := h.queue w hw
    exact ⟨req, hfind hreq, hq, hcleared ▸ hown⟩
  · rw [hcleared]
    rcases (hev st).log.retained x hx with hold | hnext
    · exact (h.marks st x hold hr hle).imp_left hkept
    · exact .inr ((h.mark_lt st).elim (fun hlt ↦ absurd hle (hlt.trans_le hnext).not_ge)
        fun ⟨hc, hlast⟩ ↦ ⟨hc, hle.trans hlast⟩)
  · rw [hcleared]
    exact (h.mark_lt st).imp_left (·.trans_le (hev st).log.next_le)
  · obtain ⟨req, hreq, hans⟩ := h.answer k id hwm hk
    obtain ⟨n, hn⟩ := h.push req (mem_of_getElem? hreq)
    refine ⟨req, hfind hreq, fun x hx hr hmem ↦ ?_⟩
    rw [hearly]
    exact (hans x ((hev _).log.mem_of_lt hx (hn.lt_next hmem)) hr hmem).imp_left hkept

/-- The stream of a lane moves on; its cursor and what was set aside stay. -/
theorem Inv.setLane (h : Inv cfg s) {l : Lane} {pruned : Stream → List ℕ}
    (he : (s.sys.child.lanes st).Evolves l) (hh : l.HistInv)
    (hcur : l.cursor = (s.sys.child.lanes st).cursor) :
    ChildMoved cfg s { s.sys with child := s.sys.child.setLane st l, prunedAhead := pruned } := by
  have hev := evolves_update he
  have hkept : ∀ {st' x}, s.Kept cfg st' x → (s.advance cfg
      { s.sys with child := s.sys.child.setLane st l, prunedAhead := pruned }).Kept cfg st' x :=
    fun hk ↦ hk.advance (hev _).setAside
  have hc := h.child.mono (fun _ _ ↦ hkept) fun _ _ hp ↦ hp
  refine ⟨hev, ⟨LaneKept.update hc.lane ((hc.lane st).evolves he hh hcur), hc.push.evolves rfl hev⟩,
    .of_eq rfl rfl, ⟨le_rfl, fun heq ↦ ?_⟩, ⟨[], (append_nil _).symm, by rintro _ ⟨⟩⟩,
    ⟨[], (append_nil _).symm, by rintro _ ⟨⟩⟩, rfl, rfl⟩
  exact absurd heq h.ids.child.1.ne

/-- A record that was accounted for before the step or is accounted for after it. -/
def Either (cfg : Config) (s : State) (t : Sys) (st : Stream) (x : ℕ × RecEnc) : Prop :=
  s.Kept cfg st x ∨ (s.advance cfg t).Kept cfg st x

theorem Inv.either (h : Inv cfg s) (t : Sys) : ChildKept cfg (Either cfg s t) s.sys.pushes s.sys.child :=
  h.child.mono (fun _ _ ↦ .inl) fun _ _ hp ↦ hp

/-- A step that moves no stream accounts for what was accounted for before. -/
theorem Either.kept {fresh : ℕ} {pushes : List Request}
    (h : KeptStep cfg (Either cfg s t) fresh pushes s.sys.child t.child) :
    ChildKept cfg ((s.advance cfg t).Kept cfg) pushes t.child := by
  refine h.kept.mono (fun st x hk ↦ ?_) fun _ _ hp ↦ hp
  rcases hk with hk | hk
  · exact hk.advance (h.moves st).setAside
  · exact hk

variable {c : Child} {e : Uplink.Event}

/-- A step of the child that sends nothing. -/
theorem ChildMoved.alone {n : ℕ} (hn : s.sys.fresh ≤ n) (hfresh : c.storeID = s.sys.fresh → s.sys.fresh < n)
    (hs : KeptStep cfg (Either cfg s { s.sys with child := c, fresh := n }) s.sys.fresh s.sys.pushes
      s.sys.child c) : ChildMoved cfg s { s.sys with child := c, fresh := n } :=
  ⟨fun st ↦ (hs.moves st).evolves, Either.kept hs, hs.store, ⟨hn, hfresh⟩,
    ⟨[], (append_nil _).symm, by rintro _ ⟨⟩⟩, ⟨[], (append_nil _).symm, by rintro _ ⟨⟩⟩,
    rfl, rfl⟩

/-- A step of the child that keeps its incarnation. -/
theorem Inv.aloneSame (h : Inv cfg s) (hid : c.storeID = s.sys.child.storeID)
    (hs : KeptStep cfg (Either cfg s { s.sys with child := c }) s.sys.fresh s.sys.pushes
      s.sys.child c) : ChildMoved cfg s (s.sys.withChild c) :=
  .alone le_rfl (fun heq ↦ absurd (hid.symm.trans heq) h.ids.child.1.ne) hs

/-- The child says hello or polls. -/
theorem Inv.asks (h : Inv cfg s) {req : DownRequest}
    (hlanes : c.lanes = s.sys.child.lanes) (hpush : c.push = s.sys.child.push) (hid : c.storeID = s.sys.child.storeID)
    (hm : c.minted = s.sys.child.minted) (hreq : req.position.store = some s.sys.child.storeID) :
    ChildMoved cfg s { s.sys with child := c, downs := s.sys.downs ++ [req] } := by
  have hs : KeptStep cfg (Either cfg s { s.sys with child := c, downs := s.sys.downs ++ [req] })
      s.sys.fresh s.sys.pushes s.sys.child c :=
    (KeptStep.refl (h.either _)).congr hlanes hpush hid hm
  refine ⟨fun st ↦ (hs.moves st).evolves, Either.kept hs, hs.store, ⟨le_rfl, fun heq ↦ ?_⟩,
    ⟨[], (append_nil _).symm, by rintro _ ⟨⟩⟩, ⟨[req], rfl, ?_⟩, rfl, rfl⟩
  · exact absurd (hid.symm.trans heq) h.ids.child.1.ne
  · intro req' hreq'
    rwa [mem_singleton.mp hreq']

/-- The child sends the batch in hand. -/
theorem Inv.sends (h : Inv cfg s) {req : Option Request}
    (hc : s.sys.child.sendBatch cfg s.sys.pushes.length = some (c, req)) :
    ChildMoved cfg s { s.sys with child := c, pushes := s.sys.pushes ++ req.toList } := by
  have hK := h.either { s.sys with child := c, pushes := s.sys.pushes ++ req.toList }
  obtain ⟨hs, hsent⟩ := @KeptStep.sendBatch _ _ s.sys.fresh _ _ _ hK _
    (fun _ _ hside ↦ .inr (.inr (.inr hside))) hc
  refine ⟨fun st ↦ (hs.moves st).evolves, Either.kept hs, hs.store, ⟨le_rfl, fun heq ↦ ?_⟩,
    ⟨_, rfl, fun r hr ↦ ?_⟩, ⟨[], (append_nil _).symm, by rintro _ ⟨⟩⟩, rfl, rfl⟩
  · exact absurd ((Child.sendBatch_storeID hc).symm.trans heq) h.ids.child.1.ne
  · obtain ⟨hid, n, hn⟩ := hsent r hr
    refine ⟨hid, n, hn.mono fun x hk ↦ ?_⟩
    rcases hk with hk | hk
    · exact hk.advance (hs.moves _).setAside
    · exact hk

/-- **The answer to a push.** A record of the batch that the parent did not store lies below the
mark of the restore; the answer shows the regression then, and the cursor stays. -/
theorem Inv.answered (h : Inv cfg s) {k id : ℕ} {a : PushAnswer}
    (hk : s.sys.pushAnswers[k]? = some (id, a)) (hseen : s.unseen k = false) {p : Pass}
    {recs : List (ℕ × RecEnc)} {req : Request} {next hwm : ℕ}
    (hpush : s.sys.child.push = .sent p recs req next id) (ha : a = .ok hwm)
    (hep : s.sys.child.epoch = p.epoch) :
    (∀ x ∈ (s.sys.child.lanes p.st).log.entries, cfg.rises p.st x.2 → toRepl x ∈ req.batch →
        s.Kept cfg p.st x) ∨
      (s.sys.child.lanes p.st).log.next ≤ hwm ∧
        (req.env.store ≠ s.sys.child.storeID ∨ s.sys.child.minted = false) := by
  subst ha
  have hp := h.child.push
  simp only [PushKept, hpush] at hp
  obtain ⟨-, hreq, hst⟩ := hp
  obtain ⟨req', hreq', hans⟩ := h.answer k id hwm hk
  obtain rfl : req = req' := by simpa [hreq] using hreq'
  rw [hst] at hans
  refine or_iff_not_imp_left.mpr fun hlost ↦ ?_
  push Not at hlost
  obtain ⟨x, hx, hr, hmem, hnot⟩ := hlost
  obtain ⟨hearly, hmark, hstore⟩ := (hans x hx hr hmem).resolve_left hnot
  have hhead : s.last.head p.st ≤ x.1 := not_lt.mp fun hlt ↦ hnot (.inl hlt)
  have hreuses : s.last.reuses req = true := by
    refine any_eq_true.mpr ⟨toRepl x, hmem, ?_⟩
    simp [hst, hhead, hmark]
  constructor
  · by_contra hlt
    simp [State.unseen, hk, hpush, hep, hearly, hreuses] at hseen
    omega
  · rw [hstore]
    rcases eq_or_ne s.last.id s.sys.child.storeID with heq | hne
    · refine .inr ?_
      by_contra hm
      exact h.ids.minted (by simpa using hm) heq.symm
    · exact .inl hne

theorem Inv.stepChild (h : Inv cfg s) (hC : RegressionSeen s (.run e))
    (hs : s.sys.stepChild cfg e = some t) : Inv cfg (s.advance cfg t) := by
  refine h.childMoved ?_
  unfold Sys.stepChild at hs
  split at hs
  · -- append
    rename_i st r
    cases hs
    exact h.setLane (Lane.evolves_append _ _) ((h.child.lane st).hist.append r) rfl
  · -- seat
    cases hs
    exact h.aloneSame rfl (.seat (h.either _))
  · -- startPush
    obtain ⟨c, hc, rfl⟩ := map_eq_some_iff.mp hs
    unfold Child.startPush at hc
    split at hc
    · cases hc
      exact h.aloneSame rfl (.of_lanes (h.either _) rfl trivial (.of_eq rfl rfl))
    · cases hc
  · -- readCursor
    obtain ⟨c, hc, rfl⟩ := map_eq_some_iff.mp hs
    exact h.aloneSame (Child.readCursor_storeID hc) (.readCursor (h.either _) hc)
  · -- readPage
    obtain ⟨c, hc, rfl⟩ := map_eq_some_iff.mp hs
    exact h.aloneSame (Child.readPage_storeID hc) (.readPage (h.either _) hc)
  · -- sendBatch
    obtain ⟨⟨c, req⟩, hc, rfl⟩ := map_eq_some_iff.mp hs
    exact h.sends hc
  · -- receivePush
    rename_i k now
    obtain ⟨⟨id, a⟩, hk, hs⟩ := bind_eq_some_iff.mp hs
    obtain ⟨c, hc, rfl⟩ := map_eq_some_iff.mp hs
    refine .alone (Nat.le_succ _) (fun _ ↦ Nat.lt_succ_self _) (.receivePush (h.either _)
      (fun _ _ hside ↦ .inr (.inr (.inr hside))) (fun p recs req next hwm hpush ha hep ↦ ?_) hc)
    exact (h.answered hk (hC k rfl) hpush ha hep).imp_left fun hall x hx hr hmem ↦
      .inl (hall x hx hr hmem)
  · -- losePush
    cases hs
    exact h.aloneSame rfl (.of_lanes (h.either _) rfl trivial (.of_eq rfl rfl))
  · -- sendHello
    split at hs
    · cases hs
      exact h.asks rfl rfl rfl rfl rfl
    · cases hs
  · -- sendPoll
    split at hs
    · cases hs
      exact h.asks rfl rfl rfl rfl rfl
    · cases hs
  · -- receiveDown
    obtain ⟨⟨id, a⟩, hk, hs⟩ := bind_eq_some_iff.mp hs
    obtain ⟨c, hc, rfl⟩ := map_eq_some_iff.mp hs
    exact .alone (Nat.le_succ _) (fun _ ↦ Nat.lt_succ_self _) (.receiveDown (h.either _) hc)
  · -- loseDown
    cases hs
    exact h.aloneSame rfl ((KeptStep.refl (h.either _)).congr rfl rfl rfl rfl)
  · -- crashChild
    cases hs
    exact h.aloneSame rfl (.restart (h.either _))
  · cases hs

theorem Inv.retain (h : Inv cfg s) (hs : s.sys.retain cfg e = some t) : Inv cfg (s.advance cfg t) := by
  refine h.childMoved ?_
  unfold Sys.retain at hs
  split at hs
  · rename_i st upTo
    cases hs
    refine h.setLane (Lane.evolves_prune _ _) ((h.child.lane st).hist.mono rfl rfl ?_) rfl
    intro x hx
    exact (mem_filter.mp hx).1
  · rename_i st offs
    cases hs
    refine h.setLane (Lane.evolves_remove _ _) ((h.child.lane st).hist.mono rfl rfl ?_) rfl
    intro x hx
    exact (mem_filter.mp hx).1
  · cases hs

end Child

/-! ### Steps of the parent -/

section Parent

/-- What a step of the parent leaves as it is. -/
structure ParentMoved (s : State) (t : Sys) (answers : List (ℕ × PushAnswer)) : Prop where
  child : t.child = s.sys.child
  pushes : t.pushes = s.sys.pushes
  downs : t.downs = s.sys.downs
  fresh : s.sys.fresh ≤ t.fresh
  pushAnswers : t.pushAnswers = s.sys.pushAnswers ++ answers

/-- Every confirmed push of these was queued, and the marks cover it. -/
def Covered (cfg : Config) (s : State) (t : Sys) (answers : List (ℕ × PushAnswer)) : Prop :=
  ∀ id hwm, (id, .ok hwm) ∈ answers → ∃ req, s.sys.pushes[id]? = some req ∧
    (∀ r ∈ req.batch, r.childOffset ≤ t.parent.mark cfg req.env.stream) ∧
    (s.cleared ∨ req.env.store = s.last.id ∨ ∀ st, s.last.mark st = 0)

variable {answers : List (ℕ × PushAnswer)}

theorem Ids.parentMoved (h : Ids s) (hm : ParentMoved s t answers)
    (hrec : ∀ id ∈ t.parent.childStore, id < t.fresh) : Ids (s.advance cfg t) := by
  obtain ⟨c, p, b, n, pushes, pushAnswers, downs, downAnswers, pruned⟩ := t
  obtain ⟨rfl, rfl, rfl, hle, rfl⟩ := hm
  exact ⟨h.last_lt.trans_le hle, fun id hid ↦ (h.record_lt id hid).trans_le hle, hrec,
    fun c hc ↦ (h.copies c hc).trans_le hle, h.child.advance hle, h.minted,
    fun req hreq ↦ (h.push req hreq).advance hle,
    fun req hreq id hid ↦ (h.down req hreq id hid).advance hle⟩

theorem State.cleared_of_advance (h : (s.advance cfg t).cleared = false) : s.cleared = false := by
  have h : (s.cleared || _) = false := h
  exact (Bool.or_eq_false_iff.mp h).1

theorem ParentMoved.kept (hm : ParentMoved s t answers) (h : s.Kept cfg st x) :
    (s.advance cfg t).Kept cfg st x :=
  h.advance (hm.child ▸ fun _ ho ↦ ho)

/-- **A step of the parent** keeps the invariant, when its record, its queue and its marks do. -/
theorem Inv.parentMoved (h : Inv cfg s) (hm : ParentMoved s t answers)
    (hids : ∀ id ∈ t.parent.childStore, id < t.fresh) (hrec : OnRecord cfg (s.advance cfg t))
    (hq : ∀ w ∈ t.parent.queue, ∃ req, s.sys.pushes[w.id]? = some req ∧ Queued cfg w req ∧
      ((s.advance cfg t).cleared ∨ req.env.store = s.last.id ∨ ∀ st, s.last.mark st = 0))
    (hmarks : ∀ st, ∀ x ∈ (s.sys.child.lanes st).log.entries, cfg.rises st x.2 →
      x.1 ≤ t.parent.mark cfg st → (s.advance cfg t).Kept cfg st x ∨
        (s.advance cfg t).cleared = false ∧ x.1 ≤ s.last.mark st)
    (hlt : ∀ st, t.parent.mark cfg st < (s.sys.child.lanes st).log.next ∨
      (s.advance cfg t).cleared = false ∧ t.parent.mark cfg st ≤ s.last.mark st)
    (hans : Covered cfg s t answers) : Inv cfg (s.advance cfg t) := by
  have hids : Ids (s.advance cfg t) := h.ids.parentMoved hm hids
  have hkept : ∀ {st x}, s.Kept cfg st x → (s.advance cfg t).Kept cfg st x := hm.kept
  have hold : (s.advance cfg t).cleared = false → s.cleared = false := State.cleared_of_advance
  obtain ⟨c, p, b, n, pushes, pushAnswers, downs, downAnswers, pruned⟩ := t
  obtain ⟨rfl, rfl, rfl, -, rfl⟩ := hm
  refine ⟨hids, hrec, h.child.mono (fun _ _ ↦ hkept) fun _ _ hp ↦ hp, fun req hreq ↦ ?_, hq, hmarks,
    hlt, fun k id hwm hk ↦ ?_, fun hc ↦ if_neg (Bool.eq_false_iff.mp (hold hc)), h.copies⟩
  · obtain ⟨n, hn⟩ := h.push req hreq
    exact ⟨n, hn.mono fun _ ↦ hkept⟩
  · have hk : (s.sys.pushAnswers ++ answers)[k]? = some (id, .ok hwm) := hk
    have hearly : k < s.early ∨ s.cleared = false →
        k < if s.cleared then s.early else (s.sys.pushAnswers ++ answers).length := by
      have := (List.getElem?_eq_some_iff.mp hk).1
      split <;> simp_all
    rcases lt_or_ge k s.sys.pushAnswers.length with hlt | hge
    · rw [getElem?_append_left hlt] at hk
      obtain ⟨req, hreq, hx⟩ := h.answer k id hwm hk
      exact ⟨req, hreq, fun x hmem hr hb ↦
        (hx x hmem hr hb).imp hkept (And.imp_left fun he ↦ hearly (.inl he))⟩
    · rw [getElem?_append_right hge] at hk
      obtain ⟨req, hreq, hcov, hown⟩ := hans id hwm (mem_of_getElem? hk)
      -- the parent's mark covers the batch now, and the exception is that of the mark
      refine ⟨req, hreq, fun x hmem hr hb ↦
        (hmarks _ x hmem hr (hcov _ hb)).imp_right fun ⟨hc, hle⟩ ↦ ⟨hearly (.inr (hold hc)), hle, ?_⟩⟩
      have := (s.sys.child.lanes req.env.stream).one_le_of_mem hmem
      rcases hown with hown | hown | hzero
      · exact absurd hown (Bool.eq_false_iff.mp (hold hc))
      · exact hown
      · rw [hzero] at hle
        omega

/-- A parent that keeps its record, its marks and its queue, and confirms nothing. -/
theorem Inv.sameMarks (h : Inv cfg s) (hm : ParentMoved s t answers)
    (hcs : t.parent.childStore = s.sys.parent.childStore)
    (hmark : ∀ st, t.parent.mark cfg st = s.sys.parent.mark cfg st)
    (hq : ∀ w ∈ t.parent.queue, w ∈ s.sys.parent.queue)
    (hans : ∀ id hwm, (id, PushAnswer.ok hwm) ∉ answers) : Inv cfg (s.advance cfg t) := by
  have hcleared : (s.advance cfg t).cleared = s.cleared := State.advance_cleared hcs
  refine h.parentMoved hm ?_ ⟨?_, fun hnone ↦ ?_, h.onRecord.last_unmarked⟩ (fun w hw ↦ ?_)
    (fun st x hx hr hle ↦ ?_) (fun st ↦ ?_) fun id hwm hmem ↦ absurd hmem (hans id hwm)
  · exact fun id hid ↦ (h.ids.onRecord_lt id (hcs ▸ hid)).trans_le hm.fresh
  · rw [hcleared]
    exact fun hc ↦ (h.onRecord.record hc).imp_left hcs.trans
  · obtain ⟨hempty, hzero⟩ := h.onRecord.unmarked (hcs.symm.trans hnone)
    refine ⟨eq_nil_iff_forall_not_mem.mpr fun w hw ↦ ?_, fun st ↦ (hmark st).trans (hzero st)⟩
    exact not_mem_nil (hempty ▸ hq w hw)
  · rw [hcleared]
    exact h.queue w (hq w hw)
  · rw [hcleared]
    exact (h.marks st x hx hr (hmark st ▸ hle)).imp_left hm.kept
  · rw [hmark, hcleared]
    exact h.mark_lt st

theorem Parent.mark_congr {p p' : Parent} (h : p'.store = p.store) (st : Stream) :
    p'.mark cfg st = p.mark cfg st := by
  rw [Parent.mark, Parent.mark, h]

/-- A parent that only answers the downlink, with the same store on record. -/
theorem Inv.framed (h : Inv cfg s) {p : Parent} {n : ℕ} {downAnswers : List (ℕ × DownAnswer)}
    {backups : List Parent} (hn : s.sys.fresh ≤ n) (hcs : p.childStore = s.sys.parent.childStore)
    (hstore : p.store = s.sys.parent.store) (hq : ∀ w ∈ p.queue, w ∈ s.sys.parent.queue) :
    Inv cfg (s.advance cfg { s.sys with
      parent := p, fresh := n, downAnswers := downAnswers, backups := backups }) :=
  h.sameMarks ⟨rfl, rfl, rfl, hn, (append_nil _).symm⟩ hcs (Parent.mark_congr hstore) hq
    (by rintro _ _ ⟨⟩)

/-- **Adopting an incarnation of the child** keeps the marks or drops all of them. Marks are kept
for the incarnation on record, and that is the copy's own unless there were none at the restore. -/
theorem Inv.adopted (h : Inv cfg s) (hm : ParentMoved s t answers) {id : ℕ} (hid : s.Named id)
    (hcs : t.parent.childStore = (s.sys.parent.adopt cfg id).childStore)
    (hmark : ∀ st, t.parent.mark cfg st = (s.sys.parent.adopt cfg id).mark cfg st)
    (hq : ∀ w ∈ t.parent.queue, w ∈ s.sys.parent.queue ∨
      ∃ req, s.sys.pushes[w.id]? = some req ∧ Queued cfg w req ∧ req.env.store = id)
    (hans : ∀ i hwm, (i, PushAnswer.ok hwm) ∉ answers) : Inv cfg (s.advance cfg t) := by
  have hsome : t.parent.childStore = some id := by
    rw [hcs]
    unfold Parent.adopt
    split
    · assumption
    · split <;> rfl
  have hids : ∀ i ∈ t.parent.childStore, i < t.fresh := by
    rw [hsome]
    rintro _ ⟨⟩
    exact hid.1.trans_le hm.fresh
  have hunmarked : t.parent.childStore = none →
      t.parent.queue = [] ∧ ∀ st, t.parent.mark cfg st = 0 := by
    rw [hsome]
    rintro ⟨⟩
  have hanswers : Covered cfg s t answers := fun i hwm hmem ↦ absurd hmem (hans i hwm)
  have hkept : ∀ {st x}, s.Kept cfg st x → (s.advance cfg t).Kept cfg st x := fun hk ↦
    hk.advance (by rw [hm.child]; exact fun _ ho ↦ ho)
  by_cases hdrop : s.sys.parent.childStore ≠ none ∧ s.sys.parent.childStore ≠ some id
  · -- the record names another incarnation: the marks are dropped
    have hcleared : (s.advance cfg t).cleared = true := by
      show (s.cleared || (s.sys.parent.childStore != none &&
        t.parent.childStore != s.sys.parent.childStore)) = true
      rw [hsome]
      simp [hdrop.1, Ne.symm hdrop.2]
    have hzero : ∀ st, t.parent.mark cfg st = 0 := by
      intro st
      rw [hmark, Parent.adopt, if_neg hdrop.2, if_neg hdrop.1]
      exact dropMarks_durableHWM _ _ _
    refine h.parentMoved hm hids ⟨?_, hunmarked, h.onRecord.last_unmarked⟩ ?_ ?_ ?_ hanswers
    · rw [hcleared]
      rintro ⟨⟩
    · intro w hw
      rcases hq w hw with hw | ⟨req, hreq, hqd, -⟩
      · obtain ⟨req, hreq, hqd, -⟩ := h.queue w hw
        exact ⟨req, hreq, hqd, .inl hcleared⟩
      · exact ⟨req, hreq, hqd, .inl hcleared⟩
    · intro st x hx _ hle
      have := (s.sys.child.lanes st).one_le_of_mem hx
      rw [hzero] at hle
      omega
    · intro st
      rw [hzero]
      exact .inl ((s.sys.child.lanes st).log.one_le_lwm.trans (OffsetLog.lwm_le_next _))
  · -- the record stays, or there was none
    have hcases : s.sys.parent.childStore = none ∨ s.sys.parent.childStore = some id := by
      by_contra hne
      push Not at hne
      exact hdrop hne
    have hcleared : (s.advance cfg t).cleared = s.cleared := by
      show (s.cleared || (s.sys.parent.childStore != none &&
        t.parent.childStore != s.sys.parent.childStore)) = s.cleared
      rw [hsome]
      rcases hcases with hc | hc <;> simp [hc]
    have hsame : ∀ st, t.parent.mark cfg st = s.sys.parent.mark cfg st := by
      intro st
      rw [hmark]
      unfold Parent.adopt
      rcases hcases with hc | hc
      · rw [if_neg (by simp [hc]), if_pos hc]
        rfl
      · rw [if_pos hc]
    -- until the marks are dropped, a push of this incarnation is one of the copy's
    have hown : s.cleared = false → id = s.last.id ∨ ∀ st, s.last.mark st = 0 := by
      intro hc
      rcases h.onRecord.record hc with hr | hr
      · rcases hcases with hcs | hcs
        · exact .inr (h.onRecord.last_unmarked (hr ▸ hcs))
        · exact .inl (hid.2.resolve_right fun hne ↦ hne (hr ▸ hcs))
      · exact .inr (h.onRecord.last_unmarked hr)
    refine h.parentMoved hm hids ⟨?_, hunmarked, h.onRecord.last_unmarked⟩ ?_ ?_ ?_ hanswers
    · rw [hcleared]
      intro hc
      show t.parent.childStore = s.last.record ∨ s.last.record = none
      rcases h.onRecord.record hc with hr | hr
      · rcases hcases with hcs | hcs
        · exact .inr (hr ▸ hcs)
        · exact .inl (hsome.trans (hcs.symm.trans hr))
      · exact .inr hr
    · intro w hw
      rw [hcleared]
      rcases hq w hw with hw | ⟨req, hreq, hqd, rfl⟩
      · exact h.queue w hw
      · refine ⟨req, hreq, hqd, ?_⟩
        cases hc : s.cleared with
        | true => exact .inl rfl
        | false => exact .inr (hown hc)
    · intro st x hx hr hle
      rw [hsame] at hle
      rw [hcleared]
      exact (h.marks st x hx hr hle).imp_left hkept
    · intro st
      rw [hsame, hcleared]
      exact h.mark_lt st

/-- A request whose batch the child answers for. -/
def Admissible (cfg : Config) (lanes : Stream → Lane) (K : Stream → ℕ × RecEnc → Prop)
    (r : ReplRequest) : Prop :=
  ∃ batch n, r.key = ⟨cfg.child, r.stream⟩ ∧ r.recs = batch.map cfg.copy ∧ r.valid ∧
    Carries cfg r.stream (lanes r.stream) (K r.stream) batch n

variable {held : Stream → List ReplRecord} {K : Stream → ℕ × RecEnc → Prop} {lanes : Stream → Lane}
  {m : Marks} {r : ReplRequest}

/-- What a request adds to what the parent holds: the records of its batch above the mark. -/
theorem stored_mem_noteHeld {batch : List ReplRecord} (hrecs : r.recs = batch.map cfg.copy) (hv : r.valid)
    (hinc : batch.Pairwise (·.childOffset < ·.childOffset)) (hx : toRepl x ∈ batch) (hlt : m r.key < x.1) :
    cfg.stored x ∈ noteHeld held [(r, Receiver.answer m r)] r.stream := by
  show cfg.stored x ∈ Function.update held r.stream _ r.stream
  rw [Function.update_self, answer_of_valid hv, hrecs]
  refine mem_append_right _ ?_
  show cfg.stored x ∈ List.filter _ (List.map _ _)
  rw [accept_copy hinc]
  exact mem_map.mpr ⟨toRepl x, mem_filter.mpr ⟨hx, by simp [hlt]⟩, rfl⟩

/-- One request moves a mark past records of its own batch, which the parent stores, and past
records the child accounts for otherwise. -/
theorem marks_kept (hr : Admissible cfg lanes K r) (hset : ∀ st x, (lanes st).IsSetAside x.1 → K st x)
    (hstored : ∀ st x, cfg.stored x ∈ noteHeld held [(r, Receiver.answer m r)] st → K st x)
    (hm : ∀ st, ∀ x ∈ (lanes st).log.entries, cfg.rises st x.2 → x.1 ≤ m ⟨cfg.child, st⟩ → K st x) :
    ∀ st, ∀ x ∈ (lanes st).log.entries, cfg.rises st x.2 →
      x.1 ≤ Receiver.marks m r ⟨cfg.child, st⟩ → K st x := by
  intro st x hx hrise hle
  obtain ⟨batch, n, hkey, hrecs, hv, hcarry⟩ := hr
  rcases lt_or_ge (m ⟨cfg.child, st⟩) x.1 with hlt | hge
  · -- the mark passed `x` on the way to some record of the batch
    have hpass : ¬ Receiver.marks m r ⟨cfg.child, st⟩ ≤ x.1 - 1 := by omega
    rw [marks_le_iff] at hpass
    push Not at hpass
    obtain ⟨-, hk, y, hy, hlty⟩ := hpass (by omega)
    obtain rfl : r.stream = st := by simpa using (hkey.symm.trans hk)
    rw [hrecs] at hy
    obtain ⟨b, hb, rfl⟩ := mem_map.mp hy
    rw [cfg.copy_childOffset] at hlty
    have hn : x.1 < n := by
      obtain ⟨c, hc, -⟩ := hcarry
      have := hc.lt b hb
      omega
    rcases hcarry.elim (hset _ x) hx hrise hn with hmem | hk
    · obtain ⟨c, hc, -⟩ := hcarry
      exact hstored _ x (stored_mem_noteHeld hrecs hv hc.increasing hmem (hkey ▸ hlt))
    · exact hk
  · exact hm st x hx hrise hge

/-- The same for a group, one request after the other. -/
theorem marksAfter_kept {rs : List ReplRequest}
    (hrs : ∀ r ∈ rs, Admissible cfg lanes K r) (hset : ∀ st x, (lanes st).IsSetAside x.1 → K st x)
    (hstored : ∀ st x, cfg.stored x ∈ noteHeld held (rs.zip (Receiver.answers m rs)) st → K st x)
    (hm : ∀ st, ∀ x ∈ (lanes st).log.entries, cfg.rises st x.2 → x.1 ≤ m ⟨cfg.child, st⟩ → K st x) :
    ∀ st, ∀ x ∈ (lanes st).log.entries, cfg.rises st x.2 →
      x.1 ≤ marksAfter m rs ⟨cfg.child, st⟩ → K st x := by
  induction rs generalizing m held with
  | nil => exact hm
  | cons r rs ih =>
    have hfirst : ∀ st x, cfg.stored x ∈ noteHeld held [(r, Receiver.answer m r)] st → K st x := by
      intro st x hx
      refine hstored st x ?_
      show cfg.stored x ∈ noteHeld (noteHeld held [(r, _)]) _ st
      exact mem_noteHeld hx
    exact ih (fun r' hr' ↦ hrs r' (mem_cons_of_mem _ hr')) hstored
      (marks_kept (hrs r mem_cons_self) hset hfirst hm)

/-- What a group commit does: it takes a group off the queue, and leaves the marks and the records
that its requests leave one after the other. -/
structure Commits (cfg : Config) (p p' : Parent) (group : List Pending)
    (answers : List (ℕ × PushAnswer)) : Prop where
  queue : group ++ p'.queue = p.queue
  mark : ∀ st, p'.mark cfg st =
    Receiver.marksAfter p.store.durableHWM (group.map Pending.req) ⟨cfg.child, st⟩
  held : p'.held = noteHeld p.held ((group.map Pending.req).zip
    (Receiver.answers p.store.durableHWM (group.map Pending.req)))
  childStore : p'.childStore = p.childStore
  answers : ∀ id a, (id, a) ∈ answers → ∃ w ∈ group, w.id = id

theorem commits_commit (cfg : Config) (p : Parent) :
    Commits cfg p (p.commit cfg).2 (takeGroup (fun w : Pending ↦ w.req.recs.length) p.queue).1
      (p.commit cfg).1 := by
  obtain ⟨hans, hmarks⟩ := commitReplicated_ok cfg.codec p.store
    ((takeGroup (fun w : Pending ↦ w.req.recs.length) p.queue).1.map Pending.req)
  refine ⟨takeGroup_append _ _, fun st ↦ ?_, ?_, rfl, fun id a hmem ↦ ?_⟩
  · rw [← hmarks]
    rfl
  · rw [← hans]
    rfl
  · obtain ⟨w, hw, heq⟩ := mem_map.mp (of_mem_zip hmem).1
    exact ⟨w, hw, heq⟩

/-- **The group commit** moves the marks only past what is accounted for. -/
theorem Inv.commit (h : Inv cfg s) (hm : ParentMoved s t answers) {group : List Pending}
    (hcom : Commits cfg s.sys.parent t.parent group answers) : Inv cfg (s.advance cfg t) := by
  have hcleared : (s.advance cfg t).cleared = s.cleared := State.advance_cleared hcom.childStore
  have hkept : ∀ {st x}, s.Kept cfg st x → (s.advance cfg t).Kept cfg st x := fun hk ↦
    hk.advance (by rw [hm.child]; exact fun _ ho ↦ ho)
  have hgroup : ∀ w ∈ group, w ∈ s.sys.parent.queue := fun w hw ↦
    hcom.queue ▸ mem_append_left _ hw
  -- every request of the group is one the child answers for
  have hreqs : ∀ w ∈ group, ∃ req, s.sys.pushes[w.id]? = some req ∧ Queued cfg w req ∧
      (s.cleared ∨ req.env.store = s.last.id ∨ ∀ st, s.last.mark st = 0) ∧
      ∃ n, Carries cfg w.req.stream (s.sys.child.lanes w.req.stream)
        ((s.advance cfg t).Kept cfg w.req.stream) req.batch n := by
    intro w hw
    obtain ⟨req, hreq, hq, hown⟩ := h.queue w (hgroup w hw)
    obtain ⟨n, hn⟩ := h.push req (mem_of_getElem? hreq)
    refine ⟨req, hreq, hq, hown, n, ?_⟩
    rw [hq.stream]
    exact hn.mono fun _ ↦ hkept
  have hoff : ∀ r ∈ group.map Pending.req, ∀ y ∈ r.recs,
      y.childOffset < (s.sys.child.lanes r.stream).log.next := by
    intro r hr y hy
    obtain ⟨w, hw, rfl⟩ := mem_map.mp hr
    obtain ⟨req, -, hq, -, n, hn⟩ := hreqs w hw
    rw [hq.recs] at hy
    obtain ⟨b, hb, rfl⟩ := mem_map.mp hy
    rw [cfg.copy_childOffset]
    exact hn.lt_next hb
  refine h.parentMoved hm ?_ ⟨?_, ?_, h.onRecord.last_unmarked⟩ ?_ ?_ ?_ ?_
  · rw [hcom.childStore]
    exact fun id hid ↦ (h.ids.onRecord_lt id hid).trans_le hm.fresh
  · rw [hcleared]
    show s.cleared = false → t.parent.childStore = _ ∨ _
    rw [hcom.childStore]
    exact h.onRecord.record
  · intro hnone
    have hnone : t.parent.childStore = none := hnone
    obtain ⟨hempty, hzero⟩ := h.onRecord.unmarked (hcom.childStore ▸ hnone)
    have happ := hcom.queue
    rw [hempty, append_eq_nil_iff] at happ
    refine ⟨happ.2, fun st ↦ ?_⟩
    show t.parent.mark cfg st = 0
    rw [hcom.mark, happ.1]
    exact hzero st
  · intro w hw
    rw [hcleared]
    exact h.queue w (hcom.queue ▸ mem_append_right _ hw)
  · rw [hcleared]
    intro st x hx hr hle
    rw [hcom.mark] at hle
    -- stored, set aside, or below the mark of the restore
    let K st (x : ℕ × RecEnc) := (s.advance cfg t).Kept cfg st x ∨
      s.cleared = false ∧ x.1 ≤ s.last.mark st
    have hadm : ∀ r ∈ group.map Pending.req, Admissible cfg s.sys.child.lanes K r := by
      intro r hr
      obtain ⟨w, hw, rfl⟩ := mem_map.mp hr
      obtain ⟨req, -, hq, -, n, hn⟩ := hreqs w hw
      exact ⟨req.batch, n, by rw [ReplRequest.key, hq.child], hq.recs, hq.valid,
        hn.mono fun _ ↦ .inl⟩
    have hset : ∀ st x, (s.sys.child.lanes st).IsSetAside x.1 → K st x := by
      intro st x hside
      refine .inl (.inr (.inr ?_))
      show (t.child.lanes st).IsSetAside x.1
      rw [hm.child]
      exact hside
    have hstored : ∀ st x, cfg.stored x ∈ noteHeld s.sys.parent.held ((group.map Pending.req).zip
        (Receiver.answers s.sys.parent.store.durableHWM (group.map Pending.req))) st → K st x := by
      intro st x hmem
      rw [← hcom.held] at hmem
      exact .inl (.inr (.inl (mem_union_iff.mpr (.inr hmem))))
    have hold : ∀ st, ∀ x ∈ (s.sys.child.lanes st).log.entries, cfg.rises st x.2 →
        x.1 ≤ s.sys.parent.store.durableHWM ⟨cfg.child, st⟩ → K st x := fun st x hx hr hle ↦
      (h.marks st x hx hr hle).imp_left hkept
    exact marksAfter_kept hadm hset hstored hold st x hx hr hle
  · intro st
    rw [hcleared, hcom.mark]
    have hmine : ∀ q ∈ group.map Pending.req, q.valid → q.key = ⟨cfg.child, st⟩ → ∀ y ∈ q.recs,
        y.childOffset < (s.sys.child.lanes st).log.next := by
      intro q hq _ hkey y hy
      obtain rfl : q.stream = st := congrArg HWMKey.stream hkey
      exact hoff q hq y hy
    rcases lt_or_ge (s.sys.parent.mark cfg st) (s.sys.child.lanes st).log.next with hlt | hge
    · exact .inl (marksAfter_lt_iff.mpr ⟨hlt, hmine⟩)
    · -- nothing of the group lies above a mark the stream has not reached
      obtain ⟨hc, hlast⟩ := (h.mark_lt st).resolve_left (not_lt.mpr hge)
      refine .inr ⟨hc, marksAfter_le_iff.mpr ⟨hlast, fun q hq hv hkey y hy ↦ ?_⟩⟩
      exact ((hmine q hq hv hkey y hy).le.trans hge).trans hlast
  · intro id hwm hmem
    obtain ⟨w, hw, rfl⟩ := hcom.answers id _ hmem
    obtain ⟨req, hreq, hq, hown, -⟩ := hreqs w hw
    refine ⟨req, hreq, fun r hr ↦ ?_, hown⟩
    rw [hcom.mark]
    have hkey : w.req.key = ⟨cfg.child, req.env.stream⟩ := by
      rw [ReplRequest.key, hq.child, hq.stream]
    have hle := ((marksAfter_le_iff (m := s.sys.parent.store.durableHWM)).mp le_rfl).2
      w.req (mem_map_of_mem hw) hq.valid hkey (cfg.copy r) (hq.recs ▸ mem_map_of_mem hr)
    rwa [cfg.copy_childOffset] at hle

/-- A push that is let in is queued as the copy of its batch. -/
theorem Queued.of_convert {req : Request} {recs : List ReplRecord} {id n : ℕ} {l : Lane}
    {K : ℕ × RecEnc → Prop} (hup : isUplinkStream req.env.stream)
    (hc : Carries cfg req.env.stream l K req.batch n)
    (hrecs : cfg.convert req.env.stream 0 req.batch = .ok recs) :
    Queued cfg ⟨id, cfg.child, req.env.stream, dropUnreplicable req.env.stream recs⟩ req := by
  obtain ⟨b, hb, -⟩ := hc
  have had := @Admitted.of_convert cfg (fun _ ↦ l) (fun _ ↦ b) { req with base := b } recs n hup hb
    hrecs le_rfl
  exact ⟨rfl, rfl, had.recs_eq, had.valid⟩

theorem Inv.stepParent (h : Inv cfg s) {e : Uplink.Event} (he : e.isRestore = false)
    (hs : s.sys.stepParent cfg e = some t) : Inv cfg (s.advance cfg t) := by
  have hframe := fun recorded pos ↦ Parent.judged_frame cfg s.sys.parent s.sys.fresh recorded pos
  cases e with
  | arrivePush id gate =>
    obtain ⟨req, hreq, rfl⟩ := map_eq_some_iff.mp hs
    have hmem : req ∈ s.sys.pushes := mem_of_getElem? hreq
    rcases s.sys.parent.handleReplicate_cases cfg s.sys.fresh id gate req with
      ⟨a, ha, hok, hf⟩ | ⟨-, hup, -, recs, hrecs, heq⟩
    · refine h.sameMarks ⟨rfl, rfl, rfl, Nat.le_succ _, rfl⟩ hf.childStore (Parent.mark_congr hf.store)
        (fun w hw ↦ hf.queue ▸ hw) ?_
      rw [ha]
      intro i hwm hmem'
      obtain ⟨-, rfl⟩ : i = id ∧ PushAnswer.ok hwm = a := by simpa using hmem'
      exact hok hwm rfl
    · obtain ⟨n, hn⟩ := h.push req hmem
      rw [heq]
      refine h.adopted ⟨rfl, rfl, rfl, Nat.le_succ _, rfl⟩ (h.ids.push req hmem) rfl (fun _ ↦ rfl)
        (forall_mem_concat (fun w hw ↦ .inl (s.sys.parent.adopt_queue cfg req.env.store ▸ hw)) ?_)
        (by rintro _ _ ⟨⟩)
      exact .inr ⟨req, hreq, .of_convert hup hn hrecs, rfl⟩
  | commit =>
    simp only [Sys.stepParent] at hs
    split at hs <;> cases hs
    exact h.commit ⟨rfl, rfl, rfl, le_rfl, rfl⟩ (commits_commit cfg s.sys.parent)
  | arriveHello id defNext =>
    obtain ⟨req, hreq, hs⟩ := bind_eq_some_iff.mp hs
    have hmem : req ∈ s.sys.downs := mem_of_getElem? hreq
    split at hs <;> cases hs
    have hf := hframe req.parent req.position
    unfold Parent.handleHello
    dsimp only
    cases hid : req.position.store with
    | none => exact h.framed (Nat.le_succ _) hf.childStore hf.store fun w hw ↦ hf.queue ▸ hw
    | some id =>
      have hadopt := hf.adopt cfg id
      refine h.adopted ⟨rfl, rfl, rfl, Nat.le_succ _, (append_nil _).symm⟩
        (h.ids.down req hmem id hid) hadopt.childStore (Parent.mark_congr hadopt.store)
        (fun w hw ↦ .inl ?_) (by rintro _ _ ⟨⟩)
      rw [← s.sys.parent.adopt_queue cfg id, ← hadopt.queue]
      exact hw
  | arrivePoll id =>
    obtain ⟨req, -, hs⟩ := bind_eq_some_iff.mp hs
    split at hs <;> cases hs
    have hf := hframe req.parent req.position
    unfold Parent.handlePoll
    dsimp only
    split <;> exact h.framed (Nat.le_succ _) hf.childStore hf.store fun w hw ↦ hf.queue ▸ hw
  | answerPoll i next defNext =>
    obtain ⟨w, -, hs⟩ := bind_eq_some_iff.mp hs
    split at hs <;> cases hs
    exact h.framed le_rfl rfl rfl fun _ hw ↦ hw
  | recheckPoll i =>
    obtain ⟨w, -, rfl⟩ := map_eq_some_iff.mp hs
    have hf := hframe w.req.parent w.req.position
    dsimp only
    split
    · exact h.framed (Nat.le_succ _) hf.childStore hf.store fun w hw ↦ hf.queue ▸ hw
    · exact h.framed le_rfl rfl rfl fun _ hw ↦ hw
  | appendParent st r =>
    simp only [Sys.stepParent] at hs
    split at hs <;> cases hs
    refine h.sameMarks ⟨rfl, rfl, rfl, le_rfl, (append_nil _).symm⟩ rfl (fun st ↦ ?_)
      (fun _ hw ↦ hw) (by rintro _ _ ⟨⟩)
    unfold Parent.mark
    rw [Store.append_durableHWM]
  | crashParent =>
    cases hs
    exact h.sameMarks ⟨rfl, rfl, rfl, le_rfl, (append_nil _).symm⟩ rfl (fun _ ↦ rfl)
      (by rintro _ ⟨⟩) (by rintro _ _ ⟨⟩)
  | snapshot =>
    cases hs
    exact h.framed le_rfl rfl rfl fun _ hw ↦ hw
  | restore i => cases he
  | _ => cases hs

end Parent

/-! ### Every run -/

/-- A restore finds nothing on the link, and everything its copy retains lies behind it. -/
theorem Inv.restored (h : Inv cfg s) {c : Child} (hc : c ∈ s.copies)
    (hq : s.sys.parent.queue = []) : Inv cfg (s.restored cfg c) where
  ids := ⟨h.ids.copies c hc, h.ids.onRecord_lt, h.ids.onRecord_lt, h.ids.copies,
    ⟨h.ids.copies c hc, .inl rfl⟩, by rintro ⟨⟩, by rintro _ ⟨⟩, by rintro _ ⟨⟩⟩
  onRecord := ⟨fun _ ↦ .inl rfl, h.onRecord.unmarked, fun hnone ↦ (h.onRecord.unmarked hnone).2⟩
  child := by
    refine ⟨fun st ↦ ⟨(h.copies c hc st).1, (h.copies c hc st).2, fun x hx _ _ ↦ .inl ?_⟩, trivial⟩
    exact ((c.lanes st).log.bounds x hx).2
  push := by rintro _ ⟨⟩
  queue w hw := by
    have hw : w ∈ s.sys.parent.queue := hw
    rw [hq] at hw
    cases hw
  marks st x hx _ _ := .inl (.inl ((c.lanes st).log.bounds x hx).2)
  mark_lt st := .inr ⟨rfl, le_rfl⟩
  answer := by rintro _ _ _ ⟨⟩
  early _ := rfl
  copies := h.copies

theorem Inv.copied (h : Inv cfg s) : Inv cfg { s with copies := s.copies ++ [s.sys.child] } :=
  { h with
    ids :=
      { h.ids with
        copies := fun c hc ↦ (mem_append.mp hc).elim (h.ids.copies c) fun hc ↦ by
          rw [mem_singleton.mp hc]
          exact h.ids.child.1 }
    onRecord := { h.onRecord with }
    copies c hc := (mem_append.mp hc).elim (h.copies c) fun hc st ↦ by
      rw [mem_singleton.mp hc]
      exact ⟨(h.child.lane st).hist, (h.child.lane st).pos_le⟩ }

theorem Inv.step (h : Inv cfg s) {e : Event} (hC : RegressionSeen s e)
    (hs : (restoreSystem cfg).step s e = some s') : Inv cfg s' := by
  cases e with
  | run e =>
    change (if e.isRestore then none else ((system cfg).step s.sys e).map (s.advance cfg)) = some s'
      at hs
    split at hs
    · cases hs
    · rename_i he
      obtain ⟨t, ht, rfl⟩ := map_eq_some_iff.mp hs
      rcases system_step_cases ht with ht | ht | ht
      · exact h.retain ht
      · exact h.stepChild hC ht
      · exact h.stepParent (by simpa using he) ht
  | copy =>
    cases hs
    exact h.copied
  | restore i =>
    change (if s.sys.parent.queue = [] then s.copies[i]?.map (s.restored cfg) else none) = some s'
      at hs
    split at hs
    · rename_i hq
      obtain ⟨c, hc, rfl⟩ := map_eq_some_iff.mp hs
      exact h.restored (mem_of_getElem? hc) hq
    · cases hs

/-- **A restored child loses nothing it writes after the restore**, in every state of every run in
which no answer hides from it that its store regressed. -/
theorem restored_child_delivers (cfg : Config) {s : State}
    (h : (restoreSystem cfg).Reach RegressionSeen s) : Delivered cfg s :=
  (h.invariant (Inv.start cfg) fun _ _ _ hi hC hs ↦ hi.step hC hs).delivered

/-! ### Runs with a restore of the child -/

/-- Another change of the alarm's state, and an audit record. -/
def alarmCleared : RecEnc := { alarmChange with payload := [0], ts := 5 }

def auditEvent : RecEnc :=
  { alarmChange with topic := ["colca", "v1", "_AuditEvent", "edge", "login"] }

/-- A record is appended and its lane pushed as request `id`, which is stored and confirmed by
answer `k`. -/
def pushed (st : Stream) (e : RecEnc) (id k : ℕ) : List Event :=
  [.append st e, .startPush st, .readCursor, .readPage, .sendBatch, .arrivePush id .pass, .commit,
    .receivePush k 0].map .run

/-- The copy is from before both alarms. The restored child pushes an alarm at the first offset,
which the parent drops; the answer shows the regression, and the record rises in the next push. -/
def seenRun : List Event :=
  [.copy] ++ pushed .alarms alarmChange 0 0 ++ pushed .alarms alarmChange 1 1 ++ [.restore 0] ++
    pushed .alarms alarmCleared 0 0 ++ pushed .alarms alarmCleared 1 1

/-- The copy is from before an alarm and an audit record. The restored child writes two alarms and
pushes them before it has said hello: the parent drops the first as the alarm it stores. The audit
stream still ends below its mark. -/
def grownRun : List Event :=
  [.copy] ++ pushed .alarms alarmChange 0 0 ++ pushed .audit auditEvent 1 1 ++ [.restore 0] ++
    [.run (.append .alarms alarmCleared)] ++ pushed .alarms alarmChange 0 0

/-- The run whose first push shows the regression: both records reach the parent. -/
theorem delivered_after_seen_restore :
    ∃ s, (restoreSystem (edge 1000)).Reach RegressionSeen s ∧ s.shown = some true ∧
      s.stored .alarms =
        [(edge 1000).stored (1, alarmCleared), (edge 1000).stored (2, alarmCleared)] ∧
      Delivered (edge 1000) s := by
  obtain ⟨s, hs, hp⟩ := (restoreSystem (edge 1000)).exists_reach RegressionSeen seenRun
    (fun s ↦ s.shown = some true ∧ s.stored .alarms =
      [(edge 1000).stored (1, alarmCleared), (edge 1000).stored (2, alarmCleared)])
  exact ⟨s, hs, hp.1, hp.2, restored_child_delivers _ hs⟩

/-- A stream that has grown past the parent's mark loses records although another stream shows the
regression: the uplink loop does not wait for the hello that compares all of them. -/
theorem grown_stream_loses :
    ¬ ∀ (cfg : Config) (s : State), (restoreSystem cfg).Reachable s → s.shown = some true →
      Delivered cfg s := by
  intro h
  -- the regression can be seen at the first request, and the cursor has passed an alarm written since the
  -- restore that the parent does not store
  obtain ⟨s, hs, hshown, hmem, hhead, hpos, hnot, hside⟩ :=
    (restoreSystem (edge 1000)).exists_reachable grownRun fun s ↦ s.shown = some true ∧
      (1, alarmCleared) ∈ (s.sys.child.lanes .alarms).log.entries ∧ s.last.head .alarms ≤ 1 ∧
      1 < (s.sys.child.lanes .alarms).pos ∧ (edge 1000).stored (1, alarmCleared) ∉ s.stored .alarms ∧
      (s.sys.child.lanes .alarms).setAside = []
  rcases h _ s hs hshown .alarms _ hmem hhead (by decide +kernel) hpos with hst | ⟨x, hx, -⟩
  · exact hnot hst
  · rw [hside] at hx
    cases hx

end Colca.ChildRestore
