import Colca.Repl.Downlink

/-!
# Downlink commands are stored once, in order

In every run the commands a child stores have increasing offsets at the parent, and the cursor that is
written with a command is past it, so none is stored twice. The cursor passes a command for the child only
when it was stored or refused, or when the child recognised it as one it holds; or the parent withdrew it
before, by retention or by refusing to forward it (`storedOnce_of_reachable`). What is noted as stored is in
the child's streams (`Child.InStreams`).

The invariant follows the page in hand: up to where it ends, every command for the child that the parent
still has is in the rest of the page, or settled (`Rest`).
-/

namespace Colca.Downlink

open Uns List Function

variable {K : Type}

/-! ### What may become of a command -/

/-- The child was handed a command that it has held before: one with the same key is in its history, and
the command names itself, or is handed a second time. -/
def Recognised (cfg : Config K) (s : State K) (o : ℕ) : Prop :=
  ∃ a ∈ s.answers, ∃ x ∈ a.records, x.1 = o ∧
    (cfg.hasCorrelationID x.2.payload ∨ x.1 < cfg.rehandedBelow) ∧
    ∃ y ∈ s.child.history, cfg.key y = cfg.key x.2

/-- The parent withdrew the command: retention removed it, or it refused to forward it. -/
def Withdrawn (s : State K) (o : ℕ) : Prop := o < s.parent.lwm ∨ o ∈ s.withheld

/-- The child stored the command at this offset of the parent. -/
def HasStored (s : State K) (o : ℕ) : Prop := ∃ e ∈ s.child.stored, e.off = o

/-- What may become of a command for the child. -/
def Settled (cfg : Config K) (s : State K) (o : ℕ) : Prop :=
  HasStored s o ∨ o ∈ s.child.refused ∨ Recognised cfg s o ∨ Withdrawn s o

/-- Nothing that was settled is taken back, and nothing that was said is forgotten. -/
structure Extends (s s' : State K) : Prop where
  parent : ParentMoves s.parent s'.parent
  withheld : ∀ o ∈ s.withheld, o ∈ s'.withheld
  requests : ∀ (id : ℕ) (r : Request), s.requests[id]? = some r → s'.requests[id]? = some r
  answers : ∀ a ∈ s.answers, a ∈ s'.answers
  stored : ∀ e ∈ s.child.stored, e ∈ s'.child.stored
  refused : ∀ o ∈ s.child.refused, o ∈ s'.child.refused
  history : ∀ e ∈ s.child.history, e ∈ s'.child.history

/-- A step that changes none of this. -/
theorem Extends.of_eq {s s' : State K} (hp : s'.parent = s.parent) (hw : s'.withheld = s.withheld)
    (hr : s'.requests = s.requests) (ha : s'.answers = s.answers)
    (hs : s'.child.stored = s.child.stored) (href : s'.child.refused = s.child.refused)
    (hh : s'.child.history = s.child.history) : Extends s s' :=
  ⟨hp ▸ .refl _, hw ▸ fun _ h ↦ h, hr ▸ fun _ _ h ↦ h, ha ▸ fun _ h ↦ h, hs ▸ fun _ h ↦ h,
    href ▸ fun _ h ↦ h, hh ▸ fun _ h ↦ h⟩

theorem Settled.extends {cfg : Config K} {s s' : State K} {o : ℕ} (h : Settled cfg s o)
    (he : Extends s s') : Settled cfg s' o := by
  rcases h with ⟨e, hs, ho⟩ | hr | ⟨a, ha, x, hx, ho, hn, y, hy, hk⟩ | hw
  · exact .inl ⟨e, he.stored e hs, ho⟩
  · exact .inr (.inl (he.refused o hr))
  · exact .inr (.inr (.inl ⟨a, he.answers a ha, x, hx, ho, hn, y, he.history y hy, hk⟩))
  · exact .inr (.inr (.inr (hw.imp (fun h ↦ h.trans_le he.parent.lwm_le) (he.withheld o))))

/-! ### The invariant -/

variable (cfg : Config K)

/-- The rest of a page: up to where the page ends, every command for the child is in it or settled. -/
structure Rest (s : State K) (rest : List (ℕ × RecEnc)) (next : ℕ) : Prop where
  increasing : rest.Pairwise (·.1 < ·.1)
  bounds : ∀ y ∈ rest, s.child.cursor ≤ y.1 ∧ y.1 < next
  handed : ∀ y ∈ rest, ∃ a ∈ s.answers, y ∈ a.records
  next_le : next ≤ s.parent.next
  covers : ∀ x ∈ s.parent.entries, forChild cfg.parentClass cfg.mount x.2.topic →
    s.child.cursor ≤ x.1 → x.1 < next → (∃ y ∈ rest, y.1 = x.1) ∨ Settled cfg s x.1

/-- What the child's loop knows. -/
def PhaseInv (s : State K) : Phase → Prop
  | .idle => True
  | .asked id after page => after = s.child.cursor ∧
      (∃ r, s.requests[id]? = some r ∧ r.after = after) ∧
      ∀ a ∈ page, a ∈ s.answers ∧ Page cfg.parentClass cfg.mount s.parent s.withheld s.child.cursor a
  | .storing _ a => a ∈ s.answers ∧ Page cfg.parentClass cfg.mount s.parent s.withheld s.child.cursor a
  | .publishing _ _ rest next => Rest cfg s rest next
  | .oneByOne _ rest next => Rest cfg s rest next
  | .acking _ ackTo => Rest cfg s [] ackTo

/-- The command is at this place in the child's streams, unless retention has removed it there. -/
def Child.InPlace (c : Child K) (e : Stored) (p : Stream × ℕ) : Prop :=
  p.2 < (c.streams p.1).lwm ∨ (p.2, Child.localRecord p.2 e.command) ∈ (c.streams p.1).entries

/-- What is noted as stored is in the child's streams, in that order and each at a place of its own. -/
def Child.InStreams (c : Child K) : Prop :=
  ∃ placed : List (Stored × Stream × ℕ), placed.map Prod.fst = c.stored ∧
    (∀ x ∈ placed, c.InPlace x.1 x.2) ∧ placed.Pairwise fun x y ↦ x.2.1 = y.2.1 → x.2.2 < y.2.2

/-- What the child remembers it has held, and holds. -/
structure MemoryInv (c : Child K) : Prop where
  seen : ∀ x ∈ c.memory.seen, ∃ y ∈ c.history, cfg.key y = x.1
  commands : ∀ x ∈ (c.streams .commands).entries, ∃ y ∈ c.history, cfg.key y = cfg.key x.2
  pending : ∀ e ∈ c.pending, e.command ∈ c.history
  placed : c.InStreams

/-- The loop is between the commit of a write and its publication. -/
def Phase.isPublishing : Phase → Bool
  | .publishing .. => true
  | _ => false

structure Inv (s : State K) : Prop where
  seat : ∀ b ∈ s.child.seat, 1 ≤ b ∧ b ≤ s.child.cursor
  unseated : s.child.seat = none → s.child.cursor = 1 ∧ s.phase = .idle
  cursor_le : s.child.cursor ≤ s.parent.next
  requests : ∀ r ∈ s.requests, r.after ≤ s.child.cursor ∧ ∃ b ∈ s.child.seat, b ≤ r.after
  polls : ∀ p ∈ s.polls, ∃ r, s.requests[p.id]? = some r ∧
    p.mount = cfg.mount ∧ Crossed cfg.parentClass s.parent r.after p
  answers : ∀ a ∈ s.answers, ∃ r, s.requests[a.id]? = some r ∧ Page cfg.parentClass cfg.mount s.parent s.withheld r.after a
  phase : PhaseInv cfg s s.phase
  passed : ∀ x ∈ s.parent.entries, forChild cfg.parentClass cfg.mount x.2.topic →
    ∀ b ∈ s.child.seat, b ≤ x.1 → x.1 < s.child.cursor → Settled cfg s x.1
  increasing : (s.child.stored.map Stored.off).Pairwise (· < ·)
  upTo : ∀ e ∈ s.child.stored, e.off < e.upTo ∧ e.upTo ≤ s.child.cursor
  handed : ∀ e ∈ s.child.stored, ∃ a ∈ s.answers, (e.off, e.command) ∈ a.records
  memory : MemoryInv cfg s.child
  together : ∀ e ∈ s.child.shown, ∀ e' ∈ s.child.pending, e.upTo ≠ e'.upTo
  pending : s.phase.isPublishing = false → s.child.pending = []

variable {cfg} {s s' : State K}

variable {a : Answer}

theorem Page.extends {q : ℕ} (h : Page cfg.parentClass cfg.mount s.parent s.withheld q a)
    (he : Extends s s') :
    Page cfg.parentClass cfg.mount s'.parent s'.withheld q a := h.moves he.parent he.withheld

theorem Rest.extends {rest : List (ℕ × RecEnc)} {next : ℕ} (h : Rest cfg s rest next)
    (he : Extends s s') (hcur : s'.child.cursor = s.child.cursor) : Rest cfg s' rest next where
  increasing := h.increasing
  bounds := hcur ▸ h.bounds
  handed y hy := by
    obtain ⟨a, ha, hya⟩ := h.handed y hy
    exact ⟨a, he.answers a ha, hya⟩
  next_le := h.next_le.trans he.parent.next_le
  covers x hx hfor hle hlt :=
    (h.covers x (he.parent.mem_of_lt hx (hlt.trans_le h.next_le)) hfor (hcur ▸ hle) hlt).imp_right
      fun hs ↦ hs.extends he

variable {ph : Phase}

theorem PhaseInv.extends (h : PhaseInv cfg s ph) (he : Extends s s')
    (hcur : s'.child.cursor = s.child.cursor) : PhaseInv cfg s' ph := by
  cases ph with
  | idle => trivial
  | asked id after page =>
    obtain ⟨rfl, ⟨r, hr, hafter⟩, hpage⟩ := h
    refine ⟨hcur.symm, ⟨r, he.requests id r hr, hafter⟩, fun a ha ↦ ?_⟩
    exact ⟨he.answers a (hpage a ha).1, hcur ▸ (hpage a ha).2.extends he⟩
  | storing after a => exact ⟨he.answers a h.1, hcur ▸ h.2.extends he⟩
  | publishing | oneByOne | acking => exact Rest.extends h he hcur

/-- **A step that does not move the cursor**: it adds polls and answers that are as they should be, and
says what the loop does next. -/
structure Still (cfg : Config K) (s s' : State K) : Prop extends Extends s s' where
  cursor : s'.child.cursor = s.child.cursor
  seat : s'.child.seat = s.child.seat
  same : s'.child.stored = s.child.stored
  unseated : s.child.seat = none → s'.phase = .idle
  newRequests : ∀ r ∈ s'.requests, r ∈ s.requests ∨ r.after = s.child.cursor ∧ s.child.seat.isSome
  newPolls : ∀ p ∈ s'.polls, p ∈ s.polls ∨
    ∃ r, s'.requests[p.id]? = some r ∧ p.mount = cfg.mount ∧
      Crossed cfg.parentClass s'.parent r.after p
  newAnswers : ∀ a ∈ s'.answers, a ∈ s.answers ∨
    ∃ r, s'.requests[a.id]? = some r ∧ Page cfg.parentClass cfg.mount s'.parent s'.withheld r.after a
  phase : PhaseInv cfg s' s'.phase
  memory : MemoryInv cfg s'.child
  together : ∀ e ∈ s'.child.shown, ∀ e' ∈ s'.child.pending, e.upTo ≠ e'.upTo
  pending : s'.phase.isPublishing = false → s'.child.pending = []

section

variable (h : Inv cfg s)

include h

theorem Inv.still (hs : Still cfg s s') : Inv cfg s' :=
  { hs with
    seat := hs.seat ▸ hs.cursor ▸ h.seat
    unseated hn := ⟨hs.cursor ▸ (h.unseated (hs.seat ▸ hn)).1, hs.unseated (hs.seat ▸ hn)⟩
    cursor_le := hs.cursor ▸ h.cursor_le.trans hs.parent.next_le
    requests r hr := by
      rw [hs.seat, hs.cursor]
      rcases hs.newRequests r hr with hr | ⟨hafter, hseat⟩
      · exact h.requests r hr
      · obtain ⟨b, hb⟩ := Option.isSome_iff_exists.mp hseat
        exact ⟨hafter.le, b, hb, hafter ▸ (h.seat b hb).2⟩
    polls p hp := by
      refine (hs.newPolls p hp).elim (fun hp ↦ ?_) id
      obtain ⟨r, hr, hm, hc⟩ := h.polls p hp
      exact ⟨r, hs.requests _ r hr, hm, hc.moves hs.parent⟩
    answers a ha := by
      refine (hs.newAnswers a ha).elim (fun ha ↦ ?_) id
      obtain ⟨r, hr, hpage⟩ := h.answers a ha
      exact ⟨r, hs.requests _ r hr, hpage.extends hs.toExtends⟩
    passed x hx hfor b hb hle hlt := by
      rw [hs.cursor] at hlt
      rw [hs.seat] at hb
      have hold := hs.parent.mem_of_lt hx (hlt.trans_le h.cursor_le)
      exact (h.passed x hold hfor b hb hle hlt).extends hs.toExtends
    increasing := hs.same ▸ h.increasing
    upTo := hs.same ▸ hs.cursor ▸ h.upTo
    handed e he := by
      obtain ⟨a, ha, hea⟩ := h.handed e (hs.same ▸ he)
      exact ⟨a, hs.answers a ha, hea⟩ }

/-- A step of which the child's loop knows nothing. -/
theorem Inv.aside (he : Extends s s') (hchild : s'.child = s.child)
    (hphase : s'.phase = s.phase) (hreq : s'.requests = s.requests) (hpolls : ∀ p ∈ s'.polls, p ∈ s.polls ∨
      ∃ r, s'.requests[p.id]? = some r ∧ p.mount = cfg.mount ∧
      Crossed cfg.parentClass s'.parent r.after p)
    (hanswers : ∀ a ∈ s'.answers, a ∈ s.answers ∨
      ∃ r, s'.requests[a.id]? = some r ∧ Page cfg.parentClass cfg.mount s'.parent s'.withheld r.after a) : Inv cfg s' :=
  h.still { he with
    cursor := by rw [hchild]
    seat := by rw [hchild]
    same := by rw [hchild]
    unseated := fun hn ↦ hphase ▸ (h.unseated hn).2
    newRequests := fun r hr ↦ .inl (hreq ▸ hr)
    newPolls := hpolls
    newAnswers := hanswers
    phase := hphase ▸ h.phase.extends he (by rw [hchild])
    memory := hchild ▸ h.memory
    together := hchild ▸ h.together
    pending := hchild ▸ hphase ▸ h.pending }

/-! ### The parent -/

theorem Inv.moves {l' : OffsetLog RecEnc} (hm : ParentMoves s.parent l') :
    Inv cfg { s with parent := l' } :=
  h.aside ⟨hm, fun _ h ↦ h, fun _ _ h ↦ h, fun _ h ↦ h, fun _ h ↦ h, fun _ h ↦ h, fun _ h ↦ h⟩
    rfl rfl rfl (fun _ ↦ .inl) fun _ ↦ .inl

theorem Inv.handle {id : ℕ} {r : Request} (hr : s.requests[id]? = some r) :
    Inv cfg (s.handle cfg id r) := by
  obtain ⟨hcur, b, hb, hle⟩ := h.requests r (mem_of_getElem? hr)
  obtain ⟨hone, -⟩ := h.seat b hb
  refine h.aside (.of_eq rfl rfl rfl rfl rfl rfl rfl) rfl rfl rfl
    (forall_mem_concat (fun _ ↦ .inl) (.inr ⟨r, hr, rfl, ?_⟩)) fun _ ↦ .inl
  exact crossed_arrive (by omega) (hcur.trans h.cursor_le)

theorem Inv.wait {i : ℕ} {p : Poll} (hp : s.polls[i]? = some p)
    (hwait : p.mayWait cfg.parentClass s.parent) :
    Inv cfg { s with polls := s.polls.set i (p.wait cfg.parentClass s.parent) } := by
  refine h.aside (.of_eq rfl rfl rfl rfl rfl rfl rfl) rfl rfl rfl (fun p' hp' ↦ ?_) fun _ ↦ .inl
  rcases mem_or_eq_of_mem_set hp' with hp' | rfl
  · exact .inl hp'
  · obtain ⟨r, hr, hm, hc⟩ := h.polls p (mem_of_getElem? hp)
    exact .inr ⟨r, hr, hm, hc.wait hwait⟩

theorem Inv.answer {i : ℕ} {p : Poll} (hp : s.polls[i]? = some p) (refused : List ℕ) :
    Inv cfg { s with
      polls := s.polls.eraseIdx i
      withheld := s.withheld ++
        ((p.read cfg.parentClass s.parent).1.filter fun x ↦ refused.contains x.1).map Prod.fst
      answers := s.answers ++
        [p.answer cfg.parentClass s.parent fun x ↦ refused.contains x.1] } := by
  refine h.aside ⟨.refl _, fun _ h ↦ mem_append_left _ h, fun _ _ h ↦ h,
    fun _ h ↦ mem_append_left _ h, fun _ h ↦ h, fun _ h ↦ h, fun _ h ↦ h⟩ rfl rfl rfl
    (fun p' hp' ↦ .inl (mem_of_mem_eraseIdx hp')) (forall_mem_concat (fun _ ↦ .inl) ?_)
  obtain ⟨r, hr, hm, hc⟩ := h.polls p (mem_of_getElem? hp)
  rw [← hm]
  refine .inr ⟨r, hr, hc.answer _ fun x hx hrx ↦ mem_append_right _ ?_⟩
  exact mem_map_of_mem (mem_filter.mpr ⟨hx, hrx⟩)

/-! ### The child's loop -/

/-- The loop goes on to another phase. -/
theorem Inv.loop (hph : PhaseInv cfg s ph)
    (hseat : s.child.seat = none → ph = .idle) (hnp : s.phase.isPublishing = false) :
    Inv cfg { s with phase := ph } := by
  have he : Extends s { s with phase := ph } := .of_eq rfl rfl rfl rfl rfl rfl rfl
  exact h.still { he with
    cursor := rfl
    seat := rfl
    same := rfl
    unseated := hseat
    newRequests := fun _ ↦ .inl
    newPolls := fun _ ↦ .inl
    newAnswers := fun _ ↦ .inl
    phase := hph.extends he rfl
    memory := h.memory
    together := h.together
    pending := fun _ ↦ h.pending hnp }

/-- A loop that is under way has been seated. -/
theorem Inv.seated (hne : s.phase ≠ .idle) :
    s.child.seat = none → ph = .idle := fun hn ↦ absurd (h.unseated hn).2 hne

theorem Inv.send (hseat : s.child.seat.isSome) (max : ℕ) (confirm : Bool)
    {page : Option Answer} (hnp : s.phase.isPublishing = false)
    (hpage : ∀ a ∈ page, a ∈ s.answers ∧ Page cfg.parentClass cfg.mount s.parent s.withheld s.child.cursor a) :
    Inv cfg (s.send s.child.cursor max confirm page) := by
  have he : Extends s (s.send s.child.cursor max confirm page) :=
    ⟨.refl _, fun _ h ↦ h, fun id r hr ↦
      getElem?_append_left (List.getElem?_eq_some_iff.mp hr).1 ▸ hr,
      fun _ h ↦ h, fun _ h ↦ h, fun _ h ↦ h, fun _ h ↦ h⟩
  exact h.still { he with
    cursor := rfl
    seat := rfl
    same := rfl
    unseated := fun hn ↦ by simp [hn] at hseat
    newRequests := forall_mem_concat (fun _ ↦ .inl) (.inr ⟨rfl, hseat⟩)
    newPolls := fun _ ↦ .inl
    newAnswers := fun _ ↦ .inl
    phase := ⟨rfl, ⟨_, getElem?_concat_length, rfl⟩, hpage⟩
    memory := h.memory
    together := h.together
    pending := fun _ ↦ h.pending hnp }

/-- The first handshake: nothing was asked before it. -/
theorem Inv.seatAt (hn : s.child.seat = none) {head : ℕ} (hone : 1 ≤ head) (hle : head ≤ s.parent.next) :
    Inv cfg { s with child := { s.child with cursor := head, seat := some head } } := by
  obtain ⟨hcur, hph⟩ := h.unseated hn
  have hreq : ∀ r ∈ s.requests, False := fun r hr ↦ by
    obtain ⟨-, b, hb, -⟩ := h.requests r hr
    rw [hn] at hb
    cases hb
  exact { h with
    seat := fun b hb ↦ by
      obtain rfl := Option.some.inj hb
      exact ⟨hone, le_rfl⟩
    unseated := fun h ↦ by cases h
    cursor_le := hle
    requests := fun r hr ↦ (hreq r hr).elim
    polls := fun p hp ↦ by
      obtain ⟨r, hr, -⟩ := h.polls p hp
      exact (hreq r (mem_of_getElem? hr)).elim
    answers := fun a ha ↦ by
      obtain ⟨r, hr, -⟩ := h.answers a ha
      exact (hreq r (mem_of_getElem? hr)).elim
    phase := by
      show PhaseInv cfg _ s.phase
      rw [hph]
      trivial
    passed := fun x _ _ b hb hle hlt ↦ by
      obtain rfl := Option.some.inj hb
      exact absurd hlt hle.not_gt
    upTo := fun e he ↦ ⟨(h.upTo e he).1, (hcur ▸ (h.upTo e he).2).trans hone⟩
    memory := { h.memory with } }

/-- The cursor moves past what is settled. -/
theorem Inv.ack {after ackTo : ℕ} (hph : s.phase = .acking after ackTo) {cursor : ℕ}
    (hcur : cursor = s.child.cursor ∨ cursor = max s.child.cursor ackTo) :
    Inv cfg { s with child := { s.child with cursor := cursor }, phase := .idle } := by
  have hrest : Rest cfg s [] ackTo := by
    have := h.phase
    rwa [hph] at this
  have hle : s.child.cursor ≤ cursor := by omega
  have he : Extends s { s with child := { s.child with cursor := cursor }, phase := .idle } :=
    .of_eq rfl rfl rfl rfl rfl rfl rfl
  have hseat : s.child.seat ≠ none := fun hn ↦ by
    have := (h.unseated hn).2
    rw [hph] at this
    cases this
  exact { h with
    seat := fun b hb ↦ (h.seat b hb).imp_right fun h ↦ h.trans hle
    unseated := fun hn ↦ absurd hn hseat
    cursor_le := by
      have := h.cursor_le
      have := hrest.next_le
      show cursor ≤ s.parent.next
      omega
    requests := fun r hr ↦ (h.requests r hr).imp_left fun h ↦ h.trans hle
    phase := trivial
    passed := fun x hx hfor b hb hbx hlt ↦ by
      replace hlt : x.1 < cursor := hlt
      rcases lt_or_ge x.1 s.child.cursor with hold | hnew
      · exact (h.passed x hx hfor b hb hbx hold).extends he
      · rcases hrest.covers x hx hfor hnew (by omega) with ⟨y, hy, -⟩ | hs
        · cases hy
        · exact hs.extends he
    upTo := fun e he ↦ (h.upTo e he).imp_right fun h ↦ h.trans hle
    memory := { h.memory with }
    pending := fun _ ↦ h.pending (by rw [hph]; rfl) }

end

/-! ### The memory -/

/-- What a fold ends with was there at the start, or came with one of the elements. -/
theorem exists_of_foldl {σ β : Type*} {p : σ → Prop} {q : β → Prop} {f : σ → β → σ}
    (hf : ∀ m y, p (f m y) → p m ∨ q y) {ys : List β} {m : σ} (h : p (ys.foldl f m)) :
    p m ∨ ∃ y ∈ ys, q y := by
  induction ys generalizing m with
  | nil => exact .inl h
  | cons y ys ih =>
    rcases ih h with h | ⟨z, hz, hq⟩
    · exact (hf m y h).imp_right fun hq ↦ ⟨y, mem_cons_self, hq⟩
    · exact .inr ⟨z, mem_cons_of_mem _ hz, hq⟩

variable {l : OffsetLog RecEnc} {x : ℕ × RecEnc}

/-- A log after a write: each record is at the offset that its place in the write gives it. -/
theorem mem_foldl_append {recs : List (ℕ × RecEnc)} :
    x ∈ (recs.foldl (fun l y ↦ l.append (Child.localRecord l.next y.2)) l).entries ↔
      x ∈ l.entries ∨ ∃ p ∈ recs.zipIdx l.next, x = (p.2, Child.localRecord p.2 p.1.2) := by
  induction recs generalizing l with
  | nil => simp
  | cons y ys ih =>
    rw [foldl_cons, ih, OffsetLog.append_entries, OffsetLog.append_next, mem_append,
      mem_singleton, zipIdx_cons]
    simp [or_assoc]

theorem moves_foldl_append (recs : List (ℕ × RecEnc)) (l : OffsetLog RecEnc) :
    ParentMoves l (recs.foldl (fun l y ↦ l.append (Child.localRecord l.next y.2)) l) := by
  induction recs generalizing l with
  | nil => exact .refl l
  | cons y ys ih => exact (parentMoves_append l _).trans (ih _)

variable {streams : Stream → OffsetLog RecEnc} {c : Child K} {p : Stream × ℕ} {e : Stored}

theorem mem_update_commands {stream : Stream} (hx : x ∈ (update streams stream l .commands).entries) :
    x ∈ (streams .commands).entries ∨ stream = .commands ∧ x ∈ l.entries := by
  rcases eq_or_ne Stream.commands stream with rfl | hne
  · exact .inr ⟨rfl, by simpa using hx⟩
  · exact .inl (by simpa [update_of_ne hne] using hx)

theorem moves_update {stream : Stream} (h : ParentMoves (streams stream) l) (st : Stream) :
    ParentMoves (streams st) (update streams stream l st) := by
  rcases eq_or_ne st stream with rfl | hne
  · rwa [update_self]
  · rw [update_of_ne hne]
    exact .refl _

theorem Child.InPlace.moves {c c' : Child K} (h : c.InPlace e p)
    (hm : ∀ st, ParentMoves (c.streams st) (c'.streams st)) : c'.InPlace e p :=
  h.elim (fun hlt ↦ .inl (hlt.trans_le (hm p.1).lwm_le)) ((hm p.1).kept _)

theorem Child.InPlace.lt_next (h : c.InPlace e p) : p.2 < (c.streams p.1).next :=
  h.elim (·.trans_le (c.streams p.1).lwm_le_next) fun hx ↦ ((c.streams p.1).bounds _ hx).2

theorem Child.InStreams.moves {c c' : Child K} (h : c.InStreams)
    (hm : ∀ st, ParentMoves (c.streams st) (c'.streams st)) (hs : c'.stored = c.stored) : c'.InStreams := by
  obtain ⟨placed, hfst, hin, hinc⟩ := h
  exact ⟨placed, hfst.trans hs.symm, fun x hx ↦ (hin x hx).moves hm, hinc⟩

/-- A write puts its commands into one stream, after all that is there. -/
theorem Child.InStreams.append (h : c.InStreams) (hpend : c.pending = []) (stream : Stream)
    (recs : List (ℕ × RecEnc)) (upTo : ℕ) : (c.append stream recs upTo).InStreams := by
  obtain ⟨placed, hfst, hin, hinc⟩ := h
  have hmoves : ∀ st, ParentMoves (c.streams st) ((c.append stream recs upTo).streams st) :=
    moves_update (moves_foldl_append recs _)
  refine ⟨placed ++ (recs.zipIdx (c.streams stream).next).map
    fun p ↦ (⟨p.1.1, p.1.2, upTo⟩, stream, p.2), ?_, fun x hx ↦ ?_, pairwise_append.mpr ⟨hinc, ?_, ?_⟩⟩
  · rw [map_append, hfst, stored, hpend, append_nil, map_map]
    show c.shown ++ _ = c.shown ++ recs.map fun x ↦ (⟨x.1, x.2, upTo⟩ : Stored)
    nth_rewrite 2 [← zipIdx_map_fst (c.streams stream).next recs]
    rw [map_map]
    rfl
  · rcases mem_append.mp hx with hx | hx
    · exact (hin x hx).moves hmoves
    · obtain ⟨p, hp, rfl⟩ := mem_map.mp hx
      refine .inr ?_
      show _ ∈ (update c.streams stream _ stream).entries
      rw [update_self]
      exact mem_foldl_append.mpr (.inr ⟨p, hp, rfl⟩)
  · have hrange := zipIdx_map_snd (c.streams stream).next recs ▸ pairwise_lt_range'
    refine pairwise_map.mpr (Pairwise.imp ?_ (pairwise_map.mp hrange))
    exact fun h _ ↦ h
  · intro x hx y hy heq
    obtain ⟨p, hp, rfl⟩ := mem_map.mp hy
    have hlt := (hin x hx).lt_next
    rw [heq] at hlt
    exact hlt.trans_le (mk_mem_zipIdx_iff_le_and_getElem?_sub.mp hp).1

section Memory

variable [DecidableEq K]

theorem CommandMemory.mem_add {m : CommandMemory K} {k : K} {off lwm : ℕ} {x : K × ℕ}
    (hx : x ∈ (m.add k off lwm).seen) : x ∈ m.seen ∨ k = x.1 := by
  have hcons : x ∈ (k, off) :: m.seen.filter (fun x ↦ x.1 ≠ k) → x ∈ m.seen ∨ k = x.1 := by
    intro hx
    rcases mem_cons.mp hx with rfl | hx
    · exact .inr rfl
    · exact .inl (mem_filter.mp hx).1
  unfold add at hx
  dsimp only at hx
  split at hx
  · exact hcons hx
  · exact hcons (mem_filter.mp hx).1

theorem CommandMemory.mem_load {x : K × ℕ} (hx : x ∈ (load cfg l).seen) :
    ∃ y ∈ l.entries, cfg.key y.2 = x.1 := by
  have hkeys := exists_of_foldl (p := fun seen : List (K × ℕ) ↦ x ∈ seen)
    (q := fun y : ℕ × RecEnc ↦ cfg.key y.2 = x.1) (fun seen y h ↦ ?_) hx
  · rcases hkeys with h | ⟨y, hy, hk⟩
    · cases h
    · exact ⟨y, (mem_filter.mp hy).1, hk⟩
  · rcases mem_cons.mp h with rfl | h
    · exact .inr rfl
    · exact .inl (mem_filter.mp h).1

theorem MemoryInv.restart {c : Child K} (h : MemoryInv cfg c) : MemoryInv cfg { c with
    shown := c.shown ++ c.pending, pending := [], memory := .load cfg (c.streams .commands) } where
  seen x hx := by
    obtain ⟨y, hy, hk⟩ := CommandMemory.mem_load hx
    obtain ⟨z, hz, hzk⟩ := h.commands y hy
    exact ⟨z, hz, hzk.trans hk⟩
  commands := h.commands
  pending _ he := by cases he
  placed := h.placed.moves (fun _ ↦ .refl _) (append_nil _)

theorem MemoryInv.publish {c : Child K} (h : MemoryInv cfg c) (first : ℕ) :
    MemoryInv cfg (c.publish cfg first) where
  seen x hx := by
    rcases exists_of_foldl (p := fun m : CommandMemory K ↦ x ∈ m.seen)
      (fun m e h ↦ CommandMemory.mem_add h) hx with hx | ⟨e, he, hk⟩
    · exact h.seen x hx
    · exact ⟨_, h.pending e.1 (fst_mem_of_mem_zipIdx he), hk⟩
  commands := h.commands
  pending _ he := by cases he
  placed := h.placed.moves (fun _ ↦ .refl _) (append_nil _)

end Memory

theorem MemoryInv.append (h : MemoryInv cfg c) (hpend : c.pending = []) (stream : Stream)
    (recs : List (ℕ × RecEnc)) (upTo : ℕ) (refused : List ℕ) :
    MemoryInv cfg { c.append stream recs upTo with refused } where
  seen x hx := by
    obtain ⟨y, hy, hk⟩ := h.seen x hx
    exact ⟨y, mem_append_left _ hy, hk⟩
  commands x hx := by
    have hnew : x ∈ (c.streams .commands).entries ∨
        ∃ p ∈ recs.zipIdx (c.streams stream).next, x = (p.2, Child.localRecord p.2 p.1.2) :=
      (mem_update_commands hx).elim .inl fun ⟨heq, hx⟩ ↦ heq ▸ mem_foldl_append.mp hx
    rcases hnew with hx | ⟨p, hp, rfl⟩
    · obtain ⟨y, hy, hk⟩ := h.commands x hx
      exact ⟨y, mem_append_left _ hy, hk⟩
    · exact ⟨p.1.2, mem_append_right _ (mem_map_of_mem (fst_mem_of_mem_zipIdx hp)), rfl⟩
  pending e he := by
    obtain ⟨y, hy, rfl⟩ := mem_map.mp he
    exact mem_append_right _ (mem_map_of_mem hy)
  placed := h.placed.append hpend stream recs upTo

/-! ### Storing a page -/

/-- The checks of a page sort its commands. -/
theorem Child.checkPage_spec {xs kept refused : List (ℕ × RecEnc)}
    (h : c.checkPage cfg xs = some (kept, refused)) :
    kept.Sublist xs ∧ ∀ x ∈ xs, x ∈ kept ∨ x ∈ refused := by
  induction xs generalizing kept refused with
  | nil =>
    cases h
    exact ⟨.slnil, fun _ h ↦ by cases h⟩
  | cons x xs ih =>
    -- the head is refused or kept, the rest is sorted as before
    have hrefuse : (c.checkPage cfg xs).map (fun r ↦ (r.1, x :: r.2)) = some (kept, refused) →
        kept.Sublist (x :: xs) ∧ ∀ z ∈ x :: xs, z ∈ kept ∨ z ∈ refused := by
      intro h
      obtain ⟨⟨k, f⟩, hr, heq⟩ := Option.map_eq_some_iff.mp h
      cases heq
      obtain ⟨hsub, hall⟩ := ih hr
      refine ⟨hsub.cons x, fun z hz ↦ ?_⟩
      rcases mem_cons.mp hz with rfl | hz
      · exact .inr mem_cons_self
      · exact (hall z hz).imp_right (mem_cons_of_mem _)
    unfold checkPage at h
    split at h
    · exact hrefuse h
    · split at h
      · cases h
      · split at h
        · exact hrefuse h
        · obtain ⟨⟨k, f⟩, hr, heq⟩ := Option.map_eq_some_iff.mp h
          cases heq
          obtain ⟨hsub, hall⟩ := ih hr
          refine ⟨hsub.cons_cons x, fun z hz ↦ ?_⟩
          rcases mem_cons.mp hz with rfl | hz
          · exact .inl mem_cons_self
          · exact (hall z hz).imp_left (mem_cons_of_mem _)

/-- What the child leaves out of a page it has held before. -/
theorem Page.rest [DecidableEq K]
    (h : Page cfg.parentClass cfg.mount s.parent s.withheld s.child.cursor a) (ha : a ∈ s.answers)
    (hm : MemoryInv cfg s.child) :
    Rest cfg s (a.records.filter fun x ↦ !s.child.recognises cfg x) a.next where
  increasing := h.increasing.filter _
  bounds y hy := h.bounds y (mem_filter.mp hy).1
  handed y hy := ⟨a, ha, (mem_filter.mp hy).1⟩
  next_le := h.next_le
  covers x hx hfor hle hlt := by
    rcases h.covers x hx hfor hle hlt with ⟨y, hy, heq⟩ | hw
    · cases hrec : s.child.recognises cfg y with
      | false => exact .inl ⟨y, mem_filter.mpr ⟨hy, by simp [hrec]⟩, heq⟩
      | true =>
        simp only [Child.recognises, CommandMemory.holds, Bool.and_eq_true, any_eq_true,
          beq_iff_eq, Bool.or_eq_true, decide_eq_true_eq] at hrec
        obtain ⟨⟨z, hz, hk⟩, hnamed⟩ := hrec
        obtain ⟨w, hw, hwk⟩ := hm.seen z hz
        exact .inr (.inr (.inr (.inl ⟨a, ha, y, hy, heq, hnamed, w, hw, hwk.trans hk⟩)))
    · exact .inr (.inr (.inr (.inr (.inr hw))))

section Write

variable {stream : Stream} {recs refused rest : List (ℕ × RecEnc)} {upTo after next : ℕ}

theorem stored_write (hpend : s.child.pending = []) :
    (s.write stream recs upTo refused after rest next).child.stored =
      s.child.stored ++ recs.map fun x ↦ ⟨x.1, x.2, upTo⟩ := by
  simp [Child.stored, State.write, Child.append, hpend]

theorem extends_write (hpend : s.child.pending = []) :
    Extends s (s.write stream recs upTo refused after rest next) where
  parent := .refl _
  withheld _ h := h
  requests _ _ h := h
  answers _ h := h
  stored _ h := stored_write hpend ▸ mem_append_left _ h
  refused _ h := mem_append_left _ h
  history _ h := mem_append_left _ h

theorem hasStored_write {y : ℕ × RecEnc} (hy : y ∈ recs) :
    HasStored (s.write stream recs upTo refused after rest next) y.1 :=
  ⟨_, mem_append_right _ (mem_map_of_mem hy), rfl⟩

/-- **One write** stores records from the cursor on, in order, and moves the cursor past them. -/
theorem Inv.write (h : Inv cfg s) (hne : s.phase ≠ .idle) (hnp : s.phase.isPublishing = false)
    (hlt : s.child.cursor < upTo) (hle : upTo ≤ s.parent.next) (hinc : recs.Pairwise (·.1 < ·.1))
    (hbounds : ∀ y ∈ recs, s.child.cursor ≤ y.1 ∧ y.1 < upTo)
    (hhanded : ∀ y ∈ recs, ∃ a ∈ s.answers, y ∈ a.records)
    (hrest : Rest cfg (s.write stream recs upTo refused after rest next) rest next)
    (hpass : ∀ x ∈ s.parent.entries, forChild cfg.parentClass cfg.mount x.2.topic →
      s.child.cursor ≤ x.1 → x.1 < upTo →
        Settled cfg (s.write stream recs upTo refused after rest next) x.1) :
    Inv cfg (s.write stream recs upTo refused after rest next) := by
  have hpend := h.pending hnp
  have hseat : s.child.seat ≠ none := fun hn ↦ hne (h.unseated hn).2
  have hnew : ∀ e ∈ (s.write stream recs upTo refused after rest next).child.stored,
      e ∈ s.child.stored ∨ ∃ y ∈ recs, ⟨y.1, y.2, upTo⟩ = e := by
    intro e he
    rw [stored_write hpend] at he
    exact (mem_append.mp he).imp_right mem_map.mp
  exact { h with
    seat := fun b hb ↦ (h.seat b hb).imp_right fun hle ↦ hle.trans hlt.le
    unseated := fun hn ↦ absurd hn hseat
    cursor_le := hle
    requests := fun r hr ↦ (h.requests r hr).imp_left fun hle ↦ hle.trans hlt.le
    phase := hrest
    passed := fun x hx hfor b hb hbx hxlt ↦ by
      rcases lt_or_ge x.1 s.child.cursor with hold | hnew
      · exact (h.passed x hx hfor b hb hbx hold).extends (extends_write hpend)
      · exact hpass x hx hfor hnew hxlt
    increasing := by
      rw [stored_write hpend, map_append, map_map]
      refine pairwise_append.mpr ⟨h.increasing, pairwise_map.mpr hinc, fun o ho o' ho' ↦ ?_⟩
      -- what was stored before lies below the cursor it was written with
      obtain ⟨e, he, rfl⟩ := mem_map.mp ho
      obtain ⟨y, hy, rfl⟩ := mem_map.mp ho'
      exact (h.upTo e he).1.trans_le ((h.upTo e he).2.trans (hbounds y hy).1)
    upTo := fun e he ↦ by
      rcases hnew e he with he | ⟨y, hy, rfl⟩
      · exact (h.upTo e he).imp_right fun hle ↦ hle.trans hlt.le
      · exact ⟨(hbounds y hy).2, le_rfl⟩
    handed := fun e he ↦ by
      rcases hnew e he with he | ⟨y, hy, rfl⟩
      · exact h.handed e he
      · exact hhanded y hy
    memory := h.memory.append hpend stream recs upTo _
    together := fun e he e' he' ↦ by
      -- the write before ended at the cursor, this one moved it
      have hold := (h.upTo e (mem_append_left _ he)).2
      obtain ⟨y, -, rfl⟩ := mem_map.mp he'
      exact (hold.trans_lt hlt).ne
    pending := fun hp ↦ by cases hp }

end Write

/-- The child's own bookkeeping, of which the parent's commands know nothing. -/
theorem Inv.keeps (h : Inv cfg s) (hcursor : c.cursor = s.child.cursor)
    (hseat : c.seat = s.child.seat) (hstored : c.stored = s.child.stored)
    (href : ∀ o ∈ s.child.refused, o ∈ c.refused) (hhist : ∀ e ∈ s.child.history, e ∈ c.history)
    (hm : MemoryInv cfg c) (hun : s.child.seat = none → ph = .idle)
    (hph : PhaseInv cfg { s with child := c, phase := ph } ph)
    (htog : ∀ e ∈ c.shown, ∀ e' ∈ c.pending, e.upTo ≠ e'.upTo)
    (hpend : ph.isPublishing = false → c.pending = []) : Inv cfg { s with child := c, phase := ph } :=
  h.still {
    parent := .refl _
    withheld := fun _ h ↦ h
    requests := fun _ _ h ↦ h
    answers := fun _ h ↦ h
    stored := fun _ h ↦ hstored ▸ h
    refused := href
    history := hhist
    cursor := hcursor
    seat := hseat
    same := hstored
    unseated := hun
    newRequests := fun _ ↦ .inl
    newPolls := fun _ ↦ .inl
    newAnswers := fun _ ↦ .inl
    phase := hph
    memory := hm
    together := htog
    pending := hpend }

/-- Commands were refused, and nothing was written. -/
theorem extends_refuse (refused : List (ℕ × RecEnc)) (ph : Phase) : Extends s (s.refuse refused ph) :=
  ⟨.refl _, fun _ h ↦ h, fun _ _ h ↦ h, fun _ h ↦ h, fun _ h ↦ h,
    fun _ h ↦ mem_append_left _ h, fun _ h ↦ h⟩

theorem Inv.refuse (h : Inv cfg s) {refused : List (ℕ × RecEnc)} (hne : s.phase ≠ .idle)
    (hnp : s.phase.isPublishing = false) (hph : PhaseInv cfg (s.refuse refused ph) ph) :
    Inv cfg (s.refuse refused ph) :=
  h.keeps rfl rfl rfl (fun _ h ↦ mem_append_left _ h) (fun _ h ↦ h)
    { h.memory with } (h.seated hne) hph h.together
    fun _ ↦ h.pending hnp

/-- The end of a page at which everything is settled. -/
theorem Rest.done {n : ℕ} (hn : n ≤ s.parent.next)
    (h : ∀ x ∈ s.parent.entries, forChild cfg.parentClass cfg.mount x.2.topic →
      s.child.cursor ≤ x.1 → x.1 < n → Settled cfg s x.1) : Rest cfg s [] n where
  increasing := List.Pairwise.nil
  bounds _ hy := by cases hy
  handed _ hy := by cases hy
  next_le := hn
  covers x hx hfor hle hlt := .inr (h x hx hfor hle hlt)

/-- The first command of the rest is settled: the rest without it. -/
theorem Rest.tail {rest : List (ℕ × RecEnc)} {next : ℕ} (h : Rest cfg s (x :: rest) next)
    (he : Extends s s') (hx : Settled cfg s' x.1)
    (hcur : s'.child.cursor = s.child.cursor ∨ s'.child.cursor = x.1 + 1) : Rest cfg s' rest next where
  increasing := h.increasing.of_cons
  bounds y hy := by
    have hle := (h.bounds y (mem_cons_of_mem _ hy))
    have hlt := (pairwise_cons.mp h.increasing).1 y hy
    omega
  handed y hy := by
    obtain ⟨a, ha, hya⟩ := h.handed y (mem_cons_of_mem _ hy)
    exact ⟨a, he.answers a ha, hya⟩
  next_le := h.next_le.trans he.parent.next_le
  covers z hz hfor hle hlt := by
    have hx' := (h.bounds x mem_cons_self).1
    have hold := he.parent.mem_of_lt hz (hlt.trans_le h.next_le)
    rcases h.covers z hold hfor (by omega) hlt with ⟨y, hy, heq⟩ | hs
    · rcases mem_cons.mp hy with rfl | hy
      · exact .inr (heq ▸ hx)
      · exact .inl ⟨y, hy, heq⟩
    · exact .inr (hs.extends he)

/-- Below the first command of the rest everything is settled. -/
theorem Rest.settled_below {z : ℕ × RecEnc} {rest : List (ℕ × RecEnc)} {next : ℕ}
    (h : Rest cfg s (x :: rest) next) (hz : z ∈ s.parent.entries)
    (hfor : forChild cfg.parentClass cfg.mount z.2.topic) (hle : s.child.cursor ≤ z.1)
    (hlt : z.1 < x.1) : Settled cfg s z.1 := by
  have hx := (h.bounds x mem_cons_self).2
  rcases h.covers z hz hfor hle (hlt.trans hx) with ⟨y, hy, heq⟩ | hs
  · rcases mem_cons.mp hy with rfl | hy
    · omega
    · have := (pairwise_cons.mp h.increasing).1 y hy
      omega
  · exact hs

theorem Inv.storeOne (h : Inv cfg s) {after next : ℕ} {rest : List (ℕ × RecEnc)}
    (hph : s.phase = .oneByOne after (x :: rest) next) (ok : Bool) :
    Inv cfg (s.storeOne cfg after x rest next ok) := by
  have hne : s.phase ≠ .idle := by simp [hph]
  have hnp : s.phase.isPublishing = false := by rw [hph]; rfl
  have hrest : Rest cfg s (x :: rest) next := by
    have := h.phase
    rwa [hph] at this
  obtain ⟨hcur, hlt⟩ := hrest.bounds x mem_cons_self
  -- the command could not be stored: the cursor is held at it
  have hfail : Inv cfg { s with phase := .acking after x.1 } := by
    refine h.loop (.done (hlt.le.trans hrest.next_le) fun z hz hfor hle hlt ↦ ?_) (h.seated hne) hnp
    exact hrest.settled_below hz hfor hle hlt
  unfold State.storeOne
  split
  · have hx : Settled cfg (s.refuse [x] (.oneByOne after rest next)) x.1 :=
      .inr (.inl (mem_append_right _ (mem_singleton_self _)))
    exact h.refuse hne hnp (hrest.tail (extends_refuse _ _) hx (.inl rfl))
  · exact hfail
  · rename_i stream _
    split
    · rename_i hpast
      exact absurd hpast (by omega)
    · split
      · have he : Extends s (s.write stream [x] (x.1 + 1) [] after rest next) :=
          extends_write (h.pending hnp)
        have hx : HasStored (s.write stream [x] (x.1 + 1) [] after rest next) x.1 :=
          hasStored_write (mem_singleton_self x)
        refine h.write hne hnp (by omega) (hlt.trans_le hrest.next_le) (pairwise_singleton _ _)
          (fun y hy ↦ ?_) (fun y hy ↦ ?_) (hrest.tail he (.inl hx) (.inr rfl))
          fun z hz hfor hle hzx ↦ ?_
        · rw [mem_singleton.mp hy]
          exact ⟨hcur, Nat.lt_succ_self _⟩
        · rw [mem_singleton.mp hy]
          exact hrest.handed x mem_cons_self
        · rcases Nat.lt_succ_iff_lt_or_eq.mp hzx with hlt | heq
          · exact (hrest.settled_below hz hfor hle hlt).extends he
          · exact .inl (heq ▸ hx)
      · exact hfail

section Store

variable [DecidableEq K]

theorem Inv.storePage (h : Inv cfg s) {after : ℕ} (hph : s.phase = .storing after a) (ok : Bool) :
    Inv cfg (s.storePage cfg after a ok) := by
  have hne : s.phase ≠ .idle := by simp [hph]
  have hnp : s.phase.isPublishing = false := by rw [hph]; rfl
  obtain ⟨ha, hpage⟩ : a ∈ s.answers ∧ Page cfg.parentClass cfg.mount s.parent s.withheld s.child.cursor a := by
    have := h.phase
    rwa [hph] at this
  have hrest := hpage.rest ha h.memory
  unfold State.storePage
  dsimp only
  generalize a.records.filter (fun x ↦ !s.child.recognises cfg x) = fresh at hrest ⊢
  split
  · rename_i hempty
    rw [List.isEmpty_iff.mp hempty] at hrest
    exact h.loop hrest (h.seated hne) hnp
  · split
    · exact h.loop hrest (h.seated hne) hnp
    · rename_i kept refused hcheck
      obtain ⟨hsub, hall⟩ := Child.checkPage_spec hcheck
      -- a command of the page that is not kept is refused
      have hsettle : ∀ s₁, Extends s s₁ → (∀ y ∈ refused, y.1 ∈ s₁.child.refused) →
          (∀ y ∈ kept, HasStored s₁ y.1) → ∀ x ∈ s.parent.entries,
          forChild cfg.parentClass cfg.mount x.2.topic → s.child.cursor ≤ x.1 → x.1 < a.next →
          Settled cfg s₁ x.1 := by
        intro s₁ he href hkept x hx hfor hle hlt
        rcases hrest.covers x hx hfor hle hlt with ⟨y, hy, heq⟩ | hs
        · rcases hall y hy with hy | hy
          · exact .inl (heq ▸ hkept y hy)
          · exact .inr (.inl (heq ▸ href y hy))
        · exact hs.extends he
      have hmem : ∀ y ∈ refused, y.1 ∈ s.child.refused ++ refused.map Prod.fst := fun y hy ↦
        mem_append_right _ (mem_map_of_mem hy)
      split
      · rename_i hnone
        refine h.refuse hne hnp (.done hrest.next_le fun x hx hfor hle hlt ↦ ?_)
        rw [Bool.or_eq_true, List.isEmpty_iff, decide_eq_true_eq] at hnone
        rcases hnone with rfl | hpast
        · exact hsettle _ (extends_refuse _ _) hmem (fun _ h ↦ by cases h) x hx hfor hle hlt
        · exact absurd (hlt.trans_le hpast) hle.not_gt
      · rename_i hsome
        rw [Bool.or_eq_true, not_or, decide_eq_true_eq, not_le] at hsome
        split
        · refine h.write hne hnp hsome.2 hrest.next_le (hrest.increasing.sublist hsub)
            (fun y hy ↦ hrest.bounds y (hsub.subset hy)) (fun y hy ↦ hrest.handed y (hsub.subset hy))
            (.done hrest.next_le fun x _ _ hle hlt ↦ absurd hlt hle.not_gt) ?_
          exact hsettle _ (extends_write (h.pending hnp)) hmem fun y hy ↦ hasStored_write hy
        · exact h.loop hrest (h.seated hne) hnp

theorem Inv.publish (h : Inv cfg s) {after first next : ℕ} {rest : List (ℕ × RecEnc)}
    (hph : s.phase = .publishing after first rest next) :
    Inv cfg { s with child := s.child.publish cfg first, phase := .oneByOne after rest next } := by
  have hrest : Rest cfg s rest next := by
    have := h.phase
    rwa [hph] at this
  have hstored : (s.child.publish cfg first).stored = s.child.stored := append_nil _
  refine h.keeps rfl rfl hstored (fun _ h ↦ h) (fun _ h ↦ h) (h.memory.publish first)
    (h.seated (by simp [hph])) (hrest.extends (.of_eq rfl rfl rfl rfl hstored rfl rfl) rfl)
    (fun _ _ _ h ↦ by cases h) fun _ ↦ rfl

/-- A child that starts again has on disk what it had, and remembers what its stream retains. -/
theorem Inv.restart (h : Inv cfg s) :
    Inv cfg { s with
      child := { s.child with
        shown := s.child.shown ++ s.child.pending
        pending := []
        memory := .load cfg (s.child.streams .commands) }
      phase := .idle } :=
  h.keeps rfl rfl (append_nil _) (fun _ h ↦ h) (fun _ h ↦ h) h.memory.restart
    (fun _ ↦ rfl) trivial (fun _ _ _ h ↦ by cases h) fun _ ↦ rfl

end Store

/-- What else happens at the child changes only its streams, and what it has held. -/
theorem Inv.elsewhere (h : Inv cfg s) {draining : List Path}
    {history : List RecEnc} (hhist : ∀ e ∈ s.child.history, e ∈ history)
    (hcmd : ∀ x ∈ (streams .commands).entries, x ∈ (s.child.streams .commands).entries ∨
      x.2 ∈ history) (hm : ∀ st, ParentMoves (s.child.streams st) (streams st)) :
    Inv cfg { s with child := { s.child with streams, draining, history } } := by
  refine h.keeps rfl rfl rfl (fun _ h ↦ h) hhist ⟨fun x hx ↦ ?_, fun x hx ↦ ?_,
    fun e he ↦ hhist _ (h.memory.pending e he), h.memory.placed.moves hm rfl⟩ (fun hn ↦ (h.unseated hn).2)
    (h.phase.extends ⟨.refl _, fun _ h ↦ h, fun _ _ h ↦ h, fun _ h ↦ h, fun _ h ↦ h, fun _ h ↦ h,
      hhist⟩ rfl) h.together h.pending
  · obtain ⟨y, hy, hk⟩ := h.memory.seen x hx
    exact ⟨y, hhist y hy, hk⟩
  · rcases hcmd x hx with hx | hx
    · obtain ⟨y, hy, hk⟩ := h.memory.commands x hx
      exact ⟨y, hhist y hy, hk⟩
    · exact ⟨x.2, hx, rfl⟩

theorem Inv.localAppend (h : Inv cfg s) (stream : Stream) (e : RecEnc) :
    Inv cfg { s with child := { s.child with
      streams := update s.child.streams stream ((s.child.streams stream).append e)
      history := s.child.history ++ [e] } } := by
  refine h.elsewhere (fun _ h ↦ mem_append_left _ h) (fun x hx ↦ ?_) (moves_update (parentMoves_append _ _))
  rcases mem_update_commands hx with hx | ⟨rfl, hx⟩
  · exact .inl hx
  · rcases mem_append.mp hx with hx | hx
    · exact .inl hx
    · rw [mem_singleton.mp hx]
      exact .inr (mem_append_right _ (mem_singleton_self _))

theorem Inv.localPrune (h : Inv cfg s) (stream : Stream) (upTo : ℕ) :
    Inv cfg { s with child := { s.child with
      streams := update s.child.streams stream ((s.child.streams stream).prune upTo) } } := by
  refine h.elsewhere (fun _ h ↦ h) (fun x hx ↦ .inl ?_) (moves_update (parentMoves_prune _ _))
  rcases mem_update_commands hx with hx | ⟨rfl, hx⟩
  · exact hx
  · exact (mem_filter.mp hx).1

/-- **Every step keeps the invariant.** -/
theorem Inv.step [DecidableEq K] {e : Event} (h : Inv cfg s) (hs : (system cfg).step s e = some s') :
    Inv cfg s' := by
  change Downlink.step cfg s e = some s' at hs
  cases e with
  | append e =>
    cases hs
    exact h.moves (parentMoves_append _ e)
  | prune upTo =>
    cases hs
    exact h.moves (parentMoves_prune _ upTo)
  | arrive id =>
    obtain ⟨r, hr, rfl⟩ := Option.map_eq_some_iff.mp hs
    exact h.handle hr
  | wait i =>
    obtain ⟨p, hp, hs⟩ := Option.bind_eq_some_iff.mp hs
    split at hs <;> cases hs
    rename_i hwait
    exact h.wait hp hwait
  | answer i refused =>
    obtain ⟨p, hp, rfl⟩ := Option.map_eq_some_iff.mp hs
    exact h.answer hp refused
  | seat head =>
    simp only [Downlink.step] at hs
    split at hs
    · rename_i hseat
      split at hs <;> cases hs
      rename_i hhead
      exact h.seatAt hseat hhead.1 hhead.2
    · cases hs
  | poll max =>
    simp only [Downlink.step] at hs
    split at hs <;> cases hs
    rename_i hph hseat
    exact h.send (by simp [hseat]) max false (by rw [hph]; rfl) (by simp)
  | receive k max =>
    simp only [Downlink.step] at hs
    split at hs
    · rename_i id after page a hph ha
      have ha := mem_of_getElem? ha
      have hne : s.phase ≠ .idle := by simp [hph]
      have hnp : s.phase.isPublishing = false := by rw [hph]; rfl
      obtain ⟨rfl, ⟨r, hr, hafter⟩, -⟩ :
          PhaseInv cfg s (.asked id after page) := hph ▸ h.phase
      split at hs
      · cases hs
      · rename_i hid
        -- the answer is to the request the child waits for, so it was read from the cursor on
        have hpage : Page cfg.parentClass cfg.mount s.parent s.withheld s.child.cursor a := by
          obtain ⟨r', hr', hpage⟩ := h.answers a ha
          rw [not_not.mp hid, hr] at hr'
          rw [← hafter, Option.some.inj hr']
          exact hpage
        split at hs <;> cases hs
        · have hseat : s.child.seat.isSome := Option.isSome_iff_ne_none.mpr fun hn ↦
            hne (h.unseated hn).2
          refine h.send hseat max true hnp fun a' ha' ↦ ?_
          obtain rfl := Option.some.inj ha'
          exact ⟨ha, hpage⟩
        · exact h.loop ⟨ha, hpage⟩ (h.seated hne) hnp
    · cases hs
  | keep =>
    simp only [Downlink.step] at hs
    split at hs <;> cases hs
    rename_i id after page hph
    obtain ⟨-, -, hpage⟩ : PhaseInv cfg s (.asked id after (some page)) := hph ▸ h.phase
    exact h.loop (hpage page rfl) (h.seated (by simp [hph])) (by rw [hph]; rfl)
  | drop =>
    simp only [Downlink.step] at hs
    split at hs <;> cases hs
    rename_i hph
    exact h.loop trivial (fun _ ↦ rfl) (by rw [hph]; rfl)
  | storePage ok =>
    simp only [Downlink.step] at hs
    split at hs <;> cases hs
    rename_i hph
    exact h.storePage hph ok
  | storeOne ok =>
    simp only [Downlink.step] at hs
    split at hs <;> cases hs
    · rename_i hph
      exact h.storeOne hph ok
    · rename_i after next hph
      have hrest : PhaseInv cfg s (.oneByOne after [] next) := hph ▸ h.phase
      exact h.loop hrest (h.seated (by simp [hph])) (by rw [hph]; rfl)
  | publish =>
    simp only [Downlink.step] at hs
    split at hs <;> cases hs
    rename_i hph
    exact h.publish hph
  | ack ok =>
    simp only [Downlink.step] at hs
    split at hs <;> cases hs
    rename_i after ackTo hph
    refine h.ack hph ?_
    split
    · exact .inr rfl
    · exact .inl rfl
  | localAppend stream e =>
    simp only [Downlink.step] at hs
    split at hs <;> cases hs
    exact h.localAppend stream e
  | localPrune stream upTo =>
    cases hs
    exact h.localPrune stream upTo
  | drain mounts =>
    cases hs
    exact h.elsewhere (fun _ h ↦ h) (fun _ ↦ .inl) fun _ ↦ .refl _
  | restart =>
    cases hs
    exact h.restart

theorem inv_start [DecidableEq K] (cfg : Config K) : Inv cfg (system cfg).start where
  seat _ h := by cases h
  unseated _ := ⟨rfl, rfl⟩
  cursor_le := le_rfl
  requests _ h := by cases h
  polls _ h := by cases h
  answers _ h := by cases h
  phase := trivial
  passed _ h := by cases h
  increasing := List.Pairwise.nil
  upTo _ h := by cases h
  handed _ h := by cases h
  memory := ⟨by simp [system], by simp [system, OffsetLog.empty], by simp [system], [], rfl, nofun, .nil⟩
  together _ h := by cases h
  pending _ := rfl

/-! ### Stored once -/

/-- **Commands are stored once, in order, with the cursor past them.** -/
structure StoredOnce (s : State K) : Prop where
  /-- Each is one the parent handed. -/
  handed : ∀ e ∈ s.child.stored, ∃ a ∈ s.answers, (e.off, e.command) ∈ a.records
  /-- None is stored twice, and later ones have higher offsets at the parent. -/
  increasing : (s.child.stored.map Stored.off).Pairwise (· < ·)
  /-- The cursor of the same write is past it, and what is stored is never seen without that cursor. -/
  past : ∀ e ∈ s.child.stored, e.off < e.upTo ∧ e.upTo ≤ s.child.cursor
  /-- The commands of one write are readable together. -/
  together : ∀ e ∈ s.child.shown, ∀ e' ∈ s.child.pending, e.upTo ≠ e'.upTo
  /-- Each is in a stream of the child, in this order and at a place of its own, unless retention has removed
  it there. -/
  placed : s.child.InStreams

/-- The cursor has passed no command that was handed, but those stored or refused, and others excused. -/
def NonePassed (s : State K) (excused : ℕ → Prop) : Prop :=
  ∀ a ∈ s.answers, ∀ x ∈ a.records, x.1 < s.child.cursor →
    HasStored s x.1 ∨ x.1 ∈ s.child.refused ∨ excused x.1

theorem Inv.nonePassed (h : Inv cfg s) : NonePassed s fun o ↦ Recognised cfg s o ∨ Withdrawn s o := by
  intro a ha x hx hlt
  obtain ⟨r, hr, hpage⟩ := h.answers a ha
  obtain ⟨-, b, hb, hbr⟩ := h.requests r (mem_of_getElem? hr)
  rcases hpage.real x hx with hgone | ⟨z, hz, heq, hfor⟩
  · exact .inr (.inr (.inr (.inl hgone)))
  · have hxr := (hpage.bounds x hx).1
    have hsettled : Settled cfg s z.1 := h.passed z hz hfor b hb (by omega) (by omega)
    exact heq ▸ hsettled

section Runs

variable [DecidableEq K]

theorem Inv.of_reachable (h : (system cfg).Reachable s) : Inv cfg s :=
  h.invariant (inv_start cfg) fun _ _ _ hi hs ↦ hi.step hs

/-- **In every run** commands are stored once and in order, and the cursor passes a command that was
handed only when it is stored or refused, or recognised as one the child holds, or withdrawn by the
parent. -/
theorem storedOnce_of_reachable (h : (system cfg).Reachable s) :
    StoredOnce s ∧ NonePassed s fun o ↦ Recognised cfg s o ∨ Withdrawn s o := by
  have hi := Inv.of_reachable h
  exact ⟨⟨hi.handed, hi.increasing, hi.upTo, hi.together, hi.memory.placed⟩, hi.nonePassed⟩

end Runs

/-! ### A line and its commands -/

/-- A child mounted at a line; every command that has a payload names itself. -/
def line : Config (Topic × Payload × ℤ) where
  parentClass := classOf
  childClass := classOf
  mount := ["line1"]
  commandKey t p ts := (t, p, ts)
  hasCorrelationID p := !p.isEmpty
  rehandedBelow := 0

/-- A command for a machine of the line. -/
def setSpeed (payload : Payload) : RecEnc where
  sourceLocalOnly := false
  topic := ["colca", "v1", "_CmdParam", "m1", "line1", "speed", "set"]
  payload := payload
  ts := 0
  by_ := {}
  originOffset := 0
  door := ""
  signalID := ""

/-- The child polls and confirms; `k` requests were made before. -/
def fetch (k : ℕ) : List Event :=
  [.poll 0, .arrive k, .answer 0 [], .receive k 0, .arrive (k + 1), .answer 0 [], .receive (k + 1) 0]

/-- The page cannot be stored in one write, and the child stops after the first command of it. -/
def interruptedRun : List Event :=
  [.seat 1, .append (setSpeed [1]), .append (setSpeed [2])] ++ fetch 0 ++
    [.storePage false, .storeOne true, .publish, .restart] ++ fetch 2 ++ [.storePage true]

/-- Both commands are stored, the second in a write that is not published yet. -/
theorem interrupted_page_stored_once : ∃ s, (system line).Reachable s ∧
    (s.child.shown.map Stored.off = [1] ∧ s.child.pending.map Stored.off = [2]) ∧
    StoredOnce s ∧ NonePassed s fun o ↦ Recognised line s o ∨ Withdrawn s o := by
  obtain ⟨s, hs, hp⟩ := (system line).exists_reachable interruptedRun
    (fun s ↦ s.child.shown.map Stored.off = [1] ∧ s.child.pending.map Stored.off = [2])
  exact ⟨s, hs, hp, storedOnce_of_reachable hs⟩

/-- The same command comes down to the parent a second time. -/
def repeatedRun : List Event :=
  [.seat 1, .append (setSpeed [1])] ++ fetch 0 ++ [.storePage true, .publish, .storeOne true, .ack true,
    .append (setSpeed [1])] ++ fetch 2 ++ [.storePage true, .ack true]

/-- **A command the child recognises is passed** although it is neither stored nor refused, and the parent
withdrew nothing. -/
theorem recognised_command_passed : ¬ ∀ s, (system line).Reachable s → NonePassed s (Withdrawn s) := by
  intro h
  obtain ⟨s, hs, ⟨a, ha, x, hx, hx2⟩, hcur, hstored, hrefused, hlwm, hwithheld⟩ :=
    (system line).exists_reachable repeatedRun fun s ↦ (∃ a ∈ s.answers, ∃ x ∈ a.records, x.1 = 2) ∧
      2 < s.child.cursor ∧ (∀ e ∈ s.child.stored, e.off ≠ 2) ∧ 2 ∉ s.child.refused ∧ ¬ 2 < s.parent.lwm ∧
      2 ∉ s.withheld
  rcases h s hs a ha x hx (hx2 ▸ hcur) with ⟨e, he, heq⟩ | hr | hw | hw
  · exact hstored e he (heq.trans hx2)
  · exact hrefused (hx2 ▸ hr)
  · exact hlwm (hx2 ▸ hw)
  · exact hwithheld (hx2 ▸ hw)

end Colca.Downlink
