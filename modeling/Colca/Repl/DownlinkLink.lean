import Colca.Lib.StateMachine
import Colca.Repl.DownlinkPoll

/-!
# The link between a parent and a child

What the two parties of a downlink say to each other about commands, without what the child does with a
command or why the parent would not forward one: the child asks from its position, the polls it made are
held and answered in any order, or not at all, and it moves its position at most to where an answer in its
hand ends. What the parent decides (the mount a poll arrives with, and the commands it refuses to forward)
is left to the systems built over this one.

`Link.Inv` is what holds whatever the parent decides: an answer covers everything below the mount of its
poll from the position that was asked with, except what was withheld. So what the position passes below
that mount was received or withheld (`Inv.mem_of_lt_next`).
-/

namespace Colca.Downlink

open Uns List Option

/-- An answer, with the mount its poll arrived with and the head of the stream when it was given. -/
structure Response where
  answer : Answer
  mount : Path
  head : ℕ
  deriving DecidableEq

namespace Link

/-- What the child is doing. -/
inductive Phase
  | idle
  /-- It waits for an answer; `page` is the one it asked to confirm. -/
  | asked (id : ℕ) (page : Option Response)
  /-- It has an answer in hand. -/
  | holding (r : Response)

/-- The answer the child has in hand. -/
def Phase.inHand : Phase → Option Response
  | .holding r => some r
  | _ => none

end Link

/-- The state of a link. `withheld` and `received` are ghosts. -/
structure Link where
  /-- The parent's commands stream. -/
  commands : OffsetLog RecEnc := .empty
  /-- The offsets of commands the parent refused to forward. -/
  withheld : List ℕ := []
  requests : List Request := []
  polls : List Poll := []
  responses : List Response := []
  /-- Where the child polls next, once the first handshake has said so. -/
  position : Option ℕ := none
  /-- The offsets in answers the child received. -/
  received : List ℕ := []
  phase : Link.Phase := .idle

namespace Link

/-- What the child does, and a poll that goes on waiting. -/
inductive Event
  /-- The first handshake seats the position. -/
  | seat (head : ℕ)
  | ask (max : ℕ)
  /-- With an answer in hand the child asks what waits now. -/
  | confirm (max : ℕ)
  | wait (i : ℕ)
  | receive (k : ℕ)
  /-- The page could not be confirmed. -/
  | keep
  /-- The child moves its position, at most to where the answer in hand ends. -/
  | advance (upTo : ℕ)
  /-- The child is done with the answer, gives up its request, or stops. -/
  | stop

variable (classOf : String → Uns.Class) (s : Link)

/-- Send a poll at a position. -/
def send (after max : ℕ) (confirm : Bool) (page : Option Response) : Link :=
  { s with
    requests := s.requests ++ [⟨after, max, confirm⟩]
    phase := .asked s.requests.length page }

/-- A request arrives when the child has the mount. -/
def arrive (id : ℕ) (r : Request) (mount : Path) : Link :=
  { s with polls := s.polls ++ [.arrive id r mount] }

/-- The commands a poll would hand that are refused. -/
def refusals (p : Poll) (refused : ℕ × RecEnc → Bool) : List (ℕ × RecEnc) :=
  (p.read classOf s.commands).1.filter refused

/-- Answer the poll at an index, without the commands that are refused. -/
def answer (i : ℕ) (p : Poll) (refused : ℕ × RecEnc → Bool) : Link :=
  { s with
    polls := s.polls.eraseIdx i
    withheld := s.withheld ++ (s.refusals classOf p refused).map Prod.fst
    responses := s.responses ++ [⟨p.answer classOf s.commands refused, p.mount, s.commands.next⟩] }

def step : Event → Option Link
  | .seat head => match s.position with
    | none =>
      if 1 ≤ head ∧ head ≤ s.commands.next then some { s with position := some head } else none
    | some _ => none
  | .ask max => match s.phase, s.position with
    | .idle, some p => some (s.send p max false none)
    | _, _ => none
  | .confirm max => match s.phase, s.position with
    | .holding r, some p => some (s.send p max true (some r))
    | _, _ => none
  | .wait i => s.polls[i]?.bind fun p ↦
      if p.mayWait classOf s.commands then
        some { s with polls := s.polls.set i (p.wait classOf s.commands) }
      else none
  | .receive k => match s.phase, s.responses[k]? with
    | .asked id _, some r =>
      if r.answer.id = id then
        some { s with received := s.received ++ r.answer.records.map Prod.fst, phase := .holding r }
      else none
    | _, _ => none
  | .keep => match s.phase with
    | .asked _ (some r) => some { s with phase := .holding r }
    | _ => none
  | .advance upTo => match s.phase, s.position with
    | .holding r, some p =>
      if upTo ≤ r.answer.next then some { s with position := some (max p upTo) } else none
    | _, _ => none
  | .stop => some { s with phase := .idle }

/-! ### The invariant -/

/-- An answer that the child received. -/
structure Held (r : Response) : Prop where
  mem : r ∈ s.responses
  received : ∀ y ∈ r.answer.records, y.1 ∈ s.received

/-- The answers in the child's hand. -/
def Phase.Holds (r : Response) : Phase → Prop
  | .idle => False
  | .asked _ page => page = some r
  | .holding r' => r' = r

structure Inv : Prop where
  position_le : ∀ p ∈ s.position, 1 ≤ p ∧ p ≤ s.commands.next
  requests : ∀ r ∈ s.requests, 1 ≤ r.after ∧ ∃ p ∈ s.position, r.after ≤ p
  polls : ∀ p ∈ s.polls, ∃ r, s.requests[p.id]? = some r ∧ Crossed classOf s.commands r.after p
  responses : ∀ r ∈ s.responses, r.answer.next ≤ r.head ∧ ∃ q, s.requests[r.answer.id]? = some q ∧
    Page classOf r.mount s.commands s.withheld q.after r.answer
  held : ∀ r, s.phase.Holds r → s.Held r

variable {classOf} {s} {s' : Link}

/-- A link on which nothing was said. -/
theorem inv_of_unused (hreq : s.requests = []) (hpolls : s.polls = []) (hresp : s.responses = [])
    (hph : s.phase = .idle) (hpos : ∀ p ∈ s.position, 1 ≤ p ∧ p ≤ s.commands.next) : s.Inv classOf where
  position_le := hpos
  requests := by simp [hreq]
  polls := by simp [hpolls]
  responses := by simp [hresp]
  held := by simp [hph, Phase.Holds]

section

variable (h : s.Inv classOf)

include h

/-- The parent's stream changes. -/
theorem Inv.moves {l : OffsetLog RecEnc} (hm : ParentMoves s.commands l) :
    Inv classOf { s with commands := l } :=
  { h with
    position_le := fun p hp ↦ (h.position_le p hp).imp_right fun hle ↦ hle.trans hm.next_le
    polls := fun p hp ↦ by
      obtain ⟨r, hr, hc⟩ := h.polls p hp
      exact ⟨r, hr, hc.moves hm⟩
    responses := fun r hr ↦ by
      obtain ⟨hhead, q, hq, hpage⟩ := h.responses r hr
      exact ⟨hhead, q, hq, hpage.moves hm fun _ h ↦ h⟩
    held := fun r hr ↦ ⟨(h.held r hr).mem, (h.held r hr).received⟩ }

theorem Inv.send {p : ℕ} (hp : s.position = some p) (max : ℕ) (confirm : Bool)
    {page : Option Response} (hpage : ∀ r, page = some r → s.phase.Holds r) :
    Inv classOf (s.send p max confirm page) := by
  have hold : ∀ (id : ℕ) (r : Request), s.requests[id]? = some r →
      (s.send p max confirm page).requests[id]? = some r := fun id r hr ↦
    getElem?_append_left (List.getElem?_eq_some_iff.mp hr).1 ▸ hr
  exact { h with
    requests := forall_mem_concat h.requests ⟨(h.position_le p hp).1, p, hp, le_rfl⟩
    polls := fun p hp ↦ by
      obtain ⟨r, hr, hc⟩ := h.polls p hp
      exact ⟨r, hold _ r hr, hc⟩
    responses := fun r hr ↦ by
      obtain ⟨hhead, q, hq, hpage⟩ := h.responses r hr
      exact ⟨hhead, q, hold _ q hq, hpage⟩
    held := fun r hr ↦ ⟨(h.held r (hpage r hr)).mem, (h.held r (hpage r hr)).received⟩ }

/-- The polls at the parent change. -/
theorem Inv.setPolls {polls : List Poll} (hpolls : ∀ p ∈ polls, p ∈ s.polls ∨
      ∃ r, s.requests[p.id]? = some r ∧ Crossed classOf s.commands r.after p) :
    Inv classOf { s with polls } :=
  { h with
    polls := fun p hp ↦ (hpolls p hp).elim (h.polls p) id
    held := fun r hr ↦ ⟨(h.held r hr).mem, (h.held r hr).received⟩ }

theorem Inv.arrive {id : ℕ} {r : Request} (hr : s.requests[id]? = some r)
    (m : Path) : Inv classOf (s.arrive id r m) := by
  refine h.setPolls fun p hp ↦ (mem_append.mp hp).imp_right fun hp ↦ ?_
  obtain ⟨hone, p', hp', hle⟩ := h.requests r (mem_of_getElem? hr)
  rw [mem_singleton.mp hp]
  exact ⟨r, hr, crossed_arrive hone (hle.trans (h.position_le p' hp').2)⟩

variable {r : Response} {p : Poll} {i : ℕ}

theorem Inv.wait (hp : s.polls[i]? = some p) (hwait : p.mayWait classOf s.commands) :
    Inv classOf { s with polls := s.polls.set i (p.wait classOf s.commands) } := by
  refine h.setPolls fun p' hp' ↦ (mem_or_eq_of_mem_set hp').imp_right fun heq ↦ ?_
  obtain ⟨r, hr, hc⟩ := h.polls p (mem_of_getElem? hp)
  subst heq
  exact ⟨r, hr, hc.wait hwait⟩

theorem Inv.answer (hp : s.polls[i]? = some p)
    (refused : ℕ × RecEnc → Bool) : Inv classOf (s.answer classOf i p refused) :=
  { h with
    polls := fun p hp ↦ h.polls p (mem_of_mem_eraseIdx hp)
    responses := fun r hr ↦ by
      rcases mem_append.mp hr with hr | hr
      · obtain ⟨hhead, q, hq, hpage⟩ := h.responses r hr
        exact ⟨hhead, q, hq, hpage.moves (.refl _) fun _ h ↦ mem_append_left _ h⟩
      · obtain ⟨q, hq, hc⟩ := h.polls p (mem_of_getElem? hp)
        rw [mem_singleton.mp hr]
        refine ⟨Poll.next_le hc.after_le, q, hq, hc.answer _ fun x hx hrx ↦
          mem_append_right _ ?_⟩
        exact mem_map_of_mem (mem_filter.mpr ⟨hx, hrx⟩)
    held := fun r hr ↦ ⟨mem_append_left _ (h.held r hr).mem, (h.held r hr).received⟩ }

/-- The child receives an answer. -/
theorem Inv.receive (hr : r ∈ s.responses) :
    Inv classOf { s with
      received := s.received ++ r.answer.records.map Prod.fst, phase := .holding r } :=
  { h with
    held := fun r' hr' ↦ by
      obtain rfl : r = r' := hr'
      exact ⟨hr, fun y hy ↦ mem_append_right _ (mem_map_of_mem hy)⟩ }

/-- The child turns to something else. -/
theorem Inv.turn {ph : Phase} (hph : ∀ r, ph.Holds r → s.phase.Holds r) :
    Inv classOf { s with phase := ph } :=
  { h with held := fun r hr ↦ ⟨(h.held r (hph r hr)).mem, (h.held r (hph r hr)).received⟩ }

/-- The position moves forward. -/
theorem Inv.setPosition {p' : ℕ} (hone : 1 ≤ p') (hle : p' ≤ s.commands.next)
    (hpos : ∀ p ∈ s.position, p ≤ p') : Inv classOf { s with position := some p' } :=
  { h with
    position_le := fun p hp ↦ by
      obtain rfl := some.inj hp
      exact ⟨hone, hle⟩
    requests := fun r hr ↦ by
      obtain ⟨hone, p, hp, hle⟩ := h.requests r hr
      exact ⟨hone, p', rfl, hle.trans (hpos p hp)⟩
    held := fun r hr ↦ ⟨(h.held r hr).mem, (h.held r hr).received⟩ }

/-- The position moves up to where an answer in hand ends. -/
theorem Inv.advance (hph : s.phase = .holding r) {p upTo : ℕ}
    (hp : s.position = some p) (hle : upTo ≤ r.answer.next) :
    Inv classOf { s with position := some (max p upTo) } := by
  obtain ⟨hmem, -⟩ := h.held r (hph ▸ rfl)
  obtain ⟨-, q, -, hpage⟩ := h.responses r hmem
  obtain ⟨hone, hnext⟩ := h.position_le p hp
  refine h.setPosition (hone.trans (le_max_left _ _)) (max_le hnext (hle.trans hpage.next_le))
    fun p' hp' ↦ ?_
  obtain rfl := some.inj (hp.symm.trans hp')
  exact le_max_left _ _

/-- **Every step of the child keeps the invariant.** -/
theorem Inv.step {e : Event} (hs : s.step classOf e = some s') : s'.Inv classOf := by
  cases e with
  | seat head =>
    simp only [Link.step] at hs
    split at hs
    · rename_i hn
      split at hs <;> cases hs
      rename_i hhead
      exact h.setPosition hhead.1 hhead.2 (by simp [hn])
    · cases hs
  | ask max =>
    simp only [Link.step] at hs
    split at hs <;> cases hs
    rename_i hp
    exact h.send hp max false (by simp)
  | confirm max =>
    simp only [Link.step] at hs
    split at hs <;> cases hs
    rename_i r p hph hp
    refine h.send hp max true fun r' hr' ↦ ?_
    rw [hph, ← some.inj hr']
    rfl
  | wait i =>
    obtain ⟨p, hp, hs⟩ := bind_eq_some_iff.mp hs
    split at hs <;> cases hs
    rename_i hwait
    exact h.wait hp hwait
  | receive k =>
    simp only [Link.step] at hs
    split at hs
    · rename_i hr
      split at hs <;> cases hs
      exact h.receive (mem_of_getElem? hr)
    · cases hs
  | keep =>
    simp only [Link.step] at hs
    split at hs <;> cases hs
    rename_i id r hph
    refine h.turn fun r' hr' ↦ ?_
    obtain rfl : r = r' := hr'
    rw [hph]
    rfl
  | advance upTo =>
    simp only [Link.step] at hs
    split at hs
    · rename_i r p hph hp
      split at hs <;> cases hs
      rename_i hle
      exact h.advance hph hp hle
    · cases hs
  | stop =>
    cases hs
    exact h.turn fun _ h ↦ h.elim

end

/-! ### What a step of the child leaves alone -/

/-- The stream, what was withheld and the answers stay; requests are made at the position. -/
structure Frame (s s' : Link) : Prop where
  commands : s'.commands = s.commands
  withheld : s'.withheld = s.withheld
  responses : s'.responses = s.responses
  requests_prefix : s.requests <+: s'.requests
  requests : ∀ r ∈ s'.requests, r ∈ s.requests ∨ r.after ∈ s.position
  mounts : ∀ p' ∈ s'.polls, ∃ p ∈ s.polls, p'.mount = p.mount

/-- Only the position, the phase and what was received change. -/
theorem frame_of_eq (hc : s'.commands = s.commands) (hw : s'.withheld = s.withheld)
    (hr : s'.responses = s.responses) (hq : s'.requests = s.requests) (hp : s'.polls = s.polls) :
    Frame s s' where
  commands := hc
  withheld := hw
  responses := hr
  requests_prefix := hq ▸ prefix_refl _
  requests _ h := .inl (hq ▸ h)
  mounts p h := ⟨p, hp ▸ h, rfl⟩

theorem frame_send {p : ℕ} (hp : s.position = some p) (max : ℕ) (confirm : Bool)
    (page : Option Response) : Frame s (s.send p max confirm page) where
  commands := rfl
  withheld := rfl
  responses := rfl
  requests_prefix := prefix_append _ _
  requests r h := by
    refine (mem_append.mp h).imp_right fun h ↦ ?_
    rw [mem_singleton.mp h]
    exact hp
  mounts p h := ⟨p, h, rfl⟩

theorem step_frame {e : Event} (hs : s.step classOf e = some s') : Frame s s' := by
  cases e with
  | stop =>
    cases hs
    exact frame_of_eq rfl rfl rfl rfl rfl
  | keep =>
    simp only [Link.step] at hs
    split at hs <;> cases hs
    exact frame_of_eq rfl rfl rfl rfl rfl
  | ask | confirm =>
    simp only [Link.step] at hs
    split at hs <;> cases hs
    rename_i hp
    exact frame_send hp _ _ _
  | wait i =>
    obtain ⟨p, hp, hs⟩ := bind_eq_some_iff.mp hs
    split at hs <;> cases hs
    refine { frame_of_eq rfl rfl rfl rfl rfl with mounts := fun p' hp' ↦ ?_ }
    rcases mem_or_eq_of_mem_set hp' with hp' | rfl
    · exact ⟨p', hp', rfl⟩
    · exact ⟨p, mem_of_getElem? hp, rfl⟩
  | seat | receive | advance =>
    simp only [Link.step] at hs
    split at hs
    · split at hs <;> cases hs
      exact frame_of_eq rfl rfl rfl rfl rfl
    · cases hs

/-! ### What the position passes -/

/-- Apart from the first handshake only one step of the child moves its position. -/
theorem step_position {e : Event} (hs : s.step classOf e = some s') :
    s'.position = s.position ∨ s.position = none ∨
      ∃ upTo r p, e = .advance upTo ∧ s.phase = .holding r ∧ s.position = some p ∧
        upTo ≤ r.answer.next ∧ s' = { s with position := some (max p upTo) } := by
  cases e with
  | stop =>
    cases hs
    exact .inl rfl
  | seat head =>
    simp only [Link.step] at hs
    split at hs
    · rename_i hn
      exact .inr (.inl hn)
    · cases hs
  | ask | confirm | keep =>
    simp only [Link.step] at hs
    split at hs <;> cases hs
    exact .inl rfl
  | wait i =>
    obtain ⟨p, -, hs⟩ := bind_eq_some_iff.mp hs
    split at hs <;> cases hs
    exact .inl rfl
  | receive k =>
    simp only [Link.step] at hs
    split at hs
    · split at hs <;> cases hs
      exact .inl rfl
    · cases hs
  | advance upTo =>
    simp only [Link.step] at hs
    split at hs
    · rename_i r p hph hp
      split at hs <;> cases hs
      rename_i hle
      exact .inr (.inr ⟨upTo, r, p, rfl, hph, hp, hle, rfl⟩)
    · cases hs

/-- **What an answer in hand passes** below the mount of its poll was in it, or was withheld. -/
theorem Inv.mem_of_lt_next (h : s.Inv classOf) {r : Response} (hph : s.phase = .holding r) {p : ℕ}
    (hp : s.position = some p) {x : ℕ × RecEnc} (hx : x ∈ s.commands.entries) (hle : p ≤ x.1)
    (hlt : x.1 < r.answer.next) (hfor : forChild classOf r.mount x.2.topic) :
    (∃ y ∈ r.answer.records, y.1 = x.1) ∨ x.1 ∈ s.withheld := by
  obtain ⟨-, q, hq, hpage⟩ := h.responses r (h.held r (hph ▸ rfl)).mem
  obtain ⟨-, p', hp', hqp⟩ := h.requests q (mem_of_getElem? hq)
  obtain rfl := some.inj (hp.symm.trans hp')
  exact hpage.covers x hx hfor (hqp.trans hle) hlt

end Link

end Colca.Downlink
