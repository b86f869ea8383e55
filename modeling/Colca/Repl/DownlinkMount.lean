import Colca.Repl.DownlinkLink
import Colca.Uns.Elements

/-!
# Downlink polls while the child's mount moves

A child is bound to an element, and its mount is where the element stands. A poll resolves the mount when
it arrives and reads with it until it answers, however long it is held. A command that is stored below the
mount the child has by then, and not below the one the poll arrived with, is crossed as if it were not for
the child, and the position that the poll hands back is past it: `moved_mount_loses` is such a run.

Apart from that nothing is lost (`passes_of_reach`): when the child takes a position from an answer, what it
passes below its present mount was in an answer it received, or was not forwarded, or is gone by retention,
provided that what the parent had stored below the present mount when it answered lies below the mount of
the poll as well. The condition holds in particular when the element stands where it stood when the poll
arrived.
-/

namespace Colca.DownlinkMount

open Uns Downlink Option

structure Config where
  /-- The engine's classes of contracts. -/
  classOf : String → Uns.Class
  /-- The element the child is bound to. -/
  element : String
  /-- The `expires_at` of a payload. -/
  deadline : Payload → Option ℤ

/-- A parent, a child, and the elements the parent has placed. -/
structure State where
  link : Link := {}
  index : ElementIndex := {}
  now : ℤ := 0
  /-- The offsets of commands that lay below the child's mount when they were stored. -/
  storedBelow : List ℕ := []

inductive Event
  /-- The parent's stream grows, or loses its old end. -/
  | append (e : RecEnc)
  | prune (upTo : ℕ)
  | tick (d : ℕ)
  /-- An element record is stored at a path; a move is one at the new path and a tombstone at the old. -/
  | observe (path : Path) (id : String)
  /-- A poll reaches the parent; a child whose element is not placed is refused. -/
  | arrive (id : ℕ)
  /-- A poll is answered without the commands at the offsets `refused`. -/
  | answer (i : ℕ) (refused : List ℕ)
  | link (e : Link.Event)

namespace State

variable (cfg : Config) (s : State)

/-- The child's mount. -/
def mount : Option Path := s.index.pathOf cfg.element

/-- The record is a command below the child's mount. -/
def below (e : RecEnc) : Bool := (s.mount cfg).any fun m ↦ forChild cfg.classOf m e.topic

/-- The command may still execute. -/
def live (e : RecEnc) : Bool := (cfg.deadline e.payload).all fun d ↦ decide (s.now ≤ d)

/-- **A command the child must not miss**: it is live, and lay below the child's mount when it was stored
and does so now. -/
def owed (x : ℕ × RecEnc) : Bool :=
  s.live cfg x.2 && s.storedBelow.contains x.1 && s.below cfg x.2

end State

def step (cfg : Config) (s : State) : Event → Option State
  | .append e => some { s with
      link := { s.link with commands := s.link.commands.append e }
      storedBelow := if s.below cfg e then s.storedBelow ++ [s.link.commands.next] else s.storedBelow }
  | .prune upTo => some { s with link := { s.link with commands := s.link.commands.prune upTo } }
  | .tick d => some { s with now := s.now + d }
  | .observe path id => some { s with index := s.index.apply path id }
  | .arrive id => s.link.requests[id]?.bind fun r ↦ (s.mount cfg).map fun m ↦
      { s with link := s.link.arrive id r m }
  | .answer i refused => s.link.polls[i]?.map fun p ↦
      { s with link := s.link.answer cfg.classOf i p fun x ↦ refused.contains x.1 }
  | .link e => (s.link.step cfg.classOf e).map fun l ↦ { s with link := l }

/-- A parent and a child that has not met it yet. -/
def system (cfg : Config) : StateMachine State Event where
  start := {}
  step := step cfg

variable {cfg : Config} {s s' : State}

/-- **Every step keeps the invariant of the link.** -/
theorem inv_step {e : Event} (h : s.link.Inv cfg.classOf) (hs : (system cfg).step s e = some s') :
    s'.link.Inv cfg.classOf := by
  change step cfg s e = some s' at hs
  cases e with
  | append e =>
    cases hs
    exact h.moves (parentMoves_append _ e)
  | prune upTo =>
    cases hs
    exact h.moves (parentMoves_prune _ upTo)
  | tick | observe =>
    cases hs
    exact h
  | arrive id =>
    obtain ⟨r, hr, hs⟩ := bind_eq_some_iff.mp hs
    obtain ⟨m, -, rfl⟩ := map_eq_some_iff.mp hs
    exact h.arrive hr m
  | answer i refused =>
    obtain ⟨p, hp, rfl⟩ := map_eq_some_iff.mp hs
    exact h.answer hp _
  | link e =>
    obtain ⟨l, hl, rfl⟩ := map_eq_some_iff.mp hs
    exact h.step hl

/-! ### What the position passes -/

/-- **A step passes no command the child must not miss**, unless the child received it in an answer or its
forwarding was refused. What retention removed is not in the stream. -/
def PassesNone (cfg : Config) (s s' : State) : Prop :=
  ∀ p ∈ s.link.position, ∀ p' ∈ s'.link.position, ∀ x ∈ s.link.commands.entries, p ≤ x.1 → x.1 < p' →
    s.owed cfg x → x.1 ∈ s'.link.received ∨ x.1 ∈ s'.link.withheld

/-- **The condition**: when the child moves its position, a command it must not miss that was stored when
the parent gave the answer lies below the mount the poll arrived with. -/
def MountHeld (cfg : Config) (s : State) : Event → Prop
  | .link (.advance _) => ∀ r ∈ s.link.phase.inHand.toList, ∀ p ∈ s.link.position.toList,
      ∀ x ∈ s.link.commands.entries, p ≤ x.1 ∧ x.1 < r.head ∧ s.owed cfg x →
        forChild cfg.classOf r.mount x.2.topic
  | _ => True

instance (cfg : Config) (s : State) : ∀ e, Decidable (MountHeld cfg s e)
  | .link (.advance _) => inferInstanceAs (Decidable (∀ r ∈ s.link.phase.inHand.toList, _))
  | .append _ | .prune _ | .tick _ | .observe .. | .arrive _ | .answer .. | .link (.seat _)
  | .link (.ask _) | .link (.confirm _) | .link (.wait _) | .link (.receive _) | .link .keep
  | .link .stop => isTrue trivial

/-- Only the steps of the child move its position. -/
theorem position_eq {e : Event} (hs : (system cfg).step s e = some s') :
    s'.link.position = s.link.position ∨
      ∃ le l, e = .link le ∧ s.link.step cfg.classOf le = some l ∧ s' = { s with link := l } := by
  change step cfg s e = some s' at hs
  cases e with
  | append | prune | tick | observe =>
    cases hs
    exact .inl rfl
  | arrive id =>
    obtain ⟨r, -, hs⟩ := bind_eq_some_iff.mp hs
    obtain ⟨m, -, rfl⟩ := map_eq_some_iff.mp hs
    exact .inl rfl
  | answer i refused =>
    obtain ⟨p, -, rfl⟩ := map_eq_some_iff.mp hs
    exact .inl rfl
  | link e =>
    obtain ⟨l, hl, rfl⟩ := map_eq_some_iff.mp hs
    exact .inr ⟨e, l, rfl, hl, rfl⟩

/-- **In every run whose steps meet the condition no step passes a command the child must not miss.** -/
theorem passes_of_reach {e : Event} (h : (system cfg).Reach (MountHeld cfg) s)
    (hC : MountHeld cfg s e) (hs : (system cfg).step s e = some s') : PassesNone cfg s s' := by
  have hi : s.link.Inv cfg.classOf :=
    h.invariant (I := fun s ↦ s.link.Inv cfg.classOf)
      (Link.inv_of_unused rfl rfl rfl rfl fun _ hp ↦ by cases hp) fun _ _ _ hi _ hs ↦ inv_step hi hs
  intro p hp p' hp' x hx hle hlt howed
  have hpass : s'.link.position ≠ s.link.position := by
    intro heq
    rw [heq] at hp'
    obtain rfl := Option.some.inj (hp.symm.trans hp')
    exact absurd hlt (Nat.not_lt_of_le hle)
  obtain ⟨le, l, rfl, hl, rfl⟩ := (position_eq hs).resolve_left hpass
  rcases Link.step_position hl with heq | hn | ⟨upTo, r, q, rfl, hph, hq, hup, rfl⟩
  · exact absurd heq hpass
  · rw [hn] at hp
    cases hp
  · obtain rfl := Option.some.inj (hq.symm.trans hp)
    obtain rfl := Option.some.inj hp'
    have hheld := hi.held r (hph ▸ rfl)
    have hnext : x.1 < r.answer.next := by omega
    have hhead := (hi.responses r hheld.mem).1
    have hfor : forChild cfg.classOf r.mount x.2.topic :=
      hC r (by simp [hph, Link.Phase.inHand]) q (by simp [hq]) x hx ⟨hle, hnext.trans_le hhead, howed⟩
    refine (hi.mem_of_lt_next hph hq hx hle hnext hfor).imp_left fun ⟨y, hy, heq⟩ ↦ ?_
    exact heq ▸ hheld.received y hy

/-! ### A machine that is moved -/

/-- A child bound to an element `press`; commands have no deadline. -/
def press : Config where
  classOf := classOf
  element := "press"
  deadline _ := none

/-- A command for a path below a hall. -/
def startIn (hall : String) : RecEnc where
  sourceLocalOnly := false
  topic := ["colca", "v1", "_CmdParam", "m1", hall, "start"]
  payload := []
  ts := 0
  by_ := {}
  originOffset := 0
  door := ""
  signalID := ""

/-- The child polls, and is answered with a command. -/
def servedRun : List Event :=
  [.observe ["hall1"] "press", .link (.seat 1), .append (startIn "hall1"), .link (.ask 0), .arrive 0,
    .answer 0 [], .link (.receive 0)]

/-- The step after it takes the child past the command, which it received. -/
theorem served_command_received : ∃ s s', (system press).Reach (MountHeld press) s ∧
    MountHeld press s (.link (.advance 2)) ∧ (system press).step s (.link (.advance 2)) = some s' ∧
    (s.link.position = some 1 ∧ s'.link.position = some 2 ∧ s.owed press (1, startIn "hall1")) ∧
    PassesNone press s s' := by
  obtain ⟨s, hs, hp⟩ := (system press).exists_reach (MountHeld press) servedRun
    (fun s ↦ MountHeld press s (.link (.advance 2)) ∧ (step press s (.link (.advance 2))).any fun s' : State ↦
      decide (s.link.position = some 1 ∧ s'.link.position = some 2 ∧ s.owed press (1, startIn "hall1")))
  obtain ⟨s', hs', ht⟩ := (any_eq_true _ _).mp hp.2
  exact ⟨s, s', hs, hp.1, hs', of_decide_eq_true ht, passes_of_reach hs hp.1 hs'⟩

/-- The machine is moved to another hall while its poll is held, and a command is stored for it there. -/
def movedRun : List Event :=
  [.observe ["hall1"] "press", .link (.seat 1), .link (.ask 0), .arrive 0, .observe ["hall2"] "press",
    .observe ["hall1"] "", .append (startIn "hall2"), .link (.wait 0), .answer 0 [], .link (.receive 0)]

/-- **The poll hands a position past it**, although the command lay below the mount when it was stored and
still does. -/
theorem moved_mount_loses :
    ¬ ∀ s e s', (system press).Reachable s → (system press).step s e = some s' →
      PassesNone press s s' := by
  intro h
  obtain ⟨s, hs, hp⟩ := (system press).exists_reachable movedRun
    (fun s ↦ (step press s (.link (.advance 2))).any fun s' : State ↦
      decide (s.link.position = some 1 ∧ s'.link.position = some 2 ∧
        (1, startIn "hall2") ∈ s.link.commands.entries ∧ s.owed press (1, startIn "hall2") ∧
        1 ∉ s'.link.received ∧ 1 ∉ s'.link.withheld))
  obtain ⟨s', hs', ht⟩ := (any_eq_true _ _).mp hp
  obtain ⟨hp1, hp2, hmem, howed, hrec, hwith⟩ := of_decide_eq_true ht
  exact (h s (.link (.advance 2)) s' hs hs' 1 hp1 2 hp2 _ hmem le_rfl (by decide) howed).elim hrec hwith

end Colca.DownlinkMount
