import Colca.Repl.ExactlyOnce

/-!
# A parent restored from a backup

The parent's store may be replaced by an earlier copy of itself at any point. The copy is behind what
the child was told is stored, and a push that is let in nevertheless moves the mark over everything
the copy lacks.

The handshake is there to refuse such a push, and `markCovers_of_reach` says when it does: a push that
finds the mark below the one its cursor rests on must **show** it (`ShowsRegression`). The parent must
have the child's store and a mark of the stream on record, for otherwise the stated mark is compared
with nothing, and the stated mark must be the one the cursor rests on. `undetected_restore_loses` has
a run for each way to miss that.
-/

namespace Colca.Uplink

open Uns Incarnation

/-- An offset lies in one of the listed gaps of a stream. -/
def InGap (gaps : List ResyncGap) (st : Stream) (o : ℕ) : Prop :=
  ∃ g ∈ gaps, g.stream = st ∧ g.fromOffset ≤ o ∧ o ≤ g.toOffset

/-- The parent's mark of a stream has not moved past a record that is to reach it and that the child
still retains, unless the parent's store holds it, it was set aside, or the child's last re-sync lists
it as lost. -/
def MarkCovers (cfg : Config) (s : Sys) (st : Stream) : Prop :=
  ∀ x ∈ (s.child.lanes st).log.entries, cfg.rises st x.2 → x.1 ≤ s.parent.mark cfg st →
    cfg.stored x ∈ s.parent.held st ∨ (s.child.lanes st).IsSetAside x.1 ∨
      InGap s.child.gaps st x.1

/-- The parent has something to compare the mark stated in a push with. -/
def Parent.OnRecord (cfg : Config) (p : Parent) (req : Request) : Prop :=
  p.childStore = some req.env.store ∧ 0 < p.mark cfg req.env.stream

/-- The push rests on a mark the parent's store has not reached, and does not name another incarnation
of it. -/
def Parent.IsBehind (cfg : Config) (p : Parent) (req : Request) : Prop :=
  (req.env.parent = none ∨ req.env.parent = some p.storeID) ∧
    p.mark cfg req.env.stream < req.base

instance (cfg : Config) (p : Parent) (req : Request) : Decidable (p.OnRecord cfg req) :=
  inferInstanceAs (Decidable (_ ∧ _))

instance (cfg : Config) (p : Parent) (req : Request) : Decidable (p.IsBehind cfg req) :=
  inferInstanceAs (Decidable (_ ∧ _))

/-- A push that arrives at a store that is behind finds its stream on record there. -/
def FindsRecord (cfg : Config) (s : Sys) : Event → Prop
  | .arrivePush id _ => ∀ req ∈ s.pushes[id]?, s.parent.IsBehind cfg req → s.parent.OnRecord cfg req
  | _ => True

/-- A push that arrives at a store that is behind finds its stream on record there, and states no
lower mark than the one its cursor rests on. -/
def ShowsRegression (cfg : Config) (s : Sys) : Event → Prop
  | .arrivePush id _ => ∀ req ∈ s.pushes[id]?, s.parent.IsBehind cfg req →
    s.parent.OnRecord cfg req ∧ req.base ≤ req.env.acked
  | _ => True

instance (cfg : Config) (s : Sys) (e : Event) : Decidable (FindsRecord cfg s e) := by
  cases e <;> unfold FindsRecord <;> infer_instance

instance (cfg : Config) (s : Sys) (e : Event) : Decidable (ShowsRegression cfg s e) := by
  cases e <;> unfold ShowsRegression <;> infer_instance

section Run

variable {cfg : Config} {s : Sys} {e : Event}

/-- **What the handshake is worth.** A push whose stream is on record and that is let in states no
higher mark than the parent has. -/
theorem acked_le_mark_of_judged {p : Parent} {fresh : ℕ} {req : Request}
    (hrec : p.OnRecord cfg req) (hup : isUplinkStream req.env.stream)
    (h : (p.judged cfg fresh req.env.parent req.env.position).1 = false) :
    req.env.acked ≤ p.mark cfg req.env.stream := by
  obtain ⟨hahead, -⟩ := judge_eq_proceed h
  have hview : (p.view cfg).hwm req.env.stream = p.mark cfg req.env.stream := p.store.hwmGet_eq _
  have hle := acked_le_of_not_ahead hahead rfl hrec.1 hup (hview ▸ hrec.2)
  simpa [hview, Envelope.position] using hle

/-- A push that shows a regression is not let in by a store that is behind. -/
theorem ShowsRegression.sound (h : ShowsRegression cfg s e) : Sound cfg s e := by
  cases e with
  | arrivePush id gate =>
    intro req hreq hup hjudged
    by_contra hlt
    push Not at hlt
    obtain ⟨hrec, hbase⟩ := h req hreq ⟨(judge_eq_proceed hjudged).2, hlt⟩
    have hle := acked_le_mark_of_judged hrec hup hjudged
    omega
  | _ => trivial

/-- **A restored parent never loses sight of what it lacks**, in every state of every run in which
each push that reaches a store behind it shows so. -/
theorem markCovers_of_reach (cfg : Config) {s : Sys}
    (h : (system cfg).Reach (ShowsRegression cfg) s) (st : Stream) : MarkCovers cfg s st := by
  obtain ⟨cap, hi⟩ : ∃ cap, Inv cfg cap s :=
    h.invariant (I := fun s ↦ ∃ cap, Inv cfg cap s) ⟨_, Inv.start cfg⟩
      fun _ _ _ ⟨_, hi⟩ he hs ↦ ⟨_, hi.step he.sound hs⟩
  intro x hx hr hle
  rcases hi.parent.holds.stored_of_le hx hr hle with hst | hset
  · exact .inl hst
  · exact .inr (.inl hset)

end Run

/-! ### Runs with a restore -/

/-- A record is appended to the alarms lane, pushed as request `id`, stored and confirmed by answer
`k`. -/
def storesAlarm (id k : ℕ) : List Event :=
  [.append .alarms alarmChange] ++ alarmsPass id ++ [.commit, .receivePush k 0]

/-- A copy is taken after the first record and put back after the second. The third push states the
mark of the second, and is refused: the child says hello and sends the lost range again. -/
def detectedRun : List Event :=
  storesAlarm 0 0 ++ [.snapshot] ++ storesAlarm 1 1 ++ [.restore 0, .append .alarms alarmChange] ++
    alarmsPass 2 ++ [.receivePush 2 0] ++ firstHello ++ alarmsPass 3 ++ [.commit, .receivePush 3 0]

/-- The copy was taken before the first record. The restored store has no mark to compare with. -/
def unmarkedRun : List Event :=
  [.snapshot] ++ storesAlarm 0 0 ++ [.restore 0] ++ storesAlarm 1 1

/-- A re-sync between the reading of the cursor and the sending of the batch. The push rests on the
old cursor and states the new mark, and it names no incarnation, for the child had recorded none. -/
def resyncBetweenRun : List Event :=
  storesAlarm 0 0 ++ [.snapshot] ++ storesAlarm 1 1 ++ [.restore 0, .append .alarms alarmChange] ++
    [.startPush .alarms, .readCursor, .readPage] ++ firstHello ++
    [.sendBatch, .arrivePush 2 .pass, .commit]

/-- The run with a restore that is detected: all three records reach the restored store. -/
theorem detected_restore_covered :
    ∃ s, (system (edge 1000)).Reach (ShowsRegression (edge 1000)) s ∧
      s.parent.mark (edge 1000) .alarms = 3 ∧ (s.parent.held .alarms).length = 3 ∧
      MarkCovers (edge 1000) s .alarms := by
  obtain ⟨s, hs, hp⟩ := (system (edge 1000)).exists_reach (ShowsRegression (edge 1000)) detectedRun
    (fun s ↦ s.parent.mark (edge 1000) .alarms = 3 ∧ (s.parent.held .alarms).length = 3)
  exact ⟨s, hs, hp.1, hp.2, markCovers_of_reach _ hs _⟩

/-- What a run has to show to refute `MarkCovers`: a retained alarm at or below the mark that the
parent does not hold. -/
def Sys.losesAlarm (cfg : Config) (s : Sys) (o : ℕ) : Bool :=
  decide ((o, alarmChange) ∈ (s.child.lanes .alarms).log.entries) &&
    decide (o ≤ s.parent.mark cfg .alarms) &&
    decide (cfg.stored (o, alarmChange) ∉ s.parent.held .alarms) &&
    decide ((s.child.lanes .alarms).setAside = []) && decide (s.child.gaps = [])

theorem not_markCovers_of_losesAlarm {s : Sys} {o : ℕ} (h : s.losesAlarm (edge 1000) o = true) :
    ¬ MarkCovers (edge 1000) s .alarms := by
  simp only [Sys.losesAlarm, Bool.and_eq_true, decide_eq_true_eq] at h
  obtain ⟨⟨⟨⟨hmem, hle⟩, hheld⟩, hset⟩, hgaps⟩ := h
  intro hcov
  have hrises : (edge 1000).rises .alarms alarmChange := by decide +kernel
  rcases hcov _ hmem hrises hle with h | ⟨x, hx, -⟩ | ⟨g, hg, -⟩
  · exact hheld h
  · rw [hset] at hx
    cases hx
  · rw [hgaps] at hg
    cases hg

/-- A restore that is not detected moves the mark past what the restored store lacks: when the store
has no mark of the stream, and, even where every push finds its stream on record, when a re-sync falls
between the cursor and the mark of a push. -/
theorem undetected_restore_loses :
    (¬ ∀ (cfg : Config) (s : Sys), (system cfg).Reachable s → ∀ st, MarkCovers cfg s st) ∧
    ¬ ∀ (cfg : Config) (s : Sys), (system cfg).Reach (FindsRecord cfg) s →
      ∀ st, MarkCovers cfg s st := by
  constructor
  · intro h
    obtain ⟨s, hs, hp⟩ := (system (edge 1000)).exists_reachable unmarkedRun (Sys.losesAlarm (edge 1000) · 1)
    exact not_markCovers_of_losesAlarm hp (h _ s hs .alarms)
  · intro h
    obtain ⟨s, hs, hp⟩ := (system (edge 1000)).exists_reach (FindsRecord (edge 1000)) resyncBetweenRun
      (Sys.losesAlarm (edge 1000) · 2)
    exact not_markCovers_of_losesAlarm hp (h _ s hs .alarms)

end Colca.Uplink
