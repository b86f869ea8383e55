import Colca.Edit.Exec

/-!
# What an edit command overwrites

An edit command compares the versions its caller sent with a snapshot, decides, and appends its records. The
append compares nothing. So what the commit replaces is what the caller had seen only as long as nobody else
writes in between, and the lock of the executor keeps out other edit commands only.

`Undisturbed` says what the others must not do: commit between a snapshot and the decision, or commit between
the decision and the commit at a position the decision is going to write. In such runs every commit replaces
what it was decided on (`commits_replace_seen`). A re-append by retention is always harmless, since it keeps
the version.
-/

namespace Colca.Edit

variable {D : Type}

/-- A commit replaced what its command was required to name, and nothing that came after its snapshot. -/
structure Done.Right (d : Done) : Prop where
  read : readSnapshot d.seenAt = .ok d.sn
  /-- Every version that was required was sent, and if the record is one the commit wrote over, it had that
  version right before. -/
  required : ∀ k ∈ d.required, ∃ v r, d.sent.lookup k = some v ∧ d.sn.recordOf k = some r ∧ r.version = v ∧
    (r.addr ∈ d.wrote → d.before.versionAt r.addr = some v)
  /-- Where the commit wrote, nothing had been written since the snapshot. -/
  kept : ∀ a ∈ d.wrote, d.before.versionAt a = d.seenAt.versionAt a

/-- The position belongs to the command under way: any position between its snapshot and its decision, and
from then on those it is going to write. -/
def Run.Guards (r : Run) (a : Addr) : Prop :=
  match r.phase with
  | .seen _ => True
  | .decided _ plan => a ∈ plan.records.map (·.addr)
  | _ => False

instance (r : Run) (a : Addr) : Decidable (r.Guards a) :=
  match h : r.phase with
  | .seen _ => .isTrue (by simp [Run.Guards, h])
  | .decided _ plan => decidable_of_iff (a ∈ plan.records.map (·.addr)) (by simp [Run.Guards, h])
  | .begun | .halfway _ _ | .finishing _ _ => .isFalse (by simp [Run.Guards, h])

/-- No other writer commits at a position that belongs to the command under way. -/
def Undisturbed (s : State D) (e : Event) : Prop :=
  ∀ x ∈ e.batch s, ∀ r ∈ s.run, ¬ r.Guards x.addr

instance (s : State D) (e : Event) : Decidable (Undisturbed s e) :=
  inferInstanceAs (Decidable (∀ x ∈ e.batch s, ∀ r ∈ s.run, ¬ r.Guards x.addr))

/-- A plan that was decided on a snapshot. -/
structure Decided (binds : String → Bool) (r : Run) (sn : Snapshot) (plan : Plan) : Prop where
  read : readSnapshot r.seenAt = .ok sn
  distinct : r.seenAt.Distinct
  versions : validateSuppliedVersions (r.cmd.sent binds) sn = none
  sent : ∀ k ∈ plan.required, ((r.cmd.sent binds).lookup k).isSome
  identity : ∀ ulid action element, r.cmd.intent = .attachment ulid action element →
    plan.records.map (·.addr) = [identityAddr ulid]

structure Fresh (binds : String → Bool) (s : State D) : Prop where
  distinct : s.kv.Distinct
  /-- Between the snapshot and the decision no version changes. -/
  seen : ∀ r ∈ s.run, ∀ sn, r.phase = .seen sn →
    readSnapshot r.seenAt = .ok sn ∧ r.seenAt.Distinct ∧ ∀ a, s.kv.versionAt a = r.seenAt.versionAt a
  /-- Nor does one where the decision is going to write. -/
  decided : ∀ r ∈ s.run, ∀ sn plan, r.phase = .decided sn plan → Decided binds r sn plan ∧
    ∀ a ∈ plan.records.map (·.addr), s.kv.versionAt a = r.seenAt.versionAt a
  done : ∀ d ∈ s.done, d.Right

variable {binds : String → Bool} {s s' : State D}

/-- A phase in which nothing is guarded. -/
def Phase.isClosed : Phase → Bool
  | .seen _ | .decided _ _ => false
  | _ => true

/-- The command is not between its snapshot and its commit. -/
theorem Fresh.closed (hdist : s.kv.Distinct) (hdone : ∀ d ∈ s.done, d.Right)
    (hrun : ∀ r ∈ s.run, r.phase.isClosed) : Fresh binds s where
  distinct := hdist
  seen := fun r hr sn hp ↦ by
    have hclosed := hrun r hr
    rw [hp] at hclosed
    cases hclosed
  decided := fun r hr sn plan hp ↦ by
    have hclosed := hrun r hr
    rw [hp] at hclosed
    cases hclosed
  done := hdone

variable {sn : Snapshot} {plan : Plan} {kv : KV} {r : Run}

/-- The records change where nothing is guarded. -/
theorem Fresh.keep (h : Fresh binds s) (hdist : kv.Distinct)
    (hver : ∀ r ∈ s.run, ∀ a, r.Guards a → kv.versionAt a = s.kv.versionAt a) (hrun : s'.run = s.run)
    (hdone : s'.done = s.done) (hkv : s'.kv = kv) : Fresh binds s' where
  distinct := hkv ▸ hdist
  seen := fun r hr sn hp ↦ by
    rw [hrun] at hr
    obtain ⟨hread, hd, hv⟩ := h.seen r hr sn hp
    refine ⟨hread, hd, fun a ↦ ?_⟩
    rw [hkv, hver r hr a (by simp [Run.Guards, hp]), hv a]
  decided := fun r hr sn plan hp ↦ by
    rw [hrun] at hr
    obtain ⟨hdec, hv⟩ := h.decided r hr sn plan hp
    refine ⟨hdec, fun a ha ↦ ?_⟩
    rw [hkv, hver r hr a (by simpa [Run.Guards, hp] using ha), hv a ha]
  done := hdone ▸ h.done

/-- A decided plan, committed where nothing changed since the snapshot. -/
theorem Decided.right (h : Decided binds r sn plan)
    {wrote : List Addr} (hv : ∀ a ∈ wrote, kv.versionAt a = r.seenAt.versionAt a) :
    (⟨r.cmd.sent binds, plan.required, sn, wrote, r.seenAt, kv⟩ : Done).Right where
  read := h.read
  required := fun k hk ↦ by
    obtain ⟨v, hsent⟩ := Option.isSome_iff_exists.mp (h.sent k hk)
    obtain ⟨x, hx, hversion⟩ := version_of_validateSuppliedVersions h.versions (mem_of_lookup hsent)
    refine ⟨v, x, hsent, hx, hversion, fun hwrote ↦ ?_⟩
    show kv.versionAt x.addr = some v
    have hget := h.distinct.get (mem_of_recordOf h.read hx)
    rw [hv x.addr hwrote, KV.versionAt, hget, Option.map_some, hversion]
  kept := hv

theorem fresh_settle (h : Fresh binds s) (op : String) (r : Replay D) : Fresh binds (s.settle op r) := by
  obtain ⟨cache, order, -, -, heq⟩ := s.settle_eq op r
  rw [heq]
  exact .closed h.distinct h.done (by simp)

theorem fresh_fail (h : Fresh binds s) (op : String) (d : D) (r : Refusal) :
    Fresh binds (s.fail op d r) := .closed h.distinct h.done (by simp [State.fail, State.answer])

theorem fresh_outside (h : Fresh binds s) {e : Event} (hu : Undisturbed s e) (hs : Outside s e s') :
    Fresh binds s' := by
  cases hs with
  | crash => exact .closed h.distinct h.done (by simp)
  | config | refreshReceipt => exact h.keep h.distinct (fun _ _ _ _ ↦ rfl) rfl rfl rfl
  | append c hothers =>
    refine h.keep (h.distinct.commit s.next (e.batch s)) (fun r hr a hg ↦ ?_) rfl rfl rfl
    refine KV.versionAt_commit_of_notMem fun ha ↦ ?_
    obtain ⟨x, hx, rfl⟩ := List.mem_map.mp ha
    exact hu x hx r hr hg
  | refresh a ha =>
    exact h.keep (h.distinct.refresh s.next a) (fun _ _ _ _ ↦ KV.versionAt_refresh) rfl rfl rfl

variable {digest : Cmd → D}

theorem fresh_decide (h : Fresh binds s) (hr : s.run = some r)
    (hp : r.phase = .seen sn) (other : Plan) (extra : List StateRecord) (deny : Option Refusal) :
    Fresh binds (decideCmd digest binds s r sn other extra deny) := by
  obtain ⟨x, -, heq⟩ | ⟨x, heq⟩ | ⟨message, -, heq⟩ | ⟨plan, more, -, hversions, hplan, hmore, heq⟩ :=
    decideCmd_cases digest binds s r sn other extra deny
  · rw [heq]
    exact .closed h.distinct h.done (by simp [Run.goto, Phase.isClosed])
  · rw [heq]
    exact fresh_settle h _ _
  · rw [heq]
    exact fresh_settle h _ _
  · rw [heq]
    obtain ⟨hread, hdist, hver⟩ := h.seen r hr sn hp
    have hdec : Decided binds (r.goto (.decided sn { plan with records := plan.records ++ more })) sn
        { plan with records := plan.records ++ more } := {
      read := hread
      distinct := hdist
      versions := hversions
      sent := fun k hk ↦ required_sent hplan k hk
      identity := fun ulid action element hintent ↦ by
        have hintent : r.cmd.intent = .attachment ulid action element := hintent
        rw [hintent] at hplan
        rw [hmore (by simp [hintent, Intent.via]), List.append_nil]
        exact (attachment_plan hplan).1 }
    exact { h with
      seen := fun r' hr' sn' hp' ↦ by
        cases hr'
        cases hp'
      decided := fun r' hr' sn' plan' hp' ↦ by
        cases hr'
        cases hp'
        exact ⟨hdec, fun a _ ↦ hver a⟩ }

/-- What the registry writes for an attachment is the identity's record. -/
theorem registryRecords_addr {ulid element : String} {action : AttachAction}
    {records : List StateRecord} (hplan : plan.records.map (·.addr) = [identityAddr ulid])
    (h : registryRecords kv plan (.attachment ulid action element) = some records) :
    records.map (·.addr) = plan.records.map (·.addr) := by
  cases action with
  | drain =>
    simp only [registryRecords] at h
    split at h
    · cases h
      rw [hplan]
      rfl
    · cases h
  | remount =>
    cases h
    rfl

theorem fresh_commitPlan (h : Fresh binds s) (hr : s.run = some r)
    (hp : r.phase = .decided sn plan) (hs : commitPlan digest binds s r sn plan = some s') :
    Fresh binds s' := by
  obtain ⟨hdec, hver⟩ := h.decided r hr sn plan hp
  unfold commitPlan at hs
  dsimp only at hs
  split at hs
  · split at hs
    · cases hs
    · split at hs
      · cases hs
        exact fresh_fail h _ _ _
      · cases hs
        exact .closed (h.distinct.commit _ _) (forall_mem_concat h.done (hdec.right hver))
          (by simp [Run.goto, Phase.isClosed])
  · cases hs
    exact .closed h.distinct h.done (by simp [Run.goto, Phase.isClosed])
  · rename_i hvia
    obtain ⟨records, hrecords, rfl⟩ := Option.map_eq_some_iff.mp hs
    have haddr : records.map (·.addr) = plan.records.map (·.addr) := by
      cases hi : r.cmd.intent with
      | attachment ulid action element =>
        rw [hi] at hrecords
        exact registryRecords_addr (hdec.identity _ _ _ hi) hrecords
      | _ => simp [hi, Intent.via] at hvia
    exact .closed (h.distinct.commit _ _) (forall_mem_concat h.done (hdec.right (haddr ▸ hver)))
      (by simp [Run.goto, Phase.isClosed])

section Step

variable [DecidableEq D]

theorem fresh_beginCmd (h : Fresh binds s) (hrun : s.run = none) (c : Cmd) :
    Fresh binds (beginCmd digest s c) := by
  have hbegun : Fresh binds { s with begun := s.begun ++ [c] } :=
    .closed h.distinct h.done (by simp [hrun])
  unfold beginCmd
  dsimp only
  split
  · exact .closed h.distinct h.done (by simp [State.answer, hrun])
  · split
    · split <;> exact .closed h.distinct h.done (by simp [State.answer, hrun])
    · split
      · exact fresh_settle hbegun _ _
      · exact .closed h.distinct h.done (by simp [Phase.isClosed])

theorem fresh_step (h : Fresh binds s) {e : Event} (hu : Undisturbed s e)
    (hs : step digest binds s e = some s') : Fresh binds s' := by
  cases e with
  | beginCmd c =>
    obtain ⟨hrun, rfl⟩ := step_beginCmd hs
    exact fresh_beginCmd h hrun c
  | snapshot =>
    obtain ⟨r, hr, -, ⟨sn, hsn, rfl⟩ | ⟨x, rfl⟩⟩ := step_snapshot hs
    · exact { h with
        seen := fun r' hr' sn' hp' ↦ by
          cases hr'
          cases hp'
          exact ⟨hsn, h.distinct, fun _ ↦ rfl⟩
        decided := fun r' hr' sn' plan hp' ↦ by
          cases hr'
          cases hp' }
    · exact fresh_fail h _ _ _
  | decide other extra deny =>
    obtain ⟨r, sn, hr, hp, rfl⟩ := step_decide hs
    exact fresh_decide h hr hp other extra deny
  | commit fate =>
    obtain ⟨r, sn, plan, hr, hp, ⟨-, hs⟩ | ⟨x, -, rfl⟩ | ⟨-, x, rfl⟩⟩ := step_commit hs
    · exact fresh_commitPlan h hr hp hs
    · exact fresh_settle h _ _
    · exact fresh_fail h _ _ _
  | receipt ok =>
    obtain ⟨r, message, writes, hr, hp, ⟨-, rfl⟩ | ⟨-, x, rfl⟩⟩ := step_receipt hs
    · exact .closed (by simpa using h.distinct) (by simpa using h.done) (by simp [Run.goto, Phase.isClosed])
    · exact fresh_fail h _ _ _
  | reply =>
    obtain ⟨r, message, writes, -, -, rfl⟩ := step_reply hs
    exact fresh_settle h _ _
  | _ => exact fresh_outside h hu (step_outside rfl hs)

/-- **A commit replaces what its command was decided on**, in every run in which no other writer commits at a
position that belongs to the command under way. -/
theorem commits_replace_seen (digest : Cmd → D) (binds : String → Bool) {s : State D}
    (h : (machine digest binds).Reach Undisturbed s) : ∀ d ∈ s.done, d.Right := by
  have hfresh : Fresh binds s :=
    h.invariant (.closed (by simp [KV.Distinct, machine]) (by simp [machine]) (by simp [machine]))
      fun _ _ _ hI hu hs ↦ fresh_step hI hu hs
  exact hfresh.done

end Step

/-! ### An edit against a configure command -/

/-- An element record. -/
def elementRecord (id name : String) : StateRecord :=
  ⟨⟨.entity .systemElement, ["hall"]⟩, some (.object [("id", .str id), ("name", .str name)])⟩

/-- A person renames the element whose record they read at offset 1. -/
def renameCmd : Cmd :=
  ⟨"op1", [(.entity .systemElement "e1", 1)], .update .systemElement "e1" [("name", .str "Hall 2")]⟩

/-- The node that is bound to no element. -/
abbrev editNode : StateMachine (State Cmd) Event := machine id fun _ ↦ false

/-- A commit took place, and the record it replaced had the version that was sent. -/
def renamedSeen (s : State Cmd) : Bool :=
  s.done.any fun d ↦ d.before.versionAt ⟨.entity .systemElement, ["hall"]⟩ = some 1

theorem rename_replaces_seen :
    ∃ s, editNode.Reach Undisturbed s ∧ renamedSeen s = true ∧ ∀ d ∈ s.done, d.Right := by
  obtain ⟨s, hs, hp⟩ := editNode.exists_reach Undisturbed
    [.door (elementRecord "e1" "Hall"), .beginCmd renameCmd, .snapshot,
      .refresh ⟨.entity .systemElement, ["hall"]⟩, .decide noPlan [] none,
      .door ⟨⟨.entity .signal, ["hall", "speed"]⟩, some (.object [("id", .str "s1")])⟩,
      .commit .done, .reply] (renamedSeen ·)
  exact ⟨s, hs, hp, commits_replace_seen id (fun _ ↦ false) hs⟩

/-- A commit replaced a record with another version than the one that was required and sent. -/
def replacedUnseen (s : State Cmd) : Bool :=
  s.done.any fun d ↦ d.required.any fun k ↦
    match d.sn.recordOf k, d.sent.lookup k with
    | some r, some v => decide (r.addr ∈ d.wrote ∧ d.before.versionAt r.addr ≠ some v)
    | _, _ => false

/-- A configure command renames the element between the decision and the commit of an edit command, and the
edit command overwrites it although its caller never saw it. -/
theorem configure_overwritten : ¬ ∀ s, editNode.Reachable s → ∀ d ∈ s.done, d.Right := by
  intro hall
  obtain ⟨s, hs, hp⟩ := editNode.exists_reachable
    [.door (elementRecord "e1" "Hall"), .beginCmd renameCmd, .snapshot, .decide noPlan [] none,
      .configDecide [elementRecord "e1" "Press shop"], .configCommit true, .commit .done, .reply]
    (replacedUnseen ·)
  obtain ⟨d, hd, hp⟩ := List.any_eq_true.mp hp
  obtain ⟨k, hk, hp⟩ := List.any_eq_true.mp hp
  obtain ⟨v, r, hv, hr, -, himp⟩ := (hall s hs d hd).required k hk
  rw [hr, hv, decide_eq_true_eq] at hp
  exact hp.2 (himp hp.1)

end Colca.Edit
