import Colca.Edit.Exec
import Colca.Lib.RecentLog

/-!
# What is remembered of an edit operation

An operation is known by its id. What the executor remembers of it is in two places: the in-process cache has
the answers of this process, and a receipt in the store has the answers that came with a commit. A state
intent commits its receipt in the same batch as its records, so there the store cannot have one without the
other. Annotations and node attachments commit the receipt afterwards.

`Window` is the retry window. `Recalled` says what else has to be so when an operation comes again:

* if nothing is known of it any more (no receipt was committed, and the cache was lost), it comes with the
  payload it had, it was never answered with 200, and what it committed is a node attachment;
* if retention has appended receipts again, the operation's own receipt is still there, at the offset it was
  committed at unless it has its coordinates in it.

Then the records of an operation are committed at most once, a retry gets the answer it got, and another
payload under the same id gets a conflict (`Once`).

`Inv` is the invariant behind that. As long as receipts are not moved the kept ones are the last of all
receipts, which is what `RecentLog` is about. Here are the answers to commands, and what becomes of a command
that comes (again).
-/

namespace Colca.Edit

open RecentLog List

variable {D : Type}

/-! ### The condition -/

/-- The command an event begins. -/
def Event.begins : Event → Option Cmd
  | .beginCmd c => some c
  | _ => none

namespace State

variable (s : State D)

/-- The operations in the order in which they began. -/
def ops : List String := s.begun.map (·.op)

/-- The command an operation came with first. -/
def first (op : String) : Option Cmd := s.begun.find? (·.op = op)

/-- No receipt was ever committed for the operation. -/
def Unlogged (op : String) : Prop := ∀ rc ∈ s.log, rc.op ≠ op

instance (op : String) : Decidable (s.Unlogged op) :=
  inferInstanceAs (Decidable (∀ rc ∈ s.log, rc.op ≠ op))

/-- Neither a receipt nor the cache knows of the operation. -/
def Forgot (op : String) : Prop := s.Unlogged op ∧ (s.cache.lookup op).isNone

instance (op : String) : Decidable (s.Forgot op) :=
  inferInstanceAs (Decidable (s.Unlogged op ∧ (s.cache.lookup op).isNone))

end State

/-- Fewer than `editReplayLimit` other operations lie between an operation and its retry. -/
def Window (s : State D) (e : Event) : Prop :=
  ∀ c ∈ e.begins, c.op ∈ s.ops → (others s.ops c.op).length < editReplayLimit

instance (s : State D) (e : Event) : Decidable (Window s e) :=
  inferInstanceAs (Decidable (∀ c ∈ e.begins, c.op ∈ s.ops →
    (others s.ops c.op).length < editReplayLimit))

/-- A forgotten operation comes with the payload it had, had no effect that was told, and what it committed
the registry can tell. -/
def Harmless (digest : Cmd → D) (s : State D) (c : Cmd) : Prop :=
  (∀ x ∈ s.first c.op, digest x = digest c) ∧ (∀ a ∈ s.answers, a.op = c.op → a.code ≠ 200) ∧
    ∀ x ∈ s.committed, x.op = c.op → x.intent.via = .registry ∧ x = c

/-- The operation's receipt still stands where it was committed, or has its coordinates in it. -/
def Intact (s : State D) (op : String) : Prop :=
  ∀ rc ∈ s.log, rc.op = op → ∃ rc' ∈ s.receipts, rc'.op = op ∧ (rc'.offset = rc.offset ∨ rc.writes ≠ [])

def Recalled (digest : Cmd → D) (s : State D) (c : Cmd) : Prop :=
  (s.Forgot c.op → Harmless digest s c) ∧
    (s.moved = true → (s.cache.lookup c.op).isNone → Intact s c.op)

def Kept (digest : Cmd → D) (s : State D) (e : Event) : Prop :=
  Window s e ∧ ∀ c ∈ e.begins, Recalled digest s c

section Decidable

variable [DecidableEq D]

instance (digest : Cmd → D) (s : State D) (c : Cmd) : Decidable (Harmless digest s c) :=
  inferInstanceAs (Decidable ((∀ x ∈ s.first c.op, digest x = digest c) ∧
    (∀ a ∈ s.answers, a.op = c.op → a.code ≠ 200) ∧
    ∀ x ∈ s.committed, x.op = c.op → x.intent.via = .registry ∧ x = c))

instance (s : State D) (op : String) : Decidable (Intact s op) :=
  inferInstanceAs (Decidable (∀ rc ∈ s.log, rc.op = op →
    ∃ rc' ∈ s.receipts, rc'.op = op ∧ (rc'.offset = rc.offset ∨ rc.writes ≠ [])))

instance (digest : Cmd → D) (s : State D) (c : Cmd) : Decidable (Recalled digest s c) :=
  inferInstanceAs (Decidable ((s.Forgot c.op → Harmless digest s c) ∧
    (s.moved = true → (s.cache.lookup c.op).isNone → Intact s c.op)))

instance (digest : Cmd → D) (s : State D) (e : Event) : Decidable (Kept digest s e) :=
  inferInstanceAs (Decidable (Window s e ∧ ∀ c ∈ e.begins, Recalled digest s c))

end Decidable

/-! ### What is shown -/

/-- The later answer to the same payload repeats a 200. -/
def Answer.Repeats (a b : Answer D) : Prop :=
  a.op = b.op → a.digest = b.digest → a.code = 200 → b = a

/-- **Edit operations take effect once.** -/
structure Once [DecidableEq D] (digest : Cmd → D) (s : State D) : Prop where
  /-- The records of an operation are committed at most once. -/
  committed : (s.committed.map (·.op)).Nodup
  /-- A retry is told the code, the message and the coordinates of the first 200. -/
  answers : s.answers.Pairwise Answer.Repeats
  /-- Another payload than the operation's gets a conflict, and nothing is written. -/
  conflict : ∀ c, s.run = none → Kept digest s (.beginCmd c) → ∀ x, s.first c.op = some x →
    digest x ≠ digest c → ∃ cache, beginCmd digest s c = { s with
      begun := s.begun ++ [c], cache := cache
      answers := s.answers ++ [⟨c.op, digest c, 409, "idempotency_conflict", []⟩] }

/-! ### The invariant -/

/-- The records have versions below the next offset, and those of identities name themselves. -/
structure Identities (kv : KV) (next : ℕ) : Prop where
  version : ∀ r ∈ kv, r.version < next
  names : ∀ r ∈ kv, r.addr.contract = .enrolledIdentity →
    ∃ f, r.payload = .object f ∧ r.addr = identityAddr (textOf (f.get "ulid"))

/-- The version an attachment command sent is used up. -/
def Superseded (binds : String → Bool) (kv : KV) (next : ℕ) (c : Cmd) : Prop :=
  ∀ ulid action element, c.intent = .attachment ulid action element →
    ∃ v, (c.sent binds).lookup (.attachment ulid) = some v ∧ v < next ∧
      ∀ r ∈ kv, r.addr = identityAddr ulid → v < r.version

/-- A decided attachment writes the identity's record over a version below the next offset. -/
structure Attaches (sent : Expected) (next : ℕ) (plan : Plan) (ulid : String) : Prop where
  addr : plan.records.map (·.addr) = [identityAddr ulid]
  names : ∀ x ∈ plan.records, x.Names
  sent : ∃ v, sent.lookup (.attachment ulid) = some v ∧ v < next

def Phase.isFinishing : Phase → Bool
  | .finishing _ _ => true
  | _ => false

/-- Nothing is decided yet. -/
def Phase.isEarly : Phase → Bool
  | .begun | .seen _ => true
  | _ => false

/-- The operation came first with a payload of this digest. -/
def State.Of (digest : Cmd → D) (s : State D) (op : String) (d : D) : Prop :=
  ∃ x, s.first op = some x ∧ digest x = d

/-- The command under way. -/
structure Running (digest : Cmd → D) (binds : String → Bool) (s : State D) (r : Run) : Prop where
  last : ∃ pre, s.ops = pre ++ [r.cmd.op]
  payload : s.Of digest r.cmd.op (digest r.cmd)
  uncached : ∀ x ∈ s.cache, x.1 ≠ r.cmd.op
  unlogged : r.phase.isFinishing = false → s.Unlogged r.cmd.op
  early : r.phase.isEarly = true → ∀ x ∈ s.committed, x.op = r.cmd.op →
    x.intent.via = .registry ∧ x = r.cmd
  seen : ∀ sn, r.phase = .seen sn → readSnapshot r.seenAt = .ok sn ∧ Identities r.seenAt s.next ∧
    ∀ x ∈ s.committed, Superseded binds r.seenAt s.next x
  decided : ∀ sn plan, r.phase = .decided sn plan → (∀ x ∈ s.committed, x.op ≠ r.cmd.op) ∧
    ∀ ulid action element, r.cmd.intent = .attachment ulid action element →
      Attaches (r.cmd.sent binds) s.next plan ulid
  finishing : ∀ message writes, r.phase = .finishing message writes →
    ∃ rc ∈ s.log, rc.op = r.cmd.op ∧ rc.replay = some ⟨digest r.cmd, 200, message, writes⟩

/-- What an answer says again. -/
def Answer.replay (a : Answer D) : Replay D := ⟨a.digest, a.code, a.message, a.writes⟩

/-- A 200 has a receipt, or it wrote nothing and the cache can only have that answer. -/
def Told (s : State D) (a : Answer D) : Prop :=
  (∃ rc ∈ s.log, rc.op = a.op ∧ rc.replay = some a.replay) ∨
  (s.Unlogged a.op ∧ (∀ x ∈ s.cache, x.1 = a.op → x.2 = a.replay) ∧ ∀ r ∈ s.run, r.cmd.op ≠ a.op)

/-- The receipts against the log of all receipts. -/
structure Receipts (s : State D) : Prop where
  nodup : (s.log.map (·.op)).Nodup
  distinct : (s.receipts.map (·.op)).Nodup
  /-- A kept receipt is one of the log, and may stand elsewhere. -/
  logged : ∀ rc ∈ s.receipts, ∃ rc₀ ∈ s.log, rc = { rc₀ with offset := rc.offset }
  recent : s.moved = false →
    Recent (fun rc : Receipt D ↦ rc.op) editReplayLimit s.ops s.log s.receipts

structure Inv (digest : Cmd → D) (binds : String → Bool) (s : State D) : Prop where
  pos : 0 < s.next
  receipts : Receipts s
  readable : ∀ rc ∈ s.log, s.Of digest rc.op rc.digest ∧
    ∃ message writes, rc.replay = some ⟨rc.digest, 200, message, writes⟩
  keys : (s.cache.map (·.1)).Nodup
  cached : ∀ x ∈ s.cache, s.Of digest x.1 x.2.digest ∧ ∀ rc ∈ s.log, rc.op = x.1 → rc.replay = some x.2
  running : ∀ r ∈ s.run, Running digest binds s r
  told : ∀ a ∈ s.answers, a.code = 200 → Told s a
  repeats : s.answers.Pairwise Answer.Repeats
  identities : Identities s.kv s.next
  superseded : ∀ x ∈ s.committed, Superseded binds s.kv s.next x
  once : (s.committed.map (·.op)).Nodup

variable {digest : Cmd → D} {binds : String → Bool} {s s' : State D}

theorem editReplayLimit_pos : 0 < editReplayLimit := by
  unfold editReplayLimit
  decide

/-! ### Payloads and receipts -/

variable {op : String} {d : D}

theorem State.Of.unique {d' : D} (h : s.Of digest op d) (h' : s.Of digest op d') : d = d' := by
  obtain ⟨x, hx, rfl⟩ := h
  obtain ⟨x', hx', rfl⟩ := h'
  rw [Option.some.inj (hx.symm.trans hx')]

/-- The payload an operation came with first stays the same when more commands begin. -/
theorem State.Of.mono (h : s.Of digest op d) {more : List Cmd}
    (hbegun : s'.begun = s.begun ++ more) : s'.Of digest op d := by
  obtain ⟨x, hx, hd⟩ := h
  refine ⟨x, ?_, hd⟩
  rw [State.first] at hx ⊢
  rw [hbegun, find?_append, hx]
  rfl

theorem State.Of.mem_ops (h : s.Of digest op d) : op ∈ s.ops := by
  obtain ⟨x, hx, -⟩ := h
  have hop : x.op = op := by simpa using find?_some hx
  exact mem_map.mpr ⟨x, mem_of_find?_eq_some hx, hop⟩

theorem State.not_unlogged (h : ¬ s.Unlogged op) : ∃ rc ∈ s.log, rc.op = op := by
  simpa [State.Unlogged] using h

/-- Receipts of one operation are one. -/
theorem Receipts.unique (h : Receipts s) {a b : Receipt D} (ha : a ∈ s.log) (hb : b ∈ s.log)
    (hop : a.op = b.op) : a = b :=
  inj_on_of_nodup_map h.nodup ha hb hop

/-- A receipt that stands elsewhere says the same if it has its coordinates. -/
theorem replay_eq_of_offset (rc : Receipt D) {off : ℕ} (h : off = rc.offset ∨ rc.writes ≠ []) :
    ({ rc with offset := off } : Receipt D).replay = rc.replay := by
  rcases h with rfl | h
  · rfl
  · simp [Receipt.replay, h]

variable {c : Cmd}

/-- What an operation's receipt says when the operation comes again within the window. -/
theorem Inv.found (h : Inv digest binds s) (hw : Window s (.beginCmd c))
    (hrec : Recalled digest s c) (hnone : (s.cache.lookup c.op).isNone) {rc : Receipt D}
    (hrc : rc ∈ s.log) (hop : rc.op = c.op) :
    ∃ rc', s.receipts.find? (·.op = c.op) = some rc' ∧ rc'.replay = rc.replay := by
  -- the one receipt of the operation that is kept
  have hpick : ∀ rc' ∈ s.receipts, rc'.op = c.op → s.receipts.find? (·.op = c.op) = some rc' := by
    intro rc' hrc' hop'
    obtain ⟨rc'', hfind⟩ : ∃ rc'', s.receipts.find? (·.op = c.op) = some rc'' := by
      rw [← Option.isSome_iff_exists, find?_isSome]
      exact ⟨rc', hrc', by simpa using hop'⟩
    have hop'' : rc''.op = c.op := by simpa using find?_some hfind
    rw [hfind, inj_on_of_nodup_map h.receipts.distinct (mem_of_find?_eq_some hfind) hrc'
      (hop''.trans hop'.symm)]
  cases hmoved : s.moved with
  | false =>
    have hops : c.op ∈ s.ops := hop ▸ (h.readable rc hrc).1.mem_ops
    have hfew : (others s.ops rc.op).length < editReplayLimit := hop ▸ hw c rfl hops
    exact ⟨rc, hpick rc ((h.receipts.recent hmoved).mem_kept hrc hfew) hop, rfl⟩
  | true =>
    obtain ⟨rc', hrc', hop', hsame⟩ := hrec.2 hmoved hnone rc hrc hop
    obtain ⟨rc₀, hrc₀, heq⟩ := h.receipts.logged rc' hrc'
    have hop₀ : rc₀.op = rc'.op := by rw [heq]
    have hrc₀ : rc₀ = rc := h.receipts.unique hrc₀ hrc (hop₀.trans (hop'.trans hop.symm))
    subst hrc₀
    refine ⟨rc', hpick rc' hrc' hop', ?_⟩
    rw [heq]
    exact replay_eq_of_offset rc₀ hsame

/-! ### Answers -/

variable {b : Answer D}

/-- An answer is added that repeats what was said before. -/
theorem repeats_append (h : s.answers.Pairwise Answer.Repeats) (hb : ∀ a ∈ s.answers, a.Repeats b) :
    (s.answers ++ [b]).Pairwise Answer.Repeats := by
  rw [pairwise_append]
  refine ⟨h, pairwise_singleton _ _, fun a ha x hx ↦ ?_⟩
  rw [mem_singleton.mp hx]
  exact hb a ha

/-- The answer says what a 200 said. -/
theorem eq_of_replay_eq {a : Answer D} (hop : a.op = b.op) (h : a.replay = b.replay) : b = a := by
  obtain ⟨op, d, code, message, writes⟩ := a
  obtain ⟨op', d', code', message', writes'⟩ := b
  simp only [Answer.replay, Replay.mk.injEq] at h
  obtain ⟨rfl, rfl, rfl, rfl⟩ := h
  cases hop
  rfl

variable {r : Run}

/-- **The command under way is answered.** What is cached of it is that answer, and its receipt, if it has
one, says the same. -/
theorem Inv.close (h : Inv digest binds s) (hr : s.run = some r)
    {cache : List (String × Replay D)} {order : List String} (hop : b.op = r.cmd.op)
    (hdigest : b.digest = digest r.cmd)
    (hcache : ∀ x ∈ cache, x = (b.op, b.replay) ∨ x ∈ s.cache ∧ x.1 ≠ b.op)
    (hkeys : (cache.map (·.1)).Nodup) (hlog : ∀ rc ∈ s.log, rc.op = b.op → rc.replay = some b.replay) :
    Inv digest binds { s with run := none, cache := cache, order := order, answers := s.answers ++ [b] } :=
  { h with
    receipts := { h.receipts with }
    keys := hkeys
    cached := fun x hx ↦ by
      rcases hcache x hx with rfl | ⟨hx, -⟩
      · refine ⟨?_, hlog⟩
        rw [hop, Answer.replay, hdigest]
        exact (h.running r hr).payload
      · exact h.cached x hx
    running := by simp
    told := fun a ha hcode ↦ by
      rcases mem_append.mp ha with ha | ha
      · rcases h.told a ha hcode with hlogged | ⟨hun, hca, hrun⟩
        · exact .inl hlogged
        · refine .inr ⟨hun, fun x hx hxop ↦ ?_, by simp⟩
          rcases hcache x hx with rfl | ⟨hx, -⟩
          · exact absurd (hop.symm.trans hxop) (hrun r hr)
          · exact hca x hx hxop
      · rw [mem_singleton.mp ha]
        by_cases hun : s.Unlogged b.op
        · refine .inr ⟨hun, fun x hx hxop ↦ ?_, by simp⟩
          rcases hcache x hx with rfl | ⟨-, hne⟩
          · rfl
          · exact absurd hxop hne
        · obtain ⟨rc, hrc, hrop⟩ := State.not_unlogged hun
          exact .inl ⟨rc, hrc, hrop, hlog rc hrc hrop⟩
    repeats := by
      refine repeats_append h.repeats fun a ha heq _ hcode ↦ ?_
      rcases h.told a ha hcode with ⟨rc, hrc, hrop, hreplay⟩ | ⟨-, -, hrun⟩
      · have hb := hlog rc hrc (hrop.trans heq)
        exact eq_of_replay_eq heq (Option.some.inj (hreplay.symm.trans hb))
      · exact absurd (hop.symm.trans heq.symm) (hrun r hr) }

variable {rp : Replay D}

/-- It is answered, and the answer is remembered. -/
theorem Inv.settle (h : Inv digest binds s) (hr : s.run = some r) (hdigest : rp.digest = digest r.cmd)
    (hlog : ∀ rc ∈ s.log, rc.op = r.cmd.op → rc.replay = some rp) :
    Inv digest binds (s.settle r.cmd.op rp) := by
  obtain ⟨cache, order, hcache, hkeys, heq⟩ := s.settle_eq r.cmd.op rp
  rw [heq]
  exact h.close hr (b := ⟨r.cmd.op, rp.digest, rp.code, rp.message, rp.writes⟩) rfl hdigest hcache
    (hkeys h.keys) hlog

/-- A command without a receipt is answered, and the answer is remembered. -/
theorem Inv.refuse (h : Inv digest binds s) (hr : s.run = some r)
    (hdigest : rp.digest = digest r.cmd) (hphase : r.phase.isFinishing = false) :
    Inv digest binds (s.settle r.cmd.op rp) :=
  h.settle hr hdigest fun rc hrc hop ↦ absurd hop ((h.running r hr).unlogged hphase rc hrc)

/-- It is answered, and the answer is not remembered. -/
theorem Inv.fail (h : Inv digest binds s) (hr : s.run = some r) (x : Refusal)
    (hphase : r.phase.isFinishing = false) : Inv digest binds (s.fail r.cmd.op (digest r.cmd) x) := by
  have hrun := h.running r hr
  exact h.close hr (b := ⟨r.cmd.op, digest r.cmd, x.why.code, x.message, []⟩) rfl rfl
    (fun y hy ↦ .inr ⟨hy, hrun.uncached y hy⟩) h.keys
    fun rc hrc hop ↦ absurd hop (hrun.unlogged hphase rc hrc)

/-! ### Beginning -/

/-- Another command begins. -/
theorem Receipts.next (h : Receipts s) (hlog : s'.log = s.log) (hrec : s'.receipts = s.receipts)
    (hmoved : s'.moved = s.moved) (hbegun : s'.begun = s.begun ++ [c]) : Receipts s' where
  nodup := hlog ▸ h.nodup
  distinct := hrec ▸ h.distinct
  logged := hlog ▸ hrec ▸ h.logged
  recent := fun hm ↦ by
    have hrecent := (h.recent (hmoved.symm.trans hm)).next c.op
    have hops : s'.ops = s.ops ++ [c.op] := by simp [State.ops, hbegun]
    rw [hlog, hrec, hops]
    exact hrecent

/-- **An unknown operation begins.** -/
theorem Inv.start (h : Inv digest binds s) (hw : Window s (.beginCmd c))
    (hrec : Recalled digest s c) (hnone : s.cache.lookup c.op = none)
    (hfind : s.receipts.find? (·.op = c.op) = none) :
    Inv digest binds { s with begun := s.begun ++ [c], run := some ⟨c, .begun, []⟩ } := by
  have hun : s.Unlogged c.op := by
    intro rc hrc hop
    obtain ⟨rc', hfound, -⟩ := h.found hw hrec (by simp [hnone]) hrc hop
    rw [hfind] at hfound
    cases hfound
  obtain ⟨hfirst, hanswers, hcommitted⟩ := hrec.1 ⟨hun, by simp [hnone]⟩
  -- the operation came with this payload first
  have hpayload : ({ s with begun := s.begun ++ [c], run := some ⟨c, .begun, []⟩ } : State D).Of digest
      c.op (digest c) := by
    cases hx : s.first c.op with
    | none =>
      refine ⟨c, ?_, rfl⟩
      have hx : s.begun.find? (·.op = c.op) = none := hx
      show (s.begun ++ [c]).find? _ = _
      simp [find?_append, hx]
    | some x => exact State.Of.mono ⟨x, hx, hfirst x hx⟩ rfl
  exact { h with
    receipts := h.receipts.next rfl rfl rfl rfl
    readable := fun rc hrc ↦ ⟨(h.readable rc hrc).1.mono rfl, (h.readable rc hrc).2⟩
    cached := fun x hx ↦ ⟨(h.cached x hx).1.mono rfl, (h.cached x hx).2⟩
    running := fun r hr ↦ by
      cases hr
      exact {
        last := ⟨s.ops, by simp [State.ops]⟩
        payload := hpayload
        uncached := fun x hx hop ↦ by
          have hall := lookup_eq_none_iff.mp hnone x hx
          simp [hop] at hall
        unlogged := fun _ ↦ hun
        early := fun _ ↦ hcommitted
        seen := by simp
        decided := by simp
        finishing := by simp }
    told := fun a ha hcode ↦ by
      rcases h.told a ha hcode with hlogged | ⟨hun', hca, -⟩
      · exact .inl hlogged
      · refine .inr ⟨hun', hca, fun r hr hop ↦ ?_⟩
        cases hr
        exact hanswers a ha hop.symm hcode }

section Begin

variable [DecidableEq D]

/-- What the answer to a known operation says. -/
theorem replayed_cases (op : String) (d : D) (rp : Replay D) :
    (rp.digest = d ∧ replayed op d rp = ⟨op, rp.digest, rp.code, rp.message, rp.writes⟩) ∨
    (rp.digest ≠ d ∧ replayed op d rp = ⟨op, d, 409, "idempotency_conflict", []⟩) := by
  unfold replayed
  split
  · rename_i h
    exact .inl ⟨h, by rw [h]⟩
  · rename_i h
    exact .inr ⟨h, rfl⟩

/-- **A known operation is answered again.** -/
theorem Inv.again (h : Inv digest binds s) (hrun : s.run = none)
    {cache : List (String × Replay D)} (hmem : (c.op, rp) ∈ cache)
    (hcache : ∀ x ∈ cache, x = (c.op, rp) ∨ x ∈ s.cache) (hkeys : (cache.map (·.1)).Nodup)
    (hof : s.Of digest c.op rp.digest) (hlog : ∀ rc ∈ s.log, rc.op = c.op → rc.replay = some rp)
    (htold : s.Unlogged c.op → (c.op, rp) ∈ s.cache) :
    Inv digest binds { s with
      begun := s.begun ++ [c], cache := cache
      answers := s.answers ++ [replayed c.op (digest c) rp] } := by
  -- the 200s of this operation said what is said again
  have hsaid : ∀ a ∈ s.answers, a.op = c.op → a.code = 200 → a.replay = rp := by
    intro a ha hop hcode
    rcases h.told a ha hcode with ⟨rc, hrc, hrop, hreplay⟩ | ⟨hun, hca, -⟩
    · exact Option.some.inj (hreplay.symm.trans (hlog rc hrc (hrop.trans hop)))
    · exact (hca _ (htold (hop ▸ hun)) hop.symm).symm
  exact { h with
    receipts := h.receipts.next rfl rfl rfl rfl
    readable := fun rc hrc ↦ ⟨(h.readable rc hrc).1.mono rfl, (h.readable rc hrc).2⟩
    keys := hkeys
    cached := fun x hx ↦ by
      rcases hcache x hx with rfl | hx
      · exact ⟨hof.mono rfl, hlog⟩
      · exact ⟨(h.cached x hx).1.mono rfl, (h.cached x hx).2⟩
    running := by simp [hrun]
    told := fun a ha hcode ↦ by
      rcases mem_append.mp ha with ha | ha
      · rcases h.told a ha hcode with hlogged | ⟨hun, hca, hr⟩
        · exact .inl hlogged
        · refine .inr ⟨hun, fun x hx hxop ↦ ?_, hr⟩
          rcases hcache x hx with rfl | hx
          · exact (hsaid a ha hxop.symm hcode).symm
          · exact hca x hx hxop
      · rw [mem_singleton.mp ha] at hcode ⊢
        rcases replayed_cases c.op (digest c) rp with ⟨-, heq⟩ | ⟨-, heq⟩
        · rw [heq]
          by_cases hun : s.Unlogged c.op
          · refine .inr ⟨hun, fun x hx hxop ↦ ?_, by simp [hrun]⟩
            have hpair := inj_on_of_nodup_map hkeys hx hmem hxop
            rw [hpair]
            rfl
          · obtain ⟨rc, hrc, hrop⟩ := State.not_unlogged hun
            exact .inl ⟨rc, hrc, hrop, hlog rc hrc hrop⟩
        · rw [heq] at hcode
          cases hcode
    repeats := by
      refine repeats_append h.repeats fun a ha hop hd hcode ↦ ?_
      rcases replayed_cases c.op (digest c) rp with ⟨-, heq⟩ | ⟨hne, heq⟩
      · rw [heq] at hop ⊢
        exact eq_of_replay_eq hop (hsaid a ha hop hcode)
      · rw [heq] at hop hd
        have hrp := hsaid a ha hop hcode
        exact absurd (show rp.digest = digest c by rw [← hrp]; exact hd) hne }

/-- What is known of an operation when it comes again: an answer to its own payload. -/
theorem Inv.beginCmd_cases (h : Inv digest binds s) (hw : Window s (.beginCmd c))
    (hrec : Recalled digest s c) :
    (∃ cache rp, (c.op, rp) ∈ cache ∧ (∀ x ∈ cache, x = (c.op, rp) ∨ x ∈ s.cache) ∧
      (cache.map (·.1)).Nodup ∧ s.Of digest c.op rp.digest ∧
      (∀ rc ∈ s.log, rc.op = c.op → rc.replay = some rp) ∧ (s.Unlogged c.op → (c.op, rp) ∈ s.cache) ∧
      beginCmd digest s c = { s with
        begun := s.begun ++ [c], cache := cache
        answers := s.answers ++ [replayed c.op (digest c) rp] }) ∨
    (s.cache.lookup c.op = none ∧ s.receipts.find? (·.op = c.op) = none ∧
      (beginCmd digest s c = { s with begun := s.begun ++ [c], run := some ⟨c, .begun, []⟩ } ∨
        ∃ message, beginCmd digest s c = ({ s with begun := s.begun ++ [c] } : State D).settle c.op
          ⟨digest c, Failure.invalid.code, message, []⟩)) := by
  unfold beginCmd
  dsimp only
  split
  · rename_i rp hlookup
    have hmem := mem_of_lookup hlookup
    exact .inl ⟨s.cache, rp, hmem, fun x hx ↦ .inr hx, h.keys, (h.cached _ hmem).1,
      fun rc hrc hop ↦ (h.cached _ hmem).2 rc hrc hop, fun _ ↦ hmem, rfl⟩
  · rename_i hnone
    split
    · rename_i rc' hfind
      obtain ⟨rc, hrc, heq⟩ := h.receipts.logged rc' (mem_of_find?_eq_some hfind)
      have hop' : rc'.op = c.op := by simpa using find?_some hfind
      have hop : rc.op = c.op := by rw [← hop', heq]
      obtain ⟨rc'', hfound, hsame⟩ := h.found hw hrec (by simp [hnone]) hrc hop
      have hreplay : rc'.replay = rc.replay := by
        rw [Option.some.inj (hfind.symm.trans hfound), hsame]
      obtain ⟨hof, message, writes, hsays⟩ := h.readable rc hrc
      rw [hreplay, hsays]
      refine .inl ⟨(c.op, ⟨rc.digest, 200, message, writes⟩) :: s.cache, _, mem_cons_self,
        fun x hx ↦ mem_cons.mp hx, nodup_cons.mpr ⟨fun hmem ↦ ?_, h.keys⟩, hop ▸ hof,
        fun rc₁ hrc₁ hop₁ ↦ ?_, fun hun ↦ absurd hop (hun rc hrc), rfl⟩
      · obtain ⟨x, hx, hxop⟩ := mem_map.mp hmem
        have hall := lookup_eq_none_iff.mp hnone x hx
        simp [hxop] at hall
      · rw [h.receipts.unique hrc₁ hrc (hop₁.trans hop.symm), hsays]
    · rename_i hfind
      refine .inr ⟨hnone, hfind, ?_⟩
      split
      · exact .inr ⟨_, rfl⟩
      · exact .inl rfl

theorem Inv.beginCmd (h : Inv digest binds s) (hrun : s.run = none) (hw : Window s (.beginCmd c))
    (hrec : Recalled digest s c) : Inv digest binds (beginCmd digest s c) := by
  obtain ⟨cache, rp, hmem, hcache, hkeys, hof, hlog, htold, heq⟩ | ⟨hnone, hfind, hunknown⟩ :=
    h.beginCmd_cases hw hrec
  · rw [heq]
    exact h.again hrun hmem hcache hkeys hof hlog htold
  · have hstart := h.start hw hrec hnone hfind
    rcases hunknown with heq | ⟨message, heq⟩
    · rw [heq]
      exact hstart
    · rw [heq]
      exact hstart.refuse (r := ⟨c, .begun, []⟩) rfl rfl rfl

/-- **Another payload gets a conflict.** -/
theorem Inv.conflict (h : Inv digest binds s) (hk : Kept digest s (.beginCmd c)) {x : Cmd}
    (hx : s.first c.op = some x) (hne : digest x ≠ digest c) :
    ∃ cache, Edit.beginCmd digest s c = { s with
      begun := s.begun ++ [c], cache := cache
      answers := s.answers ++ [⟨c.op, digest c, 409, "idempotency_conflict", []⟩] } := by
  have hrec := hk.2 c rfl
  obtain ⟨cache, rp, -, -, -, hof, -, -, heq⟩ | ⟨hnone, hfind, -⟩ := h.beginCmd_cases hk.1 hrec
  · refine ⟨cache, ?_⟩
    have hdigest : rp.digest = digest x := hof.unique ⟨x, hx, rfl⟩
    rcases replayed_cases c.op (digest c) rp with ⟨hsame, -⟩ | ⟨-, hrep⟩
    · exact absurd (hdigest.symm.trans hsame) hne
    · rw [heq, hrep]
  · -- nothing is known of it, so it came with its own payload
    have hun : s.Unlogged c.op := by
      intro rc hrc hop
      obtain ⟨rc', hfound, -⟩ := h.found hk.1 hrec (by simp [hnone]) hrc hop
      rw [hfind] at hfound
      cases hfound
    exact absurd ((hrec.1 ⟨hun, by simp [hnone]⟩).1 x hx) hne

end Begin

end Colca.Edit
