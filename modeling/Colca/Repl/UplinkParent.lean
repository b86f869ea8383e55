import Colca.Repl.UplinkLane
import Colca.Repl.Incarnation
import Colca.Store.Writers

/-!
# The parent's end of the uplink

`handleReplicate`: what a push goes through at the parent before its records are queued for the
store, and what the group commit then does with them. A push is judged first (may this child push to
this store at all), then converted record by record into the parent's namespace, and then queued.

## What the parent holds

`held` is a ghost: the records stored from the child, in the order they were committed. What a commit
adds to it is what the commit writes to the disk (`Parent.commit_held`).
`Holds` relates it to the child's lane, and `Holds.absorb` is the step: a batch whose custody
reaches back to the mark moves the mark without leaving anything out.
-/

namespace Colca.Uplink

open Uns HighWater Incarnation List Function Receiver

/-- A push on its way to the parent. `base` is a ghost: the confirmed mark the lane had when the
batch's page was placed. -/
structure Request where
  env : Envelope
  batch : List ReplRecord
  base : ℕ
  deriving DecidableEq, Repr

/-! ### Converting a batch -/

/-- Why a push is refused for good. -/
inductive Refusal
  | badRequest | forbidden | tooLarge
  deriving DecidableEq, Repr

/-- A child's record in the parent's namespace. A declared state contract also projects into the
parent's current state, and its tombstone retires the path. -/
def Config.copy (cfg : Config) (r : ReplRecord) : ReplRecord :=
  if r.skipFrom ≠ 0 then { childOffset := r.childOffset, skipFrom := r.skipFrom }
  else
    let rr : ReplRecord :=
      { childOffset := r.childOffset, originOffset := r.originOffset
        topic := mountInsert r.topic cfg.mount, payload := r.payload, ts := r.ts, by_ := r.by_ }
    match parse (mountInsert r.topic cfg.mount) with
    | .ok p =>
      if (cfg.classOf p.contract).isOwnedState then
        { rr with kvPath := p.path, kvNode := p.nodeID, delete := r.payload = [] }
      else rr
    | .error _ => rr

/-- The checks on one record of a push, behind the offset `previous`. -/
def Config.convertRecord (cfg : Config) (st : Stream) (previous : ℕ) (r : ReplRecord) :
    Except Refusal ReplRecord :=
  if r.childOffset ≤ previous then .error .badRequest
  else if r.skipFrom ≠ 0 then
    if st ≠ .metrics ∨ r.childOffset < r.skipFrom ∨ r.skipFrom ≤ previous ∨ r.topic ≠ noPath ∨
        r.payload ≠ [] ∨ r.originOffset ≠ 0 ∨ r.ts ≠ 0 ∨ r.by_ ≠ {} then .error .badRequest
    else .ok (cfg.copy r)
  else
    match parse r.topic with
    | .error _ => .error .badRequest
    | .ok p =>
      -- direction and stream are properties of the child's record, before any mount is inserted
      if (cfg.classOf p.contract).isKnown && !matchesUplinkStream (cfg.classOf p.contract) p st then
        .error .forbidden
      else
        match parse (mountInsert r.topic cfg.mount) with
        | .error _ => .error .badRequest
        | .ok _ => .ok (cfg.copy r)

/-- The loop over the records of a push. -/
def Config.convert (cfg : Config) (st : Stream) :
    ℕ → List ReplRecord → Except Refusal (List ReplRecord)
  | _, [] => .ok []
  | previous, r :: rs =>
    match cfg.convertRecord st previous r with
    | .error e => .error e
    | .ok c =>
      match cfg.convert st r.childOffset rs with
      | .error e => .error e
      | .ok cs => .ok (c :: cs)

/-- A metric of a retired contract becomes a one-offset skip. -/
def dropUnreplicable (st : Stream) (recs : List ReplRecord) : List ReplRecord :=
  recs.map fun r ↦
    match parse r.topic with
    | .ok p =>
      if isRetired p.contract && st == .metrics then
        { childOffset := r.childOffset, skipFrom := r.childOffset }
      else r
    | .error _ => r

@[simp] theorem Config.copy_childOffset (cfg : Config) (r : ReplRecord) :
    (cfg.copy r).childOffset = r.childOffset := by
  unfold Config.copy
  split
  · rfl
  · dsimp only
    split
    · split <;> rfl
    · rfl

@[simp] theorem Config.copy_skipFrom (cfg : Config) (r : ReplRecord) :
    (cfg.copy r).skipFrom = r.skipFrom := by
  unfold Config.copy
  split
  · rfl
  · rename_i h
    have h : r.skipFrom = 0 := not_not.mp h
    dsimp only
    split
    · split <;> exact h.symm
    · exact h.symm

theorem Config.copy_topic (cfg : Config) {r : ReplRecord} (h : r.skipFrom = 0) :
    (cfg.copy r).topic = mountInsert r.topic cfg.mount := by
  unfold Config.copy
  rw [if_neg (by simp [h])]
  dsimp only
  split
  · split <;> rfl
  · rfl

variable {previous : ℕ} {rs cs : List ReplRecord}

/-- A record that passed its checks is copied, is no malformed skip range, and still names the
contract its child wrote it under. -/
theorem Config.convertRecord_eq_ok {cfg : Config} {st : Stream} {r c : ReplRecord}
    (h : cfg.convertRecord st previous r = .ok c) :
    c = cfg.copy r ∧ c.invalidSkip st = false ∧ previous < r.childOffset ∧
      (r.skipFrom = 0 → ∃ p q, parse r.topic = .ok p ∧ parse c.topic = .ok q ∧
        q.contract = p.contract) := by
  unfold Config.convertRecord at h
  split at h
  · cases h
  · rename_i hprev
    have hprev : previous < r.childOffset := not_le.mp hprev
    split at h
    · rename_i hskip
      split at h
      · cases h
      · rename_i hwf
        cases h
        push Not at hwf
        refine ⟨rfl, ?_, hprev, fun h0 ↦ absurd h0 hskip⟩
        have hc : cfg.copy r = { childOffset := r.childOffset, skipFrom := r.skipFrom } := by
          simp [Config.copy, hskip]
        simp [ReplRecord.invalidSkip, hc, hwf.1, hwf.2.1]
    · rename_i hskip
      have hskip : r.skipFrom = 0 := not_not.mp hskip
      split at h
      · cases h
      · rename_i p hp
        split at h
        · cases h
        · split at h
          · cases h
          · rename_i q hq
            cases h
            refine ⟨rfl, by simp [ReplRecord.invalidSkip, hskip], hprev, fun _ ↦ ⟨p, q, hp, ?_, ?_⟩⟩
            · rw [cfg.copy_topic hskip, hq]
            · -- the mount goes in behind the node id, so the contract stays in its place
              have hlen : topicBytes (mountInsert r.topic cfg.mount) ≤ maxTopicBytes := by
                by_contra hlong
                rw [not_le] at hlong
                simp [parse, hlong] at hq
              rw [parse_mountInsert hp hlen] at hq
              cases hq
              rfl

/-- **A converted batch** is the copy of its records, and each of them passed its checks. -/
theorem Config.convert_eq_ok {cfg : Config} {st : Stream} (h : cfg.convert st previous rs = .ok cs) :
    cs = rs.map cfg.copy ∧ (∀ c ∈ cs, c.invalidSkip st = false) ∧
      ∀ r ∈ rs, r.skipFrom = 0 → ∃ p q, parse r.topic = .ok p ∧
        parse (cfg.copy r).topic = .ok q ∧ q.contract = p.contract := by
  induction rs generalizing previous cs with
  | nil =>
    cases h
    simp
  | cons r rs ih =>
    rw [Config.convert] at h
    split at h
    · cases h
    · rename_i c hc
      split at h
      · cases h
      · rename_i cs' hcs
        cases h
        obtain ⟨rfl, hvalid, -, htopic⟩ := cfg.convertRecord_eq_ok hc
        obtain ⟨rfl, hvalids, htopics⟩ := ih hcs
        refine ⟨rfl, forall_mem_cons.mpr ⟨hvalid, hvalids⟩, forall_mem_cons.mpr ⟨htopic, htopics⟩⟩

/-- Records that left their node are not of a retired contract, so the parent drops none. -/
theorem dropUnreplicable_copy {cfg : Config} {st : Stream} (h : cfg.convert st previous rs = .ok cs)
    (hleave : ∀ r ∈ rs, r.skipFrom = 0 → leavesTheNode r.topic) :
    dropUnreplicable st cs = rs.map cfg.copy := by
  obtain ⟨rfl, -, htopic⟩ := cfg.convert_eq_ok h
  unfold dropUnreplicable
  rw [map_map]
  refine map_congr_left fun r hr ↦ ?_
  show (match parse (cfg.copy r).topic with
    | .ok p => if isRetired p.contract && st == .metrics then _ else cfg.copy r
    | .error _ => cfg.copy r) = cfg.copy r
  by_cases hskip : r.skipFrom = 0
  · obtain ⟨p, q, hp, hq, heq⟩ := htopic r hr hskip
    have hl := hleave r hr hskip
    simp only [leavesTheNode, hp, Bool.and_eq_true, Bool.not_eq_true'] at hl
    simp [hq, heq, hl.2]
  · -- a skip range has no topic
    have hc : (cfg.copy r).topic = noPath := by simp [Config.copy, hskip]
    rw [hc]
    rfl

/-! ### The parent -/

/-- A push waiting for the group commit. -/
structure Pending where
  id : ℕ
  req : ReplRequest

/-- A hello or a poll on its way to the parent, with what the child states in it. -/
structure DownRequest where
  hello : Bool
  /-- The parent incarnation the child recorded. -/
  parent : Option ℕ
  position : ChildPosition

/-- A poll the parent holds open. -/
structure HeldPoll where
  id : ℕ
  req : DownRequest

/-- The parent of one child. -/
structure Parent where
  store : Store
  /-- The incarnation id, and whether this process minted it. -/
  storeID : ℕ
  minted : Bool := false
  /-- The incarnation the child last replicated from. -/
  childStore : Option ℕ := none
  /-- The child's downlink positions as the parent keeps them. -/
  cmdCursor : Option ℕ := none
  defCursor : Option ℕ := none
  /-- Ghost: the records stored from the child, per stream, in commit order. -/
  held : Stream → List ReplRecord := fun _ ↦ []
  /-- Pushes that wait for the group commit. -/
  queue : List Pending := []
  polls : List HeldPoll := []

/-- The mark the parent keeps for a stream of the child. -/
def Parent.mark (cfg : Config) (p : Parent) (st : Stream) : ℕ := p.store.durableHWM ⟨cfg.child, st⟩

/-- What a child's position is compared with. -/
def Parent.view (cfg : Config) (p : Parent) : StoreView where
  commandsHead := p.store.mem.next .commands
  definitionsHead := p.store.mem.next .definitions
  childStore := p.childStore
  hwm st := p.store.hwmGet ⟨cfg.child, st⟩

/-- Judge a child's request: whether it has to re-sync, and the parent, with the id `fresh` when the
child proved that its store regressed. -/
def Parent.judged (cfg : Config) (p : Parent) (fresh : ℕ) (recorded : Option ℕ)
    (pos : ChildPosition) : Bool × Parent :=
  let verdict := judge p.storeID (!p.minted) true recorded (p.view cfg) pos
  (verdict.1, if verdict.2 then { p with storeID := fresh, minted := true } else p)

/-- `AdoptChildStore`: a child that replicates from another store than the one on record starts
clean. -/
def Parent.adopt (cfg : Config) (p : Parent) (id : ℕ) : Parent :=
  if p.childStore = some id then p
  else if p.childStore = none then { p with childStore := some id }
  else
    { p with childStore := some id, store := p.store.dropMarks cfg.child, held := fun _ ↦ [] }

/-- What stands in front of the push handler: enrolment, load shedding, a failing server. -/
inductive Gate
  | pass | unauthorized | busy | failure
  deriving DecidableEq, Repr

/-- What a push comes back with. -/
inductive PushAnswer
  | ok (hwm : ℕ)
  /-- 401: the parent does not know this child. -/
  | unauthorized
  /-- 429 -/
  | busy
  /-- 5xx -/
  | failure
  /-- 409: the child has to re-sync with the parent's store first. -/
  | storeChanged
  /-- 400, 403 or 413: the batch is refused for good. -/
  | refused (r : Refusal)
  deriving DecidableEq, Repr

/-- The most records of one push. -/
def maxReplicateRecords : ℕ := 200

/-- The position a push states. -/
def Envelope.position (env : Envelope) : ChildPosition where
  store := some env.store
  acked st := if st = env.stream then env.acked else 0

/-- `handleReplicate` up to the group commit: an answer, or the push is queued. -/
def Parent.handleReplicate (cfg : Config) (p : Parent) (fresh id : ℕ) (gate : Gate)
    (req : Request) : Option PushAnswer × Parent :=
  match gate with
  | .unauthorized => (some .unauthorized, p)
  | .busy => (some .busy, p)
  | .failure => (some .failure, p)
  | .pass =>
    if cfg.replicateBodyLimit < cfg.bodySize req.env req.batch then
      (some (.refused .tooLarge), p)
    else if maxReplicateRecords < req.batch.length then (some (.refused .tooLarge), p)
    else if !isUplinkStream req.env.stream then (some (.refused .forbidden), p)
    else if (p.judged cfg fresh req.env.parent req.env.position).1 then
      (some .storeChanged, (p.judged cfg fresh req.env.parent req.env.position).2)
    else
      match cfg.convert req.env.stream 0 req.batch with
      | .error r => (some (.refused r), p)
      | .ok recs =>
        let p := p.adopt cfg req.env.store
        (none, { p with queue := p.queue ++
          [⟨id, cfg.child, req.env.stream, dropUnreplicable req.env.stream recs⟩] })

/-- The answer to a hello: where this store stands for the child. -/
structure HelloAnswer where
  store : ℕ
  resync : Bool
  resume : ℕ
  defResume : ℕ
  hwms : Stream → ℕ
  head : ℕ
  /-- Where the definitions handed along end, `0` when none are. -/
  defNext : ℕ

/-- What a hello or a poll comes back with. -/
inductive DownAnswer
  | hello (a : HelloAnswer)
  | poll (next defNext : ℕ)
  | storeChanged
  | failure

/-- `CursorAck`, on a cursor that may be absent. -/
def ackCursor (cur : Option ℕ) (off : ℕ) : Option ℕ := if cur.getD 1 < off then some off else cur

/-- A hello reports instead of refusing. `defNext` is where the definitions page it reads ends. -/
def Parent.handleHello (cfg : Config) (p : Parent) (fresh defNext : ℕ) (req : DownRequest) :
    HelloAnswer × Parent :=
  let judged := p.judged cfg fresh req.parent req.position
  let p := match req.position.store with
    | some id => judged.2.adopt cfg id
    | none => judged.2
  let head := p.store.mem.next .commands
  -- a child with no cursor here yet starts at the head
  let p := { p with cmdCursor := some (p.cmdCursor.getD head) }
  ({ store := p.storeID
     resync := judged.1
     resume := max (p.cmdCursor.getD 0) 1
     defResume := max (p.defCursor.getD 0) 1
     hwms := fun st ↦ if st ∈ uplinkStreams then p.store.hwmGet ⟨cfg.child, st⟩ else 0
     head := head
     defNext := if judged.1 then 0 else defNext }, p)

/-- A poll is refused when the child has to re-sync; otherwise its positions are kept and it is held
open. -/
def Parent.handlePoll (cfg : Config) (p : Parent) (fresh id : ℕ) (req : DownRequest) :
    Option DownAnswer × Parent :=
  let judged := p.judged cfg fresh req.parent req.position
  if judged.1 then (some .storeChanged, judged.2)
  else
    (none, { judged.2 with
      cmdCursor := ackCursor p.cmdCursor req.position.commands
      defCursor := ackCursor p.defCursor req.position.definitions
      polls := p.polls ++ [⟨id, req⟩] })

/-- Note what a commit stored from the child. -/
def noteHeld (held : Stream → List ReplRecord) (done : List (ReplRequest × Answer)) :
    Stream → List ReplRecord :=
  done.foldl (fun h d ↦ update h d.1.stream
    (h d.1.stream ++ d.2.applied.filter (·.skipFrom = 0))) held

/-- The answer of a push once its group is committed. -/
def pushAnswer (a : Answer) : PushAnswer := if a.err = none then .ok a.hwm else .failure

/-- Commit the next group of the queue, and answer its pushes. -/
def Parent.commit (cfg : Config) (p : Parent) : List (ℕ × PushAnswer) × Parent :=
  let group := (takeGroup (fun w : Pending ↦ w.req.recs.length) p.queue).1
  let done := commitReplicated cfg.codec p.store (group.map Pending.req) true
  ((group.map Pending.id).zip (done.1.map pushAnswer), { p with
      store := done.2
      held := noteHeld p.held ((group.map Pending.req).zip done.1)
      queue := (takeGroup (fun w : Pending ↦ w.req.recs.length) p.queue).2 })

/-- What is noted of a group is what its answers report as applied. -/
theorem noteHeld_answers (held : Stream → List ReplRecord) (m : Marks) (rs : List ReplRequest) :
    ∃ new : List (Stream × ReplRecord), replicatedRecords m rs = new.map (fun x ↦ (x.1, x.2.toRecord)) ∧
      ∀ st, noteHeld held (rs.zip (answers m rs)) st = held st ++ (new.filter (·.1 = st)).map Prod.snd := by
  induction rs generalizing held m with
  | nil => exact ⟨[], rfl, fun st ↦ (append_nil _).symm⟩
  | cons r rs ih =>
    obtain ⟨new, hrecs, hheld⟩ := ih (noteHeld held [(r, answer m r)]) (marks m r)
    refine ⟨((answer m r).applied.filter (·.skipFrom = 0)).map (r.stream, ·) ++ new, ?_, fun st ↦ ?_⟩
    · rw [replicatedRecords, hrecs, Answer.records, map_append, map_map, map_map]
      rfl
    · refine (hheld st).trans ?_
      rw [filter_append, map_append, ← append_assoc]
      congr 1
      rcases eq_or_ne r.stream st with rfl | hne
      · simp [noteHeld, filter_map, comp_def]
      · simp [noteHeld, filter_map, comp_def, hne, update_of_ne hne.symm]

/-- **What a commit adds to `held` is what it writes to the disk.** -/
theorem Parent.commit_held (cfg : Config) (p : Parent) : ∃ new : List (Stream × ReplRecord),
    p.store.Wrote (p.commit cfg).2.store
      (p.store.draft.addAll cfg.codec (new.map fun x ↦ (x.1, x.2.toRecord))) ∧
    ∀ st, (p.commit cfg).2.held st = p.held st ++ (new.filter (·.1 = st)).map Prod.snd := by
  have hwrote := commitReplicated_wrote cfg.codec p.store
    ((takeGroup (fun w : Pending ↦ w.req.recs.length) p.queue).1.map Pending.req)
  obtain ⟨new, hrecs, hheld⟩ := noteHeld_answers p.held p.store.durableHWM
    ((takeGroup (fun w : Pending ↦ w.req.recs.length) p.queue).1.map Pending.req)
  rw [hrecs] at hwrote
  refine ⟨new, hwrote, fun st ↦ ?_⟩
  rw [← hheld, Parent.commit, (commitReplicated_ok ..).1]

/-- A process that opens the store again has no request in hand and minted no id. -/
def Parent.reopen (p : Parent) : Parent :=
  { p with
    store :=
      { disk := p.store.disk
        mem := { p.store.mem with hwms := fun _ ↦ none }
        agrees := { p.store.agrees with hwms_eq := fun _ _ h ↦ by cases h } }
    minted := false, queue := [], polls := [] }

/-! ### What the parent holds of a stream -/

/-- A record of the child as the parent stores it. -/
def Config.stored (cfg : Config) (x : ℕ × RecEnc) : ReplRecord := (cfg.copy (toRepl x)).filled

/-- The parent holds `xs` of a stream: records of the child that rise, in order, none above the
mark; and of those the child retains up to the mark, all that are not set aside. -/
structure Holds (cfg : Config) (st : Stream) (l : Lane) (mark : ℕ) (held : List ReplRecord)
    (xs : List (ℕ × RecEnc)) : Prop where
  lt_next : mark < l.log.next
  held_eq : held = xs.map cfg.stored
  increasing : xs.Pairwise (·.1 < ·.1)
  mem : ∀ x ∈ xs, x ∈ l.hist ∧ cfg.rises st x.2 ∧ x.1 ≤ mark
  complete : ∀ x ∈ l.log.entries, cfg.rises st x.2 → x.1 ≤ mark → x ∈ xs ∨ l.IsSetAside x.1

section Holds

variable {cfg : Config} {st : Stream} {l l' : Lane} {mark n base : ℕ} {held : List ReplRecord}
  {xs : List (ℕ × RecEnc)} {batch : List ReplRecord}

theorem Holds.evolves (h : Holds cfg st l mark held xs) (he : l.Evolves l') :
    Holds cfg st l' mark held xs :=
  { h with
    lt_next := h.lt_next.trans_le he.log.next_le
    mem x hx := by
      obtain ⟨hh, hrest⟩ := h.mem x hx
      exact ⟨he.hist.subset hh, hrest⟩
    complete x hx hr hle := by
      have hx := he.log.mem_of_lt hx (hle.trans_lt h.lt_next)
      exact (h.complete x hx hr hle).imp_right (he.setAside _) }

/-- Data records of a batch come from records of the stream. -/
theorem exists_map_toRepl {P : ℕ × RecEnc → Prop} {rs : List ReplRecord}
    (h : ∀ r ∈ rs, ∃ x, P x ∧ r = toRepl x) :
    ∃ ys : List (ℕ × RecEnc), rs = ys.map toRepl ∧ ∀ y ∈ ys, P y := by
  induction rs with
  | nil => exact ⟨[], rfl, by simp⟩
  | cons r rs ih =>
    obtain ⟨x, hx, rfl⟩ := h r mem_cons_self
    obtain ⟨ys, rfl, hys⟩ := ih fun r hr ↦ h r (mem_cons_of_mem _ hr)
    exact ⟨x :: ys, rfl, forall_mem_cons.mpr ⟨hx, hys⟩⟩

/-- The part of a batch that is stored: its data records above the mark. -/
theorem accept_copy (hinc : batch.Pairwise (·.childOffset < ·.childOffset)) :
    ((accept ReplRecord.childOffset mark (batch.map cfg.copy)).1.map ReplRecord.filled).filter
        (·.skipFrom = 0) =
      (batch.filter fun r ↦ decide (mark < r.childOffset) && decide (r.skipFrom = 0)).map
        fun r ↦ (cfg.copy r).filled := by
  have hinc' : (batch.map cfg.copy).Pairwise (·.childOffset < ·.childOffset) :=
    pairwise_map.mpr (by simpa using hinc)
  rw [accept_fst_of_increasing hinc', filter_map, filter_map, filter_map, map_map, filter_filter]
  simp [comp_def, Bool.and_comm]

/-- **A batch whose custody reaches back to the mark** moves the mark to its end and leaves nothing
out. -/
theorem Holds.absorb (h : Holds cfg st l mark held xs) (hh : l.HistInv)
    (hb : BatchInv cfg st l batch n base) (hbase : base ≤ mark) :
    ∃ ys, Holds cfg st l (highest ReplRecord.childOffset mark (batch.map cfg.copy))
      (held ++ ((accept ReplRecord.childOffset mark (batch.map cfg.copy)).1.map
        ReplRecord.filled).filter (·.skipFrom = 0)) (xs ++ ys) := by
  have hdata : ∀ r ∈ batch.filter fun r ↦ decide (mark < r.childOffset) && decide (r.skipFrom = 0),
      ∃ x, (x ∈ l.hist ∧ cfg.rises st x.2 ∧ mark < x.1 ∧ toRepl x ∈ batch) ∧ r = toRepl x := by
    intro r hr
    simp only [mem_filter, Bool.and_eq_true, decide_eq_true_eq] at hr
    obtain ⟨hrb, hlt, hskip⟩ := hr
    obtain ⟨x, hx, hrise, rfl⟩ := hb.data r hrb hskip
    exact ⟨x, ⟨hx, hrise, hlt, hrb⟩, rfl⟩
  obtain ⟨ys, hys, hprop⟩ := exists_map_toRepl hdata
  have hend : ∀ r ∈ batch, r.childOffset ≤
      highest ReplRecord.childOffset mark (batch.map cfg.copy) := by
    intro r hr
    have hc : cfg.copy r ∈ batch.map cfg.copy := mem_map_of_mem hr
    rw [← cfg.copy_childOffset r]
    exact off_le_highest hc
  refine ⟨ys, ⟨?_, ?_, ?_, ?_, ?_⟩⟩
  · -- the new mark is the old one or an offset of the batch
    have := h.lt_next
    rw [← not_le]
    intro hle
    have hlt : l.log.next - 1 < highest ReplRecord.childOffset mark (batch.map cfg.copy) := by omega
    rcases lt_highest_iff.mp hlt with hlt | ⟨c, hc, hlt⟩
    · omega
    · obtain ⟨r, hr, rfl⟩ := mem_map.mp hc
      have := hb.lt r hr
      have := hb.le_next
      rw [cfg.copy_childOffset] at hlt
      omega
  · rw [accept_copy hb.increasing, hys, h.held_eq, map_map, map_append]
    rfl
  · refine pairwise_append.mpr ⟨h.increasing, ?_, fun x hx y hy ↦ ?_⟩
    · have hsub : (ys.map toRepl).Pairwise (·.childOffset < ·.childOffset) :=
        hys ▸ hb.increasing.filter _
      exact (pairwise_map.mp hsub).imp id
    · exact (h.mem x hx).2.2.trans_lt (hprop y hy).2.2.1
  · intro x hx
    rcases mem_append.mp hx with hx | hx
    · obtain ⟨hh, hr, hle⟩ := h.mem x hx
      exact ⟨hh, hr, hle.trans le_highest⟩
    · obtain ⟨hh, hr, -, hmem⟩ := hprop x hx
      exact ⟨hh, hr, hend _ hmem⟩
  · intro x hx hr hle
    rcases lt_or_ge mark x.1 with hlt | hge
    · -- some record of the batch lies at or past `x`, so the batch has custody of `x`
      have hn : x.1 < n := by
        rcases lt_highest_iff.mp ((Nat.sub_lt (by omega) Nat.one_pos).trans_le hle) with
          hlt' | ⟨c, hc, hlt'⟩
        · omega
        · obtain ⟨r, hrb, rfl⟩ := mem_map.mp hc
          have := hb.lt r hrb
          rw [cfg.copy_childOffset] at hlt'
          omega
      rcases hb.carried x hx hr hn with hmem | hacked | hside
      · refine .inl (mem_append_right _ ?_)
        have hf : toRepl x ∈ ys.map toRepl := by
          rw [← hys, mem_filter]
          exact ⟨hmem, by simp [hlt]⟩
        obtain ⟨y, hy, heq⟩ := mem_map.mp hf
        have hoff : y.1 = x.1 := congrArg ReplRecord.childOffset heq
        exact OffsetLog.eq_of_offset_eq hh.increasing (hprop y hy).1 (hh.retained x hx) hoff ▸ hy
      · omega
      · exact .inr hside
    · exact (h.complete x hx hr hge).imp_left (mem_append_left _)

/-- A queued request carries a batch whose custody reaches back to the mark. -/
structure Admitted (cfg : Config) (lanes : Stream → Lane) (m : Receiver.Marks) (r : ReplRequest)
    (batch : List ReplRecord) (n base : ℕ) : Prop where
  child_eq : r.child = cfg.child
  recs_eq : r.recs = batch.map cfg.copy
  valid : r.valid
  batch : BatchInv cfg r.stream (lanes r.stream) batch n base
  base_le : base ≤ m ⟨cfg.child, r.stream⟩

variable {lanes : Stream → Lane} {m : Marks} {r : ReplRequest}

section

variable (h : Admitted cfg lanes m r batch n base)

include h

theorem Admitted.key_eq : r.key = ⟨cfg.child, r.stream⟩ := by
  rw [ReplRequest.key, h.child_eq]

theorem Admitted.fixed : r.stream.isFixed :=
  (Bool.and_eq_true _ _ ▸ h.valid).1

/-- What an admitted request is answered. -/
theorem Admitted.answer_eq :
    answer m r =
      { applied := (accept ReplRecord.childOffset (m ⟨cfg.child, r.stream⟩)
          (batch.map cfg.copy)).1.map .filled
        hwm := highest ReplRecord.childOffset (m ⟨cfg.child, r.stream⟩) (batch.map cfg.copy) } := by
  simp only [answer, h.fixed, h.valid, h.key_eq, h.recs_eq, Bool.true_eq_false, if_false, if_true]

/-- The marks an admitted request leaves. -/
theorem Admitted.marks_eq : marks m r = update m ⟨cfg.child, r.stream⟩ (answer m r).hwm := by
  rw [h.answer_eq, marks, if_pos h.valid, h.key_eq, h.recs_eq]

theorem Admitted.mono {m' : Marks} (hle : ∀ k, m k ≤ m' k) : Admitted cfg lanes m' r batch n base :=
  ⟨h.child_eq, h.recs_eq, h.valid, h.batch, h.base_le.trans (hle _)⟩

theorem Admitted.le_marks (k : HWMKey) : m k ≤ marks m r k := by
  rw [h.marks_eq, h.answer_eq]
  rcases eq_or_ne k ⟨cfg.child, r.stream⟩ with rfl | hk
  · rw [update_self]
    exact le_highest
  · rw [update_of_ne hk]

end

/-- The parent holds something of every stream of the child. -/
def HoldsAll (cfg : Config) (lanes : Stream → Lane) (m : Receiver.Marks)
    (held : Stream → List ReplRecord) : Prop :=
  ∀ st, ∃ xs, Holds cfg st (lanes st) (m ⟨cfg.child, st⟩) (held st) xs

/-- One admitted request. -/
theorem HoldsAll.absorb {held : Stream → List ReplRecord} (h : HoldsAll cfg lanes m held)
    (hh : ∀ st, (lanes st).HistInv) (hr : Admitted cfg lanes m r batch n base) :
    HoldsAll cfg lanes (marks m r) (noteHeld held [(r, answer m r)]) := by
  intro st
  rw [hr.marks_eq]
  show ∃ xs, Holds cfg st (lanes st) _ (update held r.stream _ st) xs
  rcases eq_or_ne st r.stream with rfl | hst
  · obtain ⟨xs, hxs⟩ := h r.stream
    obtain ⟨ys, hys⟩ := hxs.absorb (hh _) hr.batch hr.base_le
    refine ⟨xs ++ ys, ?_⟩
    rw [update_self, update_self, hr.answer_eq]
    exact hys
  · have hk : (⟨cfg.child, st⟩ : HWMKey) ≠ ⟨cfg.child, r.stream⟩ := by simpa using hst
    rw [update_of_ne hst, update_of_ne hk]
    exact h st

/-- **A group of admitted requests**: the parent still holds everything, no mark moves back, and
every answer lies between the request's base and the mark. -/
theorem HoldsAll.absorb_all {held : Stream → List ReplRecord} {rs : List ReplRequest}
    (h : HoldsAll cfg lanes m held) (hh : ∀ st, (lanes st).HistInv)
    (hrs : ∀ r ∈ rs, ∃ batch n base, Admitted cfg lanes m r batch n base) :
    HoldsAll cfg lanes (marksAfter m rs)
        (noteHeld held (rs.zip (answers m rs))) ∧
      (∀ k, m k ≤ marksAfter m rs k) ∧
      ∀ d ∈ rs.zip (answers m rs), d.2.err = none ∧
        m ⟨cfg.child, d.1.stream⟩ ≤ d.2.hwm ∧
        d.2.hwm ≤ marksAfter m rs ⟨cfg.child, d.1.stream⟩ := by
  induction rs generalizing m held with
  | nil => exact ⟨h, fun _ ↦ le_rfl, by simp [answers]⟩
  | cons r rs ih =>
    obtain ⟨batch, n, base, hr⟩ := hrs r mem_cons_self
    obtain ⟨hH, hle, hans⟩ := ih (h.absorb hh hr) fun r' hr' ↦ by
      obtain ⟨batch', n', base', h'⟩ := hrs r' (mem_cons_of_mem _ hr')
      exact ⟨batch', n', base', h'.mono hr.le_marks⟩
    have hfirst : (answer m r).hwm = marks m r ⟨cfg.child, r.stream⟩ := by
      rw [hr.marks_eq, update_self]
    refine ⟨hH, fun k ↦ (hr.le_marks k).trans (hle k), ?_⟩
    simp only [answers, zip_cons_cons, forall_mem_cons]
    refine ⟨⟨by rw [hr.answer_eq], ?_, ?_⟩, fun d hd ↦ ?_⟩
    · rw [hfirst]
      exact hr.le_marks _
    · rw [hfirst]
      exact hle _
    · obtain ⟨herr, hlo, hhi⟩ := hans d hd
      exact ⟨herr, (hr.le_marks _).trans hlo, hhi⟩

end Holds

end Colca.Uplink
