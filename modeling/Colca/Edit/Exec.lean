import Colca.Edit.Compose
import Colca.Lib.StateMachine

/-!
# The edit executor

One node: its current records, the receipts of edit operations, the executor with its in-process replay
cache, and everyone else who writes. The executor holds its lock for a whole command, so at most one command
is under way, but the steps of a command are apart: it looks the operation up, takes a snapshot, decides,
commits, and answers. Between any two of them other writers commit, retention appends records again, and the
process may crash, which takes the command and the cache with it.

A state intent commits its records and its receipt in one batch. An annotation is an event and a node
attachment is written by the registry, so for these the receipt is a second commit (`Phase.halfway`).

`_CmdConfigure` has an executor of its own with its own lock; what it decides is any batch. A door writes any
record, except that identities are the registry's.

The digest of a command, which is SHA-256 over canonical JSON, is a parameter, and so is which elements the
node itself is bound to. Authorization, the checks of a commit and the composers that are not written out are
choices of the event. Commands that fail the checks before the lookup (no person, another verb, no operation
id) change nothing and are left out, and so is the label that goes with a code.
-/

namespace Colca.Edit

open Uns (Stream)

/-- `editReplayLimit`. -/
@[irreducible] def editReplayLimit : ℕ := 1024

/-- A command: what its payload says. -/
structure Cmd where
  op : String
  expected : Expected
  intent : Intent
  deriving DecidableEq, Repr

/-- The versions sent, without that of an element the node is bound to (`dropBoundElementVersion`). -/
def Cmd.sent (binds : String → Bool) (c : Cmd) : Expected :=
  c.expected.filter fun x ↦
    match x.1 with
    | .entity .systemElement id => !binds id
    | _ => true

/-- How the records of an intent are committed. -/
inductive Via
  | state | event | registry
  deriving DecidableEq, Repr

def Intent.via : Intent → Via
  | .annotate .. => .event
  | .attachment .. => .registry
  | _ => .state

def Intent.isMetadata : Intent → Bool
  | .metadata .. => true
  | _ => false

/-- The coordinates of records at consecutive offsets of the entities stream. -/
def writesFrom : ℕ → List Addr → List StateWrite
  | _, [] => []
  | off, a :: rest => ⟨.entities, off, a⟩ :: writesFrom (off + 1) rest

variable {D : Type}

/-- What a command is answered again with. -/
structure Replay (D : Type) where
  digest : D
  code : ℕ
  message : String
  writes : List StateWrite
  deriving DecidableEq

/-- A durable receipt, and where it stands. -/
structure Receipt (D : Type) where
  op : String
  digest : D
  message : String
  topics : List Addr
  writes : List StateWrite
  offset : ℕ
  deriving DecidableEq

/-- `durableReplay`: a receipt without coordinates has its records right before it. -/
def Receipt.replay (rc : Receipt D) : Option (Replay D) :=
  if rc.writes = [] then
    if rc.offset ≤ rc.topics.length then none
    else some ⟨rc.digest, 200, rc.message, writesFrom (rc.offset - rc.topics.length) rc.topics⟩
  else some ⟨rc.digest, 200, rc.message, rc.writes⟩

/-- An answer to a command (a ghost: what callers were told). -/
structure Answer (D : Type) where
  op : String
  digest : D
  code : ℕ
  message : String
  writes : List StateWrite
  deriving DecidableEq

/-- How far a command got. -/
inductive Phase
  | begun
  | seen (sn : Snapshot)
  | decided (sn : Snapshot) (plan : Plan)
  /-- The event or the registry's write is committed, or was found applied; the receipt is not. -/
  | halfway (message : String) (writes : List StateWrite)
  | finishing (message : String) (writes : List StateWrite)

/-- The command under way. -/
structure Run where
  cmd : Cmd
  phase : Phase
  /-- The records at the snapshot (a ghost). -/
  seenAt : KV := []

def Run.goto (r : Run) (phase : Phase) : Run := { r with phase }

/-- What a commit of state replaced (a ghost). -/
structure Done where
  sent : Expected
  required : List Key
  sn : Snapshot
  wrote : List Addr
  /-- The records at the snapshot, and right before the commit. -/
  seenAt : KV
  before : KV

structure State (D : Type) where
  kv : KV := []
  /-- The receipts in the order of their offsets. -/
  receipts : List (Receipt D) := []
  /-- The next offsets of the entities and the annotations stream. -/
  next : ℕ := 1
  nextEvent : ℕ := 1
  /-- The replay cache, and the order its entries are dropped in. -/
  cache : List (String × Replay D) := []
  order : List String := []
  run : Option Run := none
  /-- The batch a configure command has decided on. -/
  config : Option (List StateRecord) := none
  /-- All commands that began (a ghost). -/
  begun : List Cmd := []
  /-- Retention has appended a receipt again (a ghost). -/
  moved : Bool := false
  /-- All receipts ever committed (a ghost). -/
  log : List (Receipt D) := []
  /-- The commands whose records were committed, once for each time (a ghost). -/
  committed : List Cmd := []
  done : List Done := []
  answers : List (Answer D) := []

/-- What becomes of a commit. -/
inductive Fate
  | done
  /-- The batch or the registry refuses it; the refusal is remembered. -/
  | refused (r : Refusal)
  /-- It fails, and is not remembered. -/
  | failed
  deriving DecidableEq

inductive Event
  | beginCmd (c : Cmd)
  | snapshot
  /-- With the plan of an intent that is not written out, the records `withRelationshipCleanup` adds, and
  what the checks after composing say. -/
  | decide (other : Plan) (extra : List StateRecord) (deny : Option Refusal)
  | commit (fate : Fate)
  | receipt (ok : Bool)
  | reply
  | crash
  | configDecide (batch : List StateRecord)
  | configCommit (ok : Bool)
  | door (r : StateRecord)
  /-- The registry enrolls or updates an identity, or revokes it. -/
  | enroll (ulid : String) (fields : Option Fields)
  | refresh (a : Addr)
  | refreshReceipt (op : String)

/-- A batch a command may author: identities are the registry's. -/
def authored (batch : List StateRecord) : Bool := batch.all (·.addr.contract ≠ .enrolledIdentity)

/-- What the registry writes for an attachment. A drain marks the entry the registry has. -/
def registryRecords (kv : KV) (plan : Plan) : Intent → Option (List StateRecord)
  | .attachment ulid .drain _ =>
    match kv.get (identityAddr ulid) with
    | some ⟨_, .object f, _, _⟩ =>
      some [⟨identityAddr ulid, some (.object (f.set "status" (.str "draining")))⟩]
    | _ => none
  | _ => some plan.records

/-- `BoundTo`: the identities the registry has on an element. -/
def boundIn (kv : KV) (element : String) : List String :=
  kv.filterMap fun r ↦
    match r.addr.contract, r.payload with
    | .enrolledIdentity, .object f =>
      if textOf (f.get "element") = element then some (textOf (f.get "ulid")) else none
    | _, _ => none

/-- `nodeAttachmentAlreadyApplied`, with the attachment it finds. -/
def alreadyApplied (expected : Expected) (sn : Snapshot) : Intent → Option Attachment
  | .attachment ulid action mountElement => do
    let at_ ← sn.attachment ulid
    let wanted ← expected.lookup (.attachment ulid)
    if at_.record.version < wanted then none
    else if !expected.all fun x ↦ x.1 = .attachment ulid ||
        (sn.recordOf x.1).map (·.version) = some x.2 then none
    else
      let draining := textOf (at_.fields.get "status") = "draining"
      match action with
      | .drain => if mountElement = "" ∧ draining then some at_ else none
      | .remount =>
        if (expected.lookup (.entity .systemElement mountElement)).isSome ∧ mountElement ≠ "" ∧
            ¬ draining ∧ textOf (at_.fields.get "element") = mountElement then some at_
        else none
  | _ => none

def AttachAction.name : AttachAction → String
  | .drain => "drain"
  | .remount => "remount"

/-- The message of an attachment that was found applied. -/
def appliedMessage : Intent → String
  | .attachment _ action _ => "node attachment " ++ action.name ++ " already applied"
  | _ => ""

namespace State

variable (s : State D)

def answer (a : Answer D) : State D := { s with answers := s.answers ++ [a] }

/-- `remember`: the answer is cached, and the oldest one is dropped beyond the limit. -/
def remember (op : String) (r : Replay D) : State D :=
  let cache := (op, r) :: s.cache.filter (·.1 ≠ op)
  let order := s.order ++ [op]
  if editReplayLimit < order.length then
    { s with cache := cache.filter (some ·.1 ≠ order.head?), order := order.tail }
  else { s with cache := cache, order := order }

/-- The command ends with an answer that is remembered. -/
def settle (op : String) (r : Replay D) : State D :=
  ({ s with run := none }.remember op r).answer ⟨op, r.digest, r.code, r.message, r.writes⟩

/-- It ends with an answer that is not. -/
def fail (op : String) (d : D) (r : Refusal) : State D :=
  { s with run := none }.answer ⟨op, d, r.why.code, r.message, []⟩

/-- How many receipts go with the next one. -/
def prunes : ℕ := s.receipts.length + 1 - editReplayLimit

/-- The next receipt, written after `records` records of the batch. -/
def putReceipt (records : ℕ) (rc : Receipt D) : State D :=
  let rc := { rc with offset := s.next + s.prunes + records }
  { s with
    receipts := (s.receipts.drop s.prunes).filter (·.op ≠ rc.op) ++ [rc]
    next := rc.offset + 1
    log := s.log ++ [rc] }

@[simp] theorem putReceipt_kv (n : ℕ) (rc : Receipt D) : (s.putReceipt n rc).kv = s.kv := rfl
@[simp] theorem putReceipt_done (n : ℕ) (rc : Receipt D) : (s.putReceipt n rc).done = s.done := rfl

/-- What other writers append. -/
def append (batch : List StateRecord) : State D :=
  { s with kv := s.kv.commit s.next batch, next := s.next + batch.length }

/-- An answer that is remembered ends the command; what the cache held of other operations, it may lose. -/
theorem settle_eq (op : String) (r : Replay D) : ∃ cache order,
    (∀ x ∈ cache, x = (op, r) ∨ x ∈ s.cache ∧ x.1 ≠ op) ∧
    ((s.cache.map (·.1)).Nodup → (cache.map (·.1)).Nodup) ∧
    s.settle op r = { s with
      run := none, cache := cache, order := order
      answers := s.answers ++ [⟨op, r.digest, r.code, r.message, r.writes⟩] } := by
  have hcache : ∀ x ∈ (op, r) :: s.cache.filter (·.1 ≠ op), x = (op, r) ∨ x ∈ s.cache ∧ x.1 ≠ op := by
    intro x hx
    rcases List.mem_cons.mp hx with rfl | hx
    · exact .inl rfl
    · exact .inr (by simpa using List.mem_filter.mp hx)
  have hnodup : (s.cache.map (·.1)).Nodup →
      (((op, r) :: s.cache.filter (·.1 ≠ op)).map (·.1)).Nodup := by
    intro h
    refine List.nodup_cons.mpr ⟨?_, h.sublist (List.filter_sublist.map _)⟩
    simp
  unfold settle remember
  dsimp only
  split
  · refine ⟨_, _, ?_, ?_, rfl⟩
    · exact fun x hx ↦ hcache x (List.mem_filter.mp hx).1
    · exact fun h ↦ (hnodup h).sublist (List.filter_sublist.map _)
  · exact ⟨_, _, hcache, hnodup, rfl⟩

end State

section Step

variable [DecidableEq D] (digest : Cmd → D) (binds : String → Bool)

/-- The answer to an operation that is known: the same again, or a conflict. -/
def replayed (op : String) (d : D) (r : Replay D) : Answer D :=
  if r.digest = d then ⟨op, d, r.code, r.message, r.writes⟩
  else ⟨op, d, Failure.conflict.code, "idempotency_conflict", []⟩

/-- The executor takes a command: it is known, or the work begins. -/
def beginCmd (s : State D) (c : Cmd) : State D :=
  let s := { s with begun := s.begun ++ [c] }
  match s.cache.lookup c.op with
  | some r => s.answer (replayed c.op (digest c) r)
  | none =>
    match s.receipts.find? (·.op = c.op) with
    | some rc =>
      match rc.replay with
      | some r => { s with cache := (c.op, r) :: s.cache }.answer (replayed c.op (digest c) r)
      | none => s.answer ⟨c.op, digest c, Failure.conflict.code,
          "edit replay receipt is unreadable: receipt offset cannot reconstruct its state writes", []⟩
    | none =>
      match c.intent with
      | .unreadable message =>
        s.settle c.op ⟨digest c, Failure.invalid.code, "intent must be an object: " ++ message, []⟩
      | _ => { s with run := some ⟨c, .begun, []⟩ }

/-- The decision, from a snapshot. -/
def decideCmd (s : State D) (r : Run) (sn : Snapshot) (other : Plan) (extra : List StateRecord)
    (deny : Option Refusal) : State D :=
  let c := r.cmd
  let refuse (x : Refusal) := s.settle c.op ⟨digest c, x.why.code, x.message, []⟩
  match alreadyApplied (c.sent binds) sn c.intent with
  | some at_ =>
    { s with run := some (r.goto
        (.halfway (appliedMessage c.intent) [⟨.entities, at_.record.offset, at_.record.addr⟩])) }
  | none =>
    match validateSuppliedVersions (c.sent binds) sn with
    | some message => refuse ⟨.conflict, message⟩
    | none =>
      match compose binds s.kv (boundIn s.kv) (c.sent binds) sn other c.intent with
      | .error x => refuse x
      | .ok plan =>
        match deny with
        | some x => refuse x
        | none =>
          if c.intent.isMetadata ∧ plan.records = [] then
            -- nothing is written, so there is no receipt
            s.settle c.op ⟨digest c, 200, plan.message, []⟩
          else
            let plan := if c.intent.via = .state then { plan with records := plan.records ++ extra }
              else plan
            { s with run := some (r.goto (.decided sn plan)) }

/-- The commit of a plan; `none` when the registry cannot write it. -/
def commitPlan (s : State D) (r : Run) (sn : Snapshot) (plan : Plan) : Option (State D) :=
  let c := r.cmd
  let done (wrote : List Addr) : Done :=
    ⟨c.sent binds, plan.required, sn, wrote, r.seenAt, s.kv⟩
  match c.intent.via with
  | .state =>
    if authored plan.records = false then none
    else if plan.records = [] then
      some (s.fail c.op (digest c)
        ⟨.failed, "edit receipt failed: a successful operation must produce state"⟩)
    else
      let first := s.next + s.prunes
      let s' := s.putReceipt plan.records.length
        ⟨c.op, digest c, plan.message, plan.records.map (·.addr), [], 0⟩
      some { s' with
        kv := s.kv.commit first plan.records
        run := some (r.goto (.finishing plan.message (writesFrom first (plan.records.map (·.addr)))))
        committed := s.committed ++ [c]
        done := s.done ++ [done (plan.records.map (·.addr))] }
  | .event =>
    some { s with
      nextEvent := s.nextEvent + 1
      run := some (r.goto
        (.halfway plan.message (plan.records.map fun x ↦ ⟨.annotations, s.nextEvent, x.addr⟩)))
      committed := s.committed ++ [c] }
  | .registry =>
    (registryRecords s.kv plan c.intent).map fun records ↦
      { s.append records with
        run := some (r.goto (.halfway plan.message (writesFrom s.next (records.map (·.addr)))))
        committed := s.committed ++ [c]
        done := s.done ++ [done (records.map (·.addr))] }

/-- A step of the node. -/
def step (s : State D) (e : Event) : Option (State D) :=
  match e, s.run with
  | .beginCmd c, none => some (beginCmd digest s c)
  | .snapshot, some r =>
    match r.phase with
    | .begun =>
      match readSnapshot s.kv with
      | .ok sn => some { s with run := some { r with phase := .seen sn, seenAt := s.kv } }
      | .error x => some (s.fail r.cmd.op (digest r.cmd) ⟨.conflict, x.message⟩)
    | _ => none
  | .decide other extra deny, some r =>
    match r.phase with
    | .seen sn => some (decideCmd digest binds s r sn other extra deny)
    | _ => none
  | .commit fate, some r =>
    match r.phase with
    | .decided sn plan =>
      match fate with
      | .done => commitPlan digest binds s r sn plan
      | .refused x => some (s.settle r.cmd.op ⟨digest r.cmd, x.why.code, x.message, []⟩)
      | .failed => some (s.fail r.cmd.op (digest r.cmd) ⟨.failed, "edit commit failed"⟩)
    | _ => none
  | .receipt ok, some r =>
    match r.phase with
    | .halfway message writes =>
      if ok then
        some { s.putReceipt 0 ⟨r.cmd.op, digest r.cmd, message, writes.map (·.addr), writes, 0⟩ with
          run := some (r.goto (.finishing message writes)) }
      else some (s.fail r.cmd.op (digest r.cmd) ⟨.failed, "edit receipt failed"⟩)
    | _ => none
  | .reply, some r =>
    match r.phase with
    | .finishing message writes => some (s.settle r.cmd.op ⟨digest r.cmd, 200, message, writes⟩)
    | _ => none
  | .crash, _ => some { s with run := none, cache := [], order := [], config := none }
  | .configDecide batch, _ => if s.config.isNone then some { s with config := some batch } else none
  | .configCommit ok, _ =>
    match s.config with
    | none => none
    | some batch =>
      if ok && authored batch then some { s.append batch with config := none }
      else some { s with config := none }
  | .door r, _ => if authored [r] then some (s.append [r]) else none
  | .enroll ulid fields, _ =>
    some (s.append [⟨identityAddr ulid, fields.map fun f ↦ .object (f.set "ulid" (.str ulid))⟩])
  | .refresh a, _ =>
    if (s.kv.get a).isSome then some { s with kv := s.kv.refresh s.next a, next := s.next + 1 } else none
  | .refreshReceipt op, _ =>
    match s.receipts.find? (·.op = op) with
    | none => none
    | some rc =>
      some { s with
        receipts := s.receipts.filter (·.op ≠ op) ++ [{ rc with offset := s.next }]
        next := s.next + 1
        moved := true }
  | _, _ => none

/-- The node from its first start. -/
def machine : StateMachine (State D) Event := ⟨{}, step digest binds⟩

/-! ### What an event does -/

variable {digest binds} {s s' : State D}

attribute [local simp] step

theorem step_beginCmd {c : Cmd} (h : step digest binds s (.beginCmd c) = some s') :
    s.run = none ∧ s' = beginCmd digest s c := by
  cases hr : s.run with
  | none =>
    simp only [step, hr] at h
    exact ⟨rfl, (Option.some.inj h).symm⟩
  | some r => simp [hr] at h

theorem step_snapshot (h : step digest binds s .snapshot = some s') : ∃ r, s.run = some r ∧
    r.phase = .begun ∧
    ((∃ sn, readSnapshot s.kv = .ok sn ∧
        s' = { s with run := some { r with phase := .seen sn, seenAt := s.kv } }) ∨
      ∃ x, s' = s.fail r.cmd.op (digest r.cmd) x) := by
  cases hr : s.run with
  | none => simp [hr] at h
  | some r =>
    simp only [step, hr] at h
    cases hp : r.phase with
    | begun =>
      simp only [hp] at h
      refine ⟨r, rfl, hp, ?_⟩
      split at h
      · rename_i sn hsn
        exact .inl ⟨sn, hsn, (Option.some.inj h).symm⟩
      · exact .inr ⟨_, (Option.some.inj h).symm⟩
    | _ => simp [hp] at h

theorem step_decide {other : Plan} {extra : List StateRecord} {deny : Option Refusal}
    (h : step digest binds s (.decide other extra deny) = some s') : ∃ r sn, s.run = some r ∧
    r.phase = .seen sn ∧ s' = decideCmd digest binds s r sn other extra deny := by
  cases hr : s.run with
  | none => simp [hr] at h
  | some r =>
    simp only [step, hr] at h
    cases hp : r.phase with
    | seen sn =>
      simp only [hp, Option.some.injEq] at h
      exact ⟨r, sn, rfl, hp, h.symm⟩
    | _ => simp [hp] at h

variable (digest binds) in
omit [DecidableEq D] in
/-- What a decision comes to. -/
theorem decideCmd_cases (s : State D) (r : Run) (sn : Snapshot) (other : Plan) (extra : List StateRecord)
    (deny : Option Refusal) :
    (∃ x, alreadyApplied (r.cmd.sent binds) sn r.cmd.intent = some x ∧
      decideCmd digest binds s r sn other extra deny = { s with run := some (r.goto
        (.halfway (appliedMessage r.cmd.intent) [⟨.entities, x.record.offset, x.record.addr⟩])) }) ∨
    (∃ x : Refusal, decideCmd digest binds s r sn other extra deny =
      s.settle r.cmd.op ⟨digest r.cmd, x.why.code, x.message, []⟩) ∨
    (∃ message, r.cmd.intent.isMetadata ∧ decideCmd digest binds s r sn other extra deny =
      s.settle r.cmd.op ⟨digest r.cmd, 200, message, []⟩) ∨
    ∃ plan more, alreadyApplied (r.cmd.sent binds) sn r.cmd.intent = none ∧
      validateSuppliedVersions (r.cmd.sent binds) sn = none ∧
      compose binds s.kv (boundIn s.kv) (r.cmd.sent binds) sn other r.cmd.intent = .ok plan ∧
      (r.cmd.intent.via ≠ .state → more = []) ∧
      decideCmd digest binds s r sn other extra deny = { s with run := some (r.goto
        (.decided sn { plan with records := plan.records ++ more })) } := by
  unfold decideCmd
  dsimp only
  split
  · exact .inl ⟨_, by assumption, rfl⟩
  · rename_i hnot
    split
    · exact .inr (.inl ⟨⟨.conflict, _⟩, rfl⟩)
    · rename_i hversions
      split
      · exact .inr (.inl ⟨_, rfl⟩)
      · rename_i plan hplan
        split
        · exact .inr (.inl ⟨_, rfl⟩)
        · split
          · rename_i hmeta
            exact .inr (.inr (.inl ⟨_, hmeta.1, rfl⟩))
          · refine .inr (.inr (.inr ⟨plan, if r.cmd.intent.via = .state then extra else [], hnot, hversions,
              hplan, fun hvia ↦ if_neg hvia, ?_⟩))
            split <;> simp

theorem step_commit {fate : Fate} (h : step digest binds s (.commit fate) = some s') :
    ∃ r sn plan, s.run = some r ∧ r.phase = .decided sn plan ∧
    ((fate = .done ∧ commitPlan digest binds s r sn plan = some s') ∨
      (∃ x, fate = .refused x ∧ s' = s.settle r.cmd.op ⟨digest r.cmd, x.why.code, x.message, []⟩) ∨
      fate = .failed ∧ ∃ x, s' = s.fail r.cmd.op (digest r.cmd) x) := by
  cases hr : s.run with
  | none => simp [hr] at h
  | some r =>
    simp only [step, hr] at h
    cases hp : r.phase with
    | decided sn plan =>
      refine ⟨r, sn, plan, rfl, hp, ?_⟩
      simp only [hp] at h
      cases fate with
      | done => exact .inl ⟨rfl, h⟩
      | refused x => exact .inr (.inl ⟨x, rfl, (Option.some.inj h).symm⟩)
      | failed => exact .inr (.inr ⟨rfl, _, (Option.some.inj h).symm⟩)
    | _ => simp [hp] at h

theorem step_receipt {ok : Bool} (h : step digest binds s (.receipt ok) = some s') :
    ∃ r message writes, s.run = some r ∧ r.phase = .halfway message writes ∧
    ((ok = true ∧ s' = { s.putReceipt 0 ⟨r.cmd.op, digest r.cmd, message, writes.map (·.addr), writes, 0⟩ with
        run := some (r.goto (.finishing message writes)) }) ∨
      ok = false ∧ ∃ x, s' = s.fail r.cmd.op (digest r.cmd) x) := by
  cases hr : s.run with
  | none => simp [hr] at h
  | some r =>
    simp only [step, hr] at h
    cases hp : r.phase with
    | halfway message writes =>
      refine ⟨r, message, writes, rfl, hp, ?_⟩
      simp only [hp] at h
      cases ok with
      | true => exact .inl ⟨rfl, (Option.some.inj h).symm⟩
      | false => exact .inr ⟨rfl, _, (Option.some.inj h).symm⟩
    | _ => simp [hp] at h

theorem step_reply (h : step digest binds s .reply = some s') :
    ∃ r message writes, s.run = some r ∧ r.phase = .finishing message writes ∧
      s' = s.settle r.cmd.op ⟨digest r.cmd, 200, message, writes⟩ := by
  cases hr : s.run with
  | none => simp [hr] at h
  | some r =>
    simp only [step, hr] at h
    cases hp : r.phase with
    | finishing message writes =>
      simp only [hp, Option.some.injEq] at h
      exact ⟨r, message, writes, rfl, hp, h.symm⟩
    | _ => simp [hp] at h

/-- The batch another writer commits. -/
def Event.batch (s : State D) : Event → List StateRecord
  | .configCommit true => s.config.getD []
  | .door r => [r]
  | .enroll ulid fields =>
    [⟨identityAddr ulid, fields.map fun f ↦ .object (f.set "ulid" (.str ulid))⟩]
  | _ => []

/-- A record of an identity stands at its position and names it. -/
def StateRecord.Names (r : StateRecord) : Prop :=
  r.addr.contract = .enrolledIdentity → ∃ ulid, r.addr = identityAddr ulid ∧
    ∀ p ∈ r.payload, ∃ f : Fields, p = .object f ∧ textOf (f.get "ulid") = ulid

theorem names_of_authored {batch : List StateRecord} (h : authored batch = true) :
    ∀ r ∈ batch, r.Names := by
  intro r hr hc
  have hne := List.all_eq_true.mp h r hr
  simp [hc] at hne

/-- What an event outside the executor does. -/
inductive Outside (s : State D) (e : Event) : State D → Prop
  | crash : Outside s e { s with run := none, cache := [], order := [], config := none }
  /-- A configure command decides, or fails. -/
  | config (c : Option (List StateRecord)) : Outside s e { s with config := c }
  /-- Another writer commits. -/
  | append (c : Option (List StateRecord)) : (∀ r ∈ e.batch s, r.Names) →
      Outside s e { s.append (e.batch s) with config := c }
  | refresh (a : Addr) : (s.kv.get a).isSome →
      Outside s e { s with kv := s.kv.refresh s.next a, next := s.next + 1 }
  | refreshReceipt (rc : Receipt D) : s.receipts.find? (·.op = rc.op) = some rc →
      Outside s e { s with
        receipts := s.receipts.filter (·.op ≠ rc.op) ++ [{ rc with offset := s.next }]
        next := s.next + 1
        moved := true }

/-- The events of the executor. -/
def Event.isOwn : Event → Bool
  | .beginCmd _ | .snapshot | .decide _ _ _ | .commit _ | .receipt _ | .reply => true
  | _ => false

theorem step_outside {e : Event} (he : e.isOwn = false) (h : step digest binds s e = some s') :
    Outside s e s' := by
  cases e with
  | crash =>
    simp only [step, Option.some.injEq] at h
    subst h
    exact .crash
  | configDecide batch =>
    simp only [step] at h
    split at h
    · cases h
      exact .config _
    · cases h
  | configCommit ok =>
    simp only [step] at h
    split at h
    · cases h
    · rename_i batch hbatch
      cases ok with
      | false =>
        simp only [Bool.false_and, Bool.false_eq_true, if_false, Option.some.injEq] at h
        subst h
        exact .config _
      | true =>
        have hb : Event.batch s (.configCommit true) = batch := by simp [Event.batch, hbatch]
        simp only [Bool.true_and] at h
        split at h
        · rename_i hauth
          cases h
          rw [← hb] at hauth ⊢
          exact .append none (names_of_authored hauth)
        · cases h
          exact .config _
  | door r =>
    simp only [step] at h
    split at h
    · rename_i hauth
      cases h
      have hnames : ∀ x ∈ [r], x.Names := names_of_authored hauth
      exact .append s.config hnames
    · cases h
  | enroll ulid fields =>
    simp only [step, Option.some.injEq] at h
    subst h
    refine .append (e := .enroll ulid fields) s.config fun r hr _ ↦ ?_
    rw [Event.batch, List.mem_singleton] at hr
    subst hr
    refine ⟨ulid, rfl, fun p hp ↦ ?_⟩
    obtain ⟨f, -, rfl⟩ := Option.map_eq_some_iff.mp hp
    exact ⟨_, rfl, by simp [Fields.get_set_self, textOf, rawString]⟩
  | refresh a =>
    simp only [step] at h
    split at h
    · rename_i ha
      cases h
      exact .refresh a ha
    · cases h
  | refreshReceipt op =>
    simp only [step] at h
    split at h
    · cases h
    · rename_i rc hrc
      have hop : rc.op = op := by simpa using List.find?_some hrc
      cases h
      subst hop
      exact .refreshReceipt rc hrc
  | _ => cases he

end Step

end Colca.Edit
