import Colca.Lib.StateMachine
import Colca.Store.Record

/-!
# The MQTT door

Every way a message gets onto the node's bus: publishes of clients, which go through the engine first,
deliveries of the engine through the inline client, retained messages replayed to a new subscriber, and
last wills. The broker is not part of the modelled code. Of it is assumed that a publish is fanned out or
retained only when `onPublish` returns no code, and that a last will is broadcast and retained when its
connection ends abnormally, without `onPublish`, and then reported to `onWillSent`. What the engine says
about a publish is part of the event, so a run is one under any engine.

A message carries where it came from. The node **admitted** it when it is the engine's delivery of a record
the engine has stored. A last will below the root is not (`will_not_admitted`), nor is the `_Ack` of a command
the engine refuses, which is delivered and not stored; these are the only exceptions
(`onlyAdmitted_of_reach`).
-/

namespace Colca.Mqtt

open Uns List Option

/-- The topic is under the root. -/
def isUns (root : String) : Topic → Bool
  | r :: _ :: _ => r == root
  | _ => false

/-! ### What the engine says about a publish -/

/-- Why the engine rejects a publish. -/
inductive Reason
  | grammar | validation | nodeID | cmdDenied | registryContract | writeDenied | humanWrite | notProducer
  | draining
  /-- Any other reason, or none. -/
  | other
  deriving DecidableEq, Repr

/-- Why a log record is accepted without being stored. -/
inductive Withheld
  | collapsed | rateLimited
  deriving DecidableEq, Repr

def Withheld.name : Withheld → String
  | .collapsed => "collapsed"
  | .rateLimited => "rate_limited"

/-- What the engine does with a publish it accepts. -/
inductive Admission
  /-- It stores a record, under the topic in this node's coordinates. -/
  | persisted (topic : Topic)
  | duplicate
  | answered
  | withheld (why : Withheld)
  deriving DecidableEq, Repr

/-- The engine's result. -/
structure Result where
  persisted : Bool := false
  duplicate : Bool := false
  answered : Bool := false
  withheld : String := ""
  topic : Topic := noPath

def Admission.result : Admission → Result
  | .persisted topic => { persisted := true, topic := topic }
  | .duplicate => { duplicate := true }
  | .answered => { answered := true }
  | .withheld why => { withheld := why.name }

/-- What the engine says about a topic under the root. -/
abbrev Verdict := Except Reason Admission

/-- `IngestClient`: outside the root is ordinary broker traffic. -/
def ingestClient (root : String) (topic : Topic) (v : Verdict) : Except Reason Result :=
  if isUns root topic then v.map Admission.result else .ok {}

/-- `IngestHuman`. -/
def ingestHuman (root : String) (topic : Topic) (v : Verdict) : Except Reason Result :=
  if isUns root topic then v.map Admission.result else .error .grammar

/-! ### The publish hook -/

/-- The codes the hook returns. -/
inductive Code
  /-- The packet is dropped unanswered. -/
  | rejectPacket
  | topicNameInvalid
  | payloadFormatInvalid
  | notAuthorized
  | implementationSpecificError
  /-- The publish is acknowledged and not fanned out. -/
  | successIgnore
  deriving DecidableEq, Repr

inductive Listener
  | machine | service | human
  deriving DecidableEq, Repr

/-- A last will. -/
structure Will where
  topic : Topic
  payload : Payload
  retain : Bool
  deriving DecidableEq, Repr

structure Client where
  /-- The authenticated identity, empty for the inline client. -/
  ident : String
  inline : Bool := false
  listener : Listener := .machine
  protocolVersion : ℕ := 5
  will : Option Will := none
  deriving DecidableEq, Repr

structure Packet where
  topic : Topic
  payload : Payload
  qos : ℕ
  retain : Bool
  deriving DecidableEq, Repr

/-- The broker acts on a reason code only for an MQTT 5 client at QoS 1 or 2. -/
def refuse (cl : Client) (pk : Packet) (code : Code) : Code :=
  if cl.protocolVersion < 5 || pk.qos = 0 then .rejectPacket else code

def rejectCode (cl : Client) (pk : Packet) : Reason → Code
  | .grammar => refuse cl pk .topicNameInvalid
  | .validation => refuse cl pk .payloadFormatInvalid
  | .nodeID | .cmdDenied | .registryContract | .writeDenied | .humanWrite | .notProducer =>
    refuse cl pk .notAuthorized
  | .draining => refuse cl pk .implementationSpecificError
  | .other => .rejectPacket

/-- A record of the engine, or a message on the bus. -/
structure Message where
  topic : Topic
  payload : Payload
  deriving DecidableEq, Repr

/-- The record an accepted publish is stored as. -/
def Result.record (r : Result) (payload : Payload) : Option Message :=
  if r.persisted then some ⟨r.topic, payload⟩ else none

/-- What the hook reads besides the packet. -/
structure Hook where
  /-- The configured root of the namespace. -/
  root : String
  /-- The node is shutting down. -/
  closing : Bool := false
  /-- The engine is bound. -/
  bound : Bool := true

/-- `OnPublish`: the code it returns, `none` for no error, and the record the engine stored. `session` says
that a person's session exists and is not expired. -/
def onPublish (h : Hook) (cl : Client) (pk : Packet) (session : Bool) (v : Verdict) :
    Option Code × Option Message :=
  if !cl.inline && h.closing then (some .rejectPacket, none)
  else if cl.ident = "" then (none, none)
  -- the retained set is the engine's projection: nothing else is retained
  else if pk.retain && !isUns h.root pk.topic then
    (some (refuse cl pk .implementationSpecificError), none)
  else if !h.bound then (some .rejectPacket, none)
  else if cl.listener = .human then
    if !isUns h.root pk.topic then (none, none)
    else if !session then (some .rejectPacket, none)
    else
      match ingestHuman h.root pk.topic v with
      | .error r => (some (rejectCode cl pk r), none)
      | .ok res => (some .successIgnore, res.record pk.payload)
  else
    match ingestClient h.root pk.topic v with
    | .error r => (some (rejectCode cl pk r), none)
    | .ok res =>
      if res.duplicate || res.answered || res.withheld != "" then
        (some .successIgnore, res.record pk.payload)
      else if res.persisted then (some .successIgnore, res.record pk.payload)
      else (none, none)

/-- `OnWillSent`: the record the engine stores for a will that has been broadcast. -/
def onWillSent (h : Hook) (cl : Client) (w : Will) (v : Verdict) : Option Message :=
  if cl.ident = "" || !isUns h.root w.topic then none
  else if !h.bound then none
  else
    match ingestClient h.root w.topic v with
    | .error _ => none
    | .ok res => res.record w.payload

variable {root : String} {v : Verdict} {cl : Client} {m : Message} {e : Event} {w : Will}

/-- Below the root the engine accepts a publish only as something. -/
theorem result_of_isUns {topic : Topic} {res : Result}
    (huns : isUns root topic) (h : ingestClient root topic v = .ok res) :
    (res.duplicate || res.answered || res.withheld != "") ∨ res.persisted := by
  rw [ingestClient, if_pos huns] at h
  rcases v with r | a
  · cases h
  · obtain rfl : a.result = res := Except.ok.inj h
    rcases a with t | _ | _ | why
    · exact .inr rfl
    · exact .inl rfl
    · exact .inl rfl
    · exact .inl (by cases why <;> decide)

/-- **A client's publish is fanned out by the broker only outside the root**, and is never retained. -/
theorem onPublish_eq_none {h : Hook} {pk : Packet} {session : Bool}
    (hid : cl.ident ≠ "") (hcode : (onPublish h cl pk session v).1 = none) :
    isUns h.root pk.topic = false ∧ pk.retain = false := by
  simp only [onPublish, if_neg hid] at hcode
  split at hcode
  · cases hcode
  split at hcode
  · cases hcode
  rename_i hretain
  split at hcode
  · cases hcode
  cases huns : isUns h.root pk.topic with
  | false => simpa [huns] using hretain
  | true =>
    exfalso
    rw [huns] at hcode
    split at hcode
    · -- a person's publish is always answered with a code
      split at hcode
      · rename_i hnot
        cases hnot
      split at hcode
      · cases hcode
      split at hcode <;> cases hcode
    · split at hcode
      · cases hcode
      · rename_i res hres
        have hflags := result_of_isUns huns hres
        split at hcode
        · cases hcode
        split at hcode
        · cases hcode
        · exact hflags.elim (by assumption) (by assumption)

/-! ### The bus -/

/-- Where a message on the bus came from. -/
inductive Source
  /-- The engine passed the record with this number to `DeliverLocal`. -/
  | record (k : ℕ)
  /-- It passed an `_Ack` there that it does not store. -/
  | answer
  | publish
  | will
  deriving DecidableEq, Repr

/-- A message on the bus. -/
structure Sent extends Message where
  source : Source
  deriving DecidableEq, Repr

structure State where
  hook : Hook
  clients : List Client := []
  /-- The records the engine admitted, in order. -/
  admitted : List Message := []
  /-- What subscribers received. -/
  sent : List Sent := []
  retained : List Sent := []

inductive Event
  | connect (c : Client)
  | publish (i : ℕ) (pk : Packet) (session : Bool) (v : Verdict)
  /-- The engine admits a record through another door. -/
  | accept (m : Message)
  /-- The engine passes a record to `DeliverLocal`. -/
  | deliver (k : ℕ) (retain : Bool)
  /-- `Engine.answer` and `refuseForeignUse`: the engine answers a command it refuses, or a repeat of it. -/
  | answer (node : String) (path : Path) (ack : Payload)
  /-- A new subscriber receives a retained message. -/
  | replay (k : ℕ)
  | disconnect (i : ℕ) (abnormal : Bool) (v : Verdict)
  | bind
  | close

/-- The broker's retained message of a topic; an empty one clears it. -/
def retain (rs : List Sent) (m : Sent) : List Sent :=
  (rs.filter fun r ↦ r.topic != m.topic) ++ if m.payload.isEmpty then [] else [m]

/-- The broker fans a message out. -/
def State.fanOut (s : State) (m : Sent) (retained : Bool) : State :=
  { s with
    sent := s.sent ++ [m]
    retained := if retained then retain s.retained m else s.retained }

/-- The inline client of `DeliverLocal`. -/
def inlineClient : Client := { ident := "", inline := true }

/-- The broker's part of a publish: it goes through `onPublish`, and is fanned out when that returns no
code. -/
def State.publish (s : State) (cl : Client) (pk : Packet) (source : Source) (session : Bool)
    (v : Verdict) : State :=
  let r := onPublish s.hook cl pk session v
  let s := { s with admitted := s.admitted ++ r.2.toList }
  match r.1 with
  | none => s.fanOut ⟨⟨pk.topic, pk.payload⟩, source⟩ pk.retain
  | some _ => s

/-- `DeliverLocal`. -/
def State.deliverLocal (s : State) (m : Message) (source : Source) (retain : Bool) : State :=
  if maxTopicBytes < topicBytes m.topic then s
  else s.publish inlineClient ⟨m.topic, m.payload, 1, retain⟩ source false (.error .other)

def ackTopic (root node : String) (path : Path) : Topic := root :: "v1" :: "_Ack" :: node :: path

/-- A connection ends abnormally: the will is broadcast, then reported. -/
def State.sendWill (s : State) (cl : Client) (w : Will) (v : Verdict) : State :=
  let s := s.fanOut ⟨⟨w.topic, w.payload⟩, .will⟩ w.retain
  { s with admitted := s.admitted ++ (onWillSent s.hook cl w v).toList }

def step (s : State) : Event → Option State
  | .connect c =>
    -- a client is authenticated as an identity, and never as the inline client
    if s.hook.closing || c.inline || c.ident = "" then none
    else some { s with clients := s.clients ++ [c] }
  | .publish i pk session v => s.clients[i]?.map fun c ↦ s.publish c pk .publish session v
  | .accept m => some { s with admitted := s.admitted ++ [m] }
  | .deliver k retain => s.admitted[k]?.map fun m ↦ s.deliverLocal m (.record k) retain
  | .answer node path ack => some (s.deliverLocal ⟨ackTopic s.hook.root node path, ack⟩ .answer false)
  | .replay k => s.retained[k]?.map fun m ↦ { s with sent := s.sent ++ [m] }
  | .disconnect i abnormal v => s.clients[i]?.map fun c ↦
      let s := { s with clients := s.clients.eraseIdx i }
      match c.will with
      | some w => if abnormal then s.sendWill c w v else s
      | none => s
  | .bind => some { s with hook := { s.hook with bound := true } }
  | .close => some { s with hook := { s.hook with closing := true } }

/-- A node whose broker has started and whose engine is not bound yet. -/
def system (root : String) : StateMachine State Event where
  start := { hook := { root := root, bound := false } }
  step := step

/-! ### What the node admitted -/

/-- The message is the engine's delivery of a record it admitted. -/
def State.Admitted (s : State) (m : Sent) : Prop :=
  ∃ k, m.source = .record k ∧ s.admitted[k]? = some m.toMessage

/-- **Nothing reaches the bus below the root that the node did not admit.** -/
def OnlyAdmitted (s : State) : Prop :=
  ∀ m, m ∈ s.sent ∨ m ∈ s.retained → isUns s.hook.root m.topic → s.Admitted m

/-- **The condition**: a connection that ends abnormally has no last will below the root, and no `_Ack` goes
out that is not stored. -/
def OnlyStored (s : State) : Event → Prop
  | .disconnect i true _ => ∀ c ∈ s.clients[i]?.toList, ∀ w ∈ c.will.toList,
      isUns s.hook.root w.topic = false
  | .answer node path _ => maxTopicBytes < topicBytes (ackTopic s.hook.root node path)
  | _ => True

instance (s : State) : ∀ e, Decidable (OnlyStored s e)
  | .disconnect i true _ => inferInstanceAs (Decidable (∀ c ∈ s.clients[i]?.toList, _))
  | .answer .. => inferInstanceAs (Decidable (_ < _))
  | .disconnect _ false _ | .connect _ | .publish .. | .accept _ | .deliver .. | .replay _ | .bind
  | .close => isTrue trivial

/-- The clients are authenticated. -/
def Named (s : State) : Prop := ∀ c ∈ s.clients, c.ident ≠ ""

variable {s s' : State}

theorem mem_retain {rs : List Sent} {m x : Sent} (h : x ∈ retain rs m) : x ∈ rs ∨ x = m := by
  rcases mem_append.mp h with h | h
  · exact .inl (mem_filter.mp h).1
  · split at h
    · cases h
    · exact .inr (mem_singleton.mp h)

theorem State.Admitted.append {m : Sent} (h : s.Admitted m) (xs : List Message) :
    State.Admitted { s with admitted := s.admitted ++ xs } m := by
  obtain ⟨k, hk, hm⟩ := h
  refine ⟨k, hk, ?_⟩
  show (s.admitted ++ xs)[k]? = _
  rw [getElem?_append_left (List.getElem?_eq_some_iff.mp hm).1]
  exact hm

theorem OnlyAdmitted.append (h : OnlyAdmitted s) (xs : List Message) :
    OnlyAdmitted { s with admitted := s.admitted ++ xs } :=
  fun m hm huns ↦ (h m hm huns).append xs

/-- Fanning out is harmless for what was admitted, and outside the root. -/
theorem OnlyAdmitted.fanOut (h : OnlyAdmitted s) {m : Sent} (retained : Bool)
    (hm : isUns s.hook.root m.topic → s.Admitted m) : OnlyAdmitted (s.fanOut m retained) := by
  intro x hx huns
  have hx' : (x ∈ s.sent ∨ x ∈ s.retained) ∨ x = m := by
    rcases hx with hx | hx
    · exact (mem_append.mp hx).imp .inl mem_singleton.mp
    · rcases Bool.eq_false_or_eq_true retained with rfl | rfl
      · exact (mem_retain hx).imp_left .inr
      · exact .inl (.inr hx)
  rcases hx' with hx' | rfl
  · exact h x hx' huns
  · exact hm huns

/-- A publish of a client adds nothing below the root that was not admitted. -/
theorem OnlyAdmitted.publish (h : OnlyAdmitted s) (hid : cl.ident ≠ "") (pk : Packet)
    (session : Bool) (v : Verdict) : OnlyAdmitted (s.publish cl pk .publish session v) := by
  unfold State.publish
  dsimp only
  split
  · rename_i hcode
    refine (h.append _).fanOut _ fun huns ↦ ?_
    rw [(onPublish_eq_none hid hcode).1] at huns
    cases huns
  · exact h.append _

/-- The engine's publish goes out as the record it is of. -/
theorem OnlyAdmitted.deliver (h : OnlyAdmitted s) {k : ℕ} (hm : s.admitted[k]? = some m)
    (retain : Bool) : OnlyAdmitted (s.deliverLocal m (.record k) retain) := by
  unfold State.deliverLocal
  split
  · exact h
  · exact (h.append []).fanOut _ fun _ ↦ State.Admitted.append (s := s) ⟨k, rfl, hm⟩ []

/-- An answer goes out as none, unless its topic is too long to go out. -/
theorem onlyAdmitted_answer_iff (h : OnlyAdmitted s) (hm : isUns s.hook.root m.topic) :
    OnlyAdmitted (s.deliverLocal m .answer false) ↔ maxTopicBytes < topicBytes m.topic := by
  unfold State.deliverLocal
  split
  · exact iff_of_true h (by assumption)
  · refine iff_of_false (fun h ↦ ?_) (by assumption)
    obtain ⟨k, hk, -⟩ := h ⟨m, .answer⟩ (.inl (mem_append_right _ mem_cons_self)) hm
    cases hk

/-- A will outside the root adds nothing below it. -/
theorem OnlyAdmitted.sendWill (h : OnlyAdmitted s) (cl : Client)
    (hw : isUns s.hook.root w.topic = false) (v : Verdict) : OnlyAdmitted (s.sendWill cl w v) := by
  refine OnlyAdmitted.append (h.fanOut _ fun huns ↦ ?_) _
  rw [hw] at huns
  cases huns

/-- A will below the root does. -/
theorem not_onlyAdmitted_sendWill (cl : Client) (hw : isUns s.hook.root w.topic)
    (v : Verdict) : ¬ OnlyAdmitted (s.sendWill cl w v) := by
  intro h
  obtain ⟨k, hk, -⟩ := h ⟨⟨w.topic, w.payload⟩, .will⟩ (.inl (mem_append_right _ (by simp))) hw
  cases hk

theorem publish_clients (s : State) (cl : Client) (pk : Packet) (source : Source) (session : Bool)
    (v : Verdict) : (s.publish cl pk source session v).clients = s.clients := by
  unfold State.publish
  dsimp only
  split <;> rfl

theorem deliverLocal_clients (s : State) (m : Message) (source : Source) (retain : Bool) :
    (s.deliverLocal m source retain).clients = s.clients := by
  unfold State.deliverLocal
  split
  · rfl
  · exact publish_clients ..

theorem named_step (h : Named s) (hs : (system root).step s e = some s') : Named s' := by
  change step s e = some s' at hs
  cases e with
  | connect c =>
    simp only [step] at hs
    split at hs <;> cases hs
    rename_i hc
    intro c' hc'
    rcases mem_append.mp hc' with hc' | hc'
    · exact h c' hc'
    · rw [mem_singleton.mp hc']
      simp only [Bool.or_eq_true, decide_eq_true_eq, not_or] at hc
      exact hc.2
  | accept | bind | close =>
    cases hs
    exact h
  | publish i pk session v =>
    obtain ⟨c, -, rfl⟩ := map_eq_some_iff.mp hs
    exact fun c' hc' ↦ h c' (publish_clients .. ▸ hc')
  | deliver k retain =>
    obtain ⟨m, -, rfl⟩ := map_eq_some_iff.mp hs
    exact fun c' hc' ↦ h c' (deliverLocal_clients .. ▸ hc')
  | answer node path ack =>
    cases hs
    exact fun c' hc' ↦ h c' (deliverLocal_clients .. ▸ hc')
  | replay k =>
    obtain ⟨m, -, rfl⟩ := map_eq_some_iff.mp hs
    exact h
  | disconnect i abnormal v =>
    obtain ⟨c, -, rfl⟩ := map_eq_some_iff.mp hs
    have herase : ∀ c' ∈ s.clients.eraseIdx i, c'.ident ≠ "" :=
      fun c' hc' ↦ h c' (mem_of_mem_eraseIdx hc')
    dsimp only
    split
    · split <;> exact herase
    · exact herase

/-- **A step keeps the bus to what the node admitted exactly when it meets the condition.** -/
theorem onlyAdmitted_step_iff (hn : Named s) (h : OnlyAdmitted s)
    (hs : (system root).step s e = some s') : OnlyAdmitted s' ↔ OnlyStored s e := by
  change step s e = some s' at hs
  cases e with
  | connect c =>
    simp only [step] at hs
    split at hs <;> cases hs
    exact iff_of_true h trivial
  | accept m =>
    cases hs
    exact iff_of_true (h.append _) trivial
  | bind | close =>
    cases hs
    exact iff_of_true h trivial
  | publish i pk session v =>
    obtain ⟨c, hc, rfl⟩ := map_eq_some_iff.mp hs
    exact iff_of_true (h.publish (hn c (mem_of_getElem? hc)) pk session v) trivial
  | deliver k retain =>
    obtain ⟨m, hm, rfl⟩ := map_eq_some_iff.mp hs
    exact iff_of_true (h.deliver hm retain) trivial
  | answer node path ack =>
    cases hs
    exact onlyAdmitted_answer_iff h (beq_self_eq_true _)
  | replay k =>
    obtain ⟨m, hm, rfl⟩ := map_eq_some_iff.mp hs
    refine iff_of_true (fun x hx huns ↦ ?_) trivial
    rcases hx with hx | hx
    · rcases mem_append.mp hx with hx | hx
      · exact h x (.inl hx) huns
      · obtain rfl := mem_singleton.mp hx
        exact h x (.inr (mem_of_getElem? hm)) huns
    · exact h x (.inr hx) huns
  | disconnect i abnormal v =>
    obtain ⟨c, hc, rfl⟩ := map_eq_some_iff.mp hs
    have herase : OnlyAdmitted { s with clients := s.clients.eraseIdx i } := h
    cases abnormal with
    | false =>
      refine iff_of_true ?_ trivial
      dsimp only
      split <;> exact herase
    | true =>
      simp only [OnlyStored, hc, toList_some, mem_singleton, forall_eq]
      cases hw : c.will with
      | none => exact iff_of_true herase (by simp)
      | some w =>
        simp only [if_true, toList_some, mem_singleton, forall_eq]
        cases huns : isUns s.hook.root w.topic with
        | false => exact iff_of_true (herase.sendWill c huns v) rfl
        | true => exact iff_of_false (not_onlyAdmitted_sendWill c huns v) (by simp)

/-- **In every run whose steps meet the condition the bus shows below the root only what the node
admitted**, and a step that does not meet it ends that. -/
theorem onlyAdmitted_of_reach {root : String} (h : (system root).Reach OnlyStored s) :
    OnlyAdmitted s ∧
      ∀ e s', (system root).step s e = some s' → (OnlyAdmitted s' ↔ OnlyStored s e) := by
  obtain ⟨hn, ho⟩ : Named s ∧ OnlyAdmitted s := by
    refine h.invariant (I := fun s ↦ Named s ∧ OnlyAdmitted s) ⟨?_, ?_⟩ fun s e s' hi hC hs ↦
      ⟨named_step hi.1 hs, (onlyAdmitted_step_iff hi.1 hi.2 hs).mpr hC⟩
    · intro c hc
      cases hc
    · rintro m (hm | hm) <;> cases hm
  exact ⟨ho, fun e s' hs ↦ onlyAdmitted_step_iff hn ho hs⟩

/-! ### A service that crashes -/

/-- The status of a service. -/
def status : Topic := ["colca", "v1", "_ServiceDetails", "n1", "svc"]

/-- A service publishes its status, and the engine stores and delivers it. -/
def publishedRun : List Event :=
  [.bind, .connect { ident := "svc" }, .publish 0 ⟨status, [1], 1, true⟩ false (.ok (.persisted status)),
    .deliver 0 true, .disconnect 0 true (.error .other)]

theorem published_status_admitted : ∃ s, (system "colca").Reach OnlyStored s ∧
    s.retained = [⟨⟨status, [1]⟩, .record 0⟩] ∧ OnlyAdmitted s := by
  obtain ⟨s, hs, hp⟩ := (system "colca").exists_reach OnlyStored publishedRun
    (fun s ↦ s.retained = [⟨⟨status, [1]⟩, .record 0⟩])
  exact ⟨s, hs, hp, (onlyAdmitted_of_reach hs).1⟩

/-- A client leaves a retained last will on a topic it may not write. -/
def willRun : List Event :=
  [.bind, .connect { ident := "svc", will := some ⟨status, [0], true⟩ },
    .disconnect 0 true (.error .writeDenied)]

/-- **The will is retained on the bus although the engine rejected it.** -/
theorem will_not_admitted : ¬ ∀ s, (system "colca").Reachable s → OnlyAdmitted s := by
  intro h
  obtain ⟨s, hs, hmem, huns⟩ := (system "colca").exists_reachable willRun
    (fun s ↦ ⟨⟨status, [0]⟩, .will⟩ ∈ s.retained ∧ isUns s.hook.root status)
  obtain ⟨k, hk, -⟩ := h s hs _ (.inr hmem) huns
  cases hk

end Colca.Mqtt
