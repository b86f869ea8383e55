import Colca.Lib.SeenWindow
import Colca.Repl.DownlinkLink

/-!
# Commands queued for a child node

A command addressed below a child's mount waits in this node's commands stream until the child fetches it.
Four code paths speak about it while it waits.

* A poll of the child hands it, or answers its sender with a 403 when the sender may no longer send it
  (`forwardRefusal`, `answer`).
* The child's next poll is taken for a receipt of everything below its position, and the senders who asked
  for progress are told so (`noteForwarded`).
* A retirement of the child answers what is still queued with a 410. It takes the queue position and the
  time first, then the child is retired, then the answers are given (`prepare`, `retire`, `drop`).
* `answeredHere` remembers the last answers, so that none is given twice.

A run starts when the child's first handshake has seated its position and its downlink cursor at the head
of the stream. It holds no retention and no restart of the node, and every answer that is given is stored.
Each handler is one step, apart from a poll, whose authentication, receipt and answer are three, and the
retirement, whose three parts are.
-/

namespace Colca.Queued

open Uns Downlink

/-! ### Who may still send a command -/

/-- What the node knows about senders when a command leaves it. -/
structure Directory (A : Type) where
  /-- The person a door attested, by what this node defines now. -/
  actorForAttested : Attribution → Option A
  /-- The enrolled identity. -/
  get : String → Option A
  revoked : String → Bool
  /-- The actor holds a grant to send the command. -/
  authorize : A → Topic → Bool

/-- Contracts whose executor authorizes the command. -/
def authorizedAtExecutor (contract : String) : Bool := contract = "_CmdEdit"

variable {A : Type}

/-- Why a queued command must not be handed to a child any more, `none` when it may go. -/
def forwardRefusal (d : Directory A) (r : RecEnc) : Option String :=
  if r.door ≠ "client" ∧ r.door ≠ "human" then none
  else
    match parse r.topic with
    | .error _ => none
    | .ok p =>
      let noGrant := "not forwarded: its sender no longer holds a grant for " ++ p.contract ++ " " ++
        "/".intercalate p.path
      if authorizedAtExecutor p.contract then none
      else
        match d.actorForAttested r.by_ with
        | some actor => if d.authorize actor r.topic then none else some noGrant
        | none =>
          if r.door = "client" then
            match d.get r.by_.writtenBy with
            | none =>
              if d.revoked r.by_.writtenBy then
                some ("not forwarded: its sender " ++ r.by_.writtenBy ++ " was revoked after sending it")
              else none
            | some entry => if d.authorize entry r.topic then none else some noGrant
          else some noGrant

/-- The sender may no longer send the command. -/
def refused (d : Directory A) (x : ℕ × RecEnc) : Bool := (forwardRefusal d x.2).isSome

structure Config where
  /-- The engine's classes of contracts. -/
  classOf : String → Uns.Class
  /-- The child and its mount. -/
  child : String
  mount : Path
  correlationID : Payload → String
  /-- `CommandWantsProgress`. -/
  wantsProgress : Payload → Bool
  /-- The `expires_at` of a payload. -/
  deadline : Payload → Option ℤ
  /-- The commands stream when the child attached. -/
  stored : OffsetLog RecEnc

namespace Config

variable (cfg : Config)

def idOf (x : ℕ × RecEnc) : String := cfg.correlationID x.2.payload

/-- The command waits for the child. -/
def forChild (x : ℕ × RecEnc) : Bool := Downlink.forChild cfg.classOf cfg.mount x.2.topic

def commandStillLive (now : ℤ) (x : ℕ × RecEnc) : Bool :=
  (cfg.deadline x.2.payload).all fun d ↦ decide (now ≤ d)

end Config

/-! ### Answers about queued commands -/

/-- An answer this node gives about a command. -/
structure Outcome where
  correlationID : String
  resultCode : ℕ
  message : String
  deriving DecidableEq, Repr

def ackRevoked : ℕ := 403
def ackDropped : ℕ := 410
def answeredHereLimit : ℕ := 4096

/-- The answers given, and the memory of the last of them. -/
structure Answers where
  order : List String := []
  given : List Outcome := []

/-- The answer to a command; none for a command nobody waits on. -/
def queuedAnswer (cfg : Config) (r : RecEnc) (code : ℕ) (message : String) : Option Outcome :=
  match parse r.topic with
  | .error _ => none
  | .ok _ =>
    if cfg.correlationID r.payload = "" then none
    else some ⟨cfg.correlationID r.payload, code, message⟩

namespace Answers

/-- The node answered the command with this id. -/
def answered (a : Answers) (id : String) : Bool := a.given.any fun o ↦ o.correlationID == id

/-- Answer a command, unless it is remembered as answered. -/
def answerQueued (cfg : Config) (a : Answers) (r : RecEnc) (code : ℕ) (message : String) : Answers :=
  match queuedAnswer cfg r code message with
  | none => a
  | some o =>
    if a.order.contains o.correlationID then a
    else ⟨SeenWindow.push answeredHereLimit a.order o.correlationID, a.given ++ [o]⟩

/-- Answer the commands that have a message. -/
def answerEach (cfg : Config) (code : ℕ) (message : RecEnc → Option String) (a : Answers)
    (xs : List (ℕ × RecEnc)) : Answers :=
  xs.foldl (fun a x ↦ match message x.2 with
    | some m => a.answerQueued cfg x.2 code m
    | none => a) a

end Answers

/-! ### The node and the child -/

/-- How far the retirement of the child has come. -/
inductive Retirement
  | none
  /-- `DropQueuedFor` took the queue position and the time. -/
  | prepared (start : ℕ) (now : ℤ)
  /-- The child is no longer enrolled and its cursor is gone. -/
  | retired (start : ℕ) (now : ℤ)
  /-- What was queued below `head` has been answered. -/
  | done (start : ℕ) (now : ℤ) (head : ℕ)

structure State (A : Type) where
  link : Link
  now : ℤ
  directory : Directory A
  /-- The child's downlink cursor at this node. -/
  cursor : Option ℕ
  /-- Polls that are authenticated and not yet taken for a receipt. -/
  arrived : List ℕ
  answers : Answers
  /-- The commands whose senders were told that they were forwarded. -/
  forwarded : List String
  retirement : Retirement

inductive Event (A : Type)
  | append (e : RecEnc)
  | tick (d : ℕ)
  /-- Senders lose grants or are revoked. -/
  | lose (d : Directory A)
  /-- The node answers a command that waits elsewhere. -/
  | other (r : RecEnc) (code : ℕ) (message : String)
  /-- A poll is authenticated, taken for a receipt, and answered. -/
  | arrive (id : ℕ)
  | note (i : ℕ)
  | answer (i : ℕ)
  | link (e : Link.Event)
  /-- The three parts of a retirement. -/
  | prepare
  | retire
  | drop

/-- A cursor moves forward only; one that does not exist stands at the first offset. -/
def cursorAck (cursor : Option ℕ) (off : ℕ) : Option ℕ :=
  if cursor.getD 1 < off then some off else cursor

namespace State

variable (cfg : Config) (s : State A)

/-- The command at the offset was in a downlink response. -/
def handed (o : ℕ) : Bool := s.link.responses.any fun r ↦ r.answer.records.any fun y ↦ y.1 == o

/-- The commands whose senders are told that they were forwarded: those between the downlink cursor and
the position the child asks from. -/
def noteForwarded (after : ℕ) : List (ℕ × RecEnc) :=
  match s.cursor with
  | none => []
  | some c =>
    if after ≤ c then []
    else s.link.commands.entries.filter fun x ↦
      decide (max c s.link.commands.lwm ≤ x.1) && decide (x.1 < after) && cfg.forChild x &&
        cfg.wantsProgress x.2.payload && decide (cfg.idOf x ≠ "")

/-- What is answered once the child is retired. -/
def queued (start : ℕ) (now : ℤ) : List (ℕ × RecEnc) :=
  s.link.commands.entries.filter fun x ↦
    decide (max start s.link.commands.lwm ≤ x.1) && cfg.forChild x && cfg.commandStillLive now x

/-- A command that is stored for the child brings a correlation id of its own. -/
def fresh (e : RecEnc) : Bool :=
  decide (cfg.correlationID e.payload ≠ "") &&
    s.link.commands.entries.all (fun x ↦ !(cfg.forChild x && cfg.idOf x == cfg.correlationID e.payload)) &&
    !s.answers.answered (cfg.correlationID e.payload)

end State

def dropMessage (child : String) : String :=
  "dropped: child node " ++ child ++ " was retired before it received the command"

def step (cfg : Config) (s : State A) : Event A → Option (State A)
  | .append e =>
    if cfg.forChild (0, e) && !s.fresh cfg e then none
    else some { s with link := { s.link with commands := s.link.commands.append e } }
  | .tick d => some { s with now := s.now + d }
  | .lose d =>
    if ∀ x ∈ s.link.commands.entries, cfg.forChild x → refused s.directory x → refused d x then
      some { s with directory := d }
    else none
  | .other r code message =>
    if ∀ x ∈ s.link.commands.entries, cfg.forChild x → cfg.idOf x ≠ cfg.correlationID r.payload then
      some { s with answers := s.answers.answerQueued cfg r code message }
    else none
  | .arrive id => match s.retirement with
    | .none | .prepared .. =>
      if id < s.link.requests.length then some { s with arrived := s.arrived ++ [id] } else none
    | _ => none
  | .note i => s.arrived[i]?.bind fun id ↦ s.link.requests[id]?.map fun r ↦
      let after := (Poll.arrive id r cfg.mount).after
      { s with
        arrived := s.arrived.eraseIdx i
        forwarded := s.forwarded ++ (s.noteForwarded cfg after).map cfg.idOf
        cursor := cursorAck s.cursor after
        link := s.link.arrive id r cfg.mount }
  | .answer i => s.link.polls[i]?.map fun p ↦
      { s with
        answers := s.answers.answerEach cfg ackRevoked (forwardRefusal s.directory)
          (p.read cfg.classOf s.link.commands).1
        link := s.link.answer cfg.classOf i p (refused s.directory) }
  | .link e => (s.link.step cfg.classOf e).map fun l ↦ { s with link := l }
  | .prepare => match s.retirement with
    | .none => some { s with retirement := .prepared (s.cursor.getD 1) s.now }
    | _ => none
  | .retire => match s.retirement with
    | .prepared start now => some { s with retirement := .retired start now, cursor := none }
    | _ => none
  | .drop => match s.retirement with
    | .retired start now => some { s with
        answers := s.answers.answerEach cfg ackDropped (fun _ ↦ some (dropMessage cfg.child))
          (s.queued cfg start now)
        retirement := .done start now s.link.commands.next }
    | _ => none

/-- The child has just attached. -/
def system (cfg : Config) (d : Directory A) : StateMachine (State A) (Event A) where
  start :=
    { link := { commands := cfg.stored, position := some cfg.stored.next }
      now := 0
      directory := d
      cursor := some cfg.stored.next
      arrived := []
      answers := {}
      forwarded := []
      retirement := .none }
  step := step cfg

end Colca.Queued
