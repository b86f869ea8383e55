import Colca.Lib.StateMachine
import Colca.Repl.DownlinkPoll

/-!
# Draining a child

A child that leaves its parent is drained. `Drain` marks it in the registry, and from then on no door admits
a command below its mount (`DrainingMount`). `evaluateDrain` scans what the parent's commands stream still
holds for the child from its downlink cursor on, and retires the child when nothing in it is live. It runs
after each poll of the child and in a loop of its own, so several evaluations may be under way.

A door checks the mount first and appends much later: an admission between the two is in `admissions`. An
evaluation reads the cursor, the low-water mark, the head and then page by page, and anything may happen
between two of these reads and before it retires the child.

The children and their mounts are fixed. Of code outside the model, the bundle's classes and the deadline
in a command's payload are parameters. The metrics, and the delay until the next evaluation, are left out.
-/

namespace Colca.Drain

open Uns Downlink

structure Config where
  /-- The engine's classes of contracts. -/
  classOf : String → Uns.Class
  /-- The `expires_at` of a payload. -/
  deadline : Payload → Option ℤ
  /-- The children enrolled at the start, each with its mount if its element is placed. -/
  children : List (String × Option Path)
  /-- Their downlink cursors, and the commands stream. -/
  cursors : String → Option ℕ
  stored : OffsetLog RecEnc

/-- `CommandStillLive`. -/
def Config.stillLive (cfg : Config) (e : RecEnc) (now : ℤ) : Bool :=
  match cfg.deadline e.payload with
  | none => true
  | some d => decide (now ≤ d)

/-- A command of the child: the filter of the scan, which is that of the downlink. -/
def Config.forChild (cfg : Config) (mount : Path) (e : RecEnc) : Bool :=
  Downlink.forChild cfg.classOf mount e.topic

/-- A child in the registry. -/
structure Entry where
  mount : Option Path
  draining : Bool := false
  /-- How many admissions had passed the check when the child was marked (a ghost). -/
  mark : ℕ := 0

/-- `MarkDraining`. -/
def Entry.markDraining (e : Entry) (tickets : ℕ) : Entry :=
  { e with draining := true, mark := tickets }

/-- A command that passed the check and is not stored yet. -/
structure Admission where
  /-- Which admission it is, in the order of the checks (a ghost). -/
  ticket : ℕ
  command : RecEnc

/-- What `scanDrain` has seen: it is at `pos` and reads up to `head`. -/
structure DrainScan where
  pos : ℕ
  head : ℕ
  now : ℤ
  gapped : Bool
  total : ℕ := 0
  pending : ℕ := 0

/-- How far an evaluation got. -/
inductive Stage
  | begun
  /-- It has read the child's cursor. -/
  | floor (cursor : ℕ)
  /-- It has compared the cursor with the low-water mark. -/
  | ranged (pos : ℕ) (gapped : Bool)
  | scanning (scan : DrainScan)
  | scanned (scan : DrainScan)

/-- A run of `evaluateDrain`. -/
structure Evaluation where
  ulid : String
  mount : Path
  stage : Stage := .begun

/-- The outcomes of a drain. -/
inductive Outcome
  | delivered
  | expired
  | gapped
  deriving DecidableEq

/-- A stored command (a ghost). -/
structure Written where
  ticket : ℕ
  off : ℕ
  command : RecEnc

/-- What held when a child was retired (a ghost). -/
structure Retirement where
  ulid : String
  mount : Path
  mark : ℕ
  cursor : ℕ
  now : ℤ
  commands : OffsetLog RecEnc
  outcome : Outcome

structure State where
  registry : String → Option Entry
  cursors : String → Option ℕ
  commands : OffsetLog RecEnc
  admissions : List Admission := []
  evaluations : List Evaluation := []
  tickets : ℕ := 1
  written : List Written
  retired : List Retirement := []

inductive Event
  /-- A door checks a command, and stores it later or refuses it for another reason. -/
  | check (e : RecEnc)
  | append (i : ℕ)
  | refuse (i : ℕ)
  /-- Something that is not a command is stored. -/
  | other (e : RecEnc)
  | prune (upTo : ℕ)
  | drain (ulid : String)
  /-- The child says hello, or polls from a position. -/
  | hello (ulid : String)
  | poll (ulid : String) (after : ℕ)
  /-- `evaluateDrain` starts; it goes on with the reads of `scanDrain`. -/
  | evaluate (ulid : String)
  | readFloor (i : ℕ)
  | readRange (i : ℕ)
  | readHead (i : ℕ) (now : ℤ)
  | readPage (i : ℕ)
  /-- It returns: something is pending, or a read or a write failed. -/
  | giveUp (i : ℕ)
  /-- It retires the child. -/
  | retire (i : ℕ)
  /-- The parent stops and starts again. -/
  | restart

namespace State

variable (cfg : Config) (s : State)

/-- `CursorGet`. -/
def cursor (ulid : String) : ℕ := (s.cursors ulid).getD 1

/-- `DrainingMount`: the path lies below the mount of a draining child. -/
def drainingMount (path : Path) : Bool :=
  cfg.children.any fun c ↦ (s.registry c.1).any fun e ↦ e.draining && e.mount.any (underMount path ·)

/-- The check of a door: the record is a command, and its path below no draining mount. -/
def admits (e : RecEnc) : Bool :=
  match parse e.topic with
  | .error _ => false
  | .ok p => (cfg.classOf p.contract).isCommand && !s.drainingMount cfg p.path

/-- `CursorAck` moves a cursor forward only. -/
def cursorAck (ulid : String) (pos : ℕ) : State :=
  if s.cursor ulid < pos then { s with cursors := Function.update s.cursors ulid (some pos) } else s

/-- `CursorSetIfAbsent`. -/
def cursorSetIfAbsent (ulid : String) (pos : ℕ) : State :=
  match s.cursors ulid with
  | some _ => s
  | none => { s with cursors := Function.update s.cursors ulid (some pos) }

/-- A command is stored. -/
def store (a : Admission) : State :=
  { s with
    commands := s.commands.append a.command
    written := s.written ++ [⟨a.ticket, s.commands.next, a.command⟩] }

/-- The child is marked as draining. -/
def drain (ulid : String) (e : Entry) : State :=
  { s with registry := Function.update s.registry ulid (some (e.markDraining s.tickets)) }

/-- An evaluation goes on. -/
def goOn (i : ℕ) (ev : Evaluation) (stage : Stage) : State :=
  { s with evaluations := s.evaluations.set i { ev with stage } }

/-- `Retire`: the entry and the cursor go. -/
def retire (ev : Evaluation) (e : Entry) (scan : DrainScan) : State :=
  { s with
    registry := Function.update s.registry ev.ulid none
    cursors := Function.update s.cursors ev.ulid none
    retired := s.retired ++ [{
      ulid := ev.ulid
      mount := ev.mount
      mark := e.mark
      cursor := s.cursor ev.ulid
      now := scan.now
      commands := s.commands
      outcome :=
        if scan.gapped then .gapped else if 0 < scan.total then .expired else .delivered }] }

end State

def drainScanBatch : ℕ := 500

/-- One page of the scan; it ends at the head, or when a read makes no progress. -/
def DrainScan.readPage (cfg : Config) (mount : Path) (l : OffsetLog RecEnc) (scan : DrainScan) : Stage :=
  if scan.pos < scan.head then
    let page := l.read scan.pos drainScanBatch fun x ↦ cfg.forChild mount x.2
    let seen : DrainScan := { scan with
      total := scan.total + page.1.length
      pending := scan.pending + page.1.countP fun x ↦ cfg.stillLive x.2 scan.now }
    if page.2 ≤ scan.pos then .scanned seen else .scanning { seen with pos := page.2 }
  else .scanned scan

/-- The state after an event, if it can happen. -/
def step (cfg : Config) (s : State) : Event → Option State
  | .check e =>
    if s.admits cfg e then
      some { s with admissions := s.admissions ++ [⟨s.tickets, e⟩], tickets := s.tickets + 1 }
    else none
  | .append i => s.admissions[i]?.map fun a ↦
      { s.store a with admissions := s.admissions.eraseIdx i }
  | .refuse i => some { s with admissions := s.admissions.eraseIdx i }
  | .other e =>
    match parse e.topic with
    | .error _ => none
    | .ok p =>
      if (cfg.classOf p.contract).isCommand then none
      else some { s with commands := s.commands.append e }
  | .prune upTo => some { s with commands := s.commands.prune upTo }
  | .drain ulid => (s.registry ulid).bind fun e ↦
      if e.draining || e.mount.isNone then none else some (s.drain ulid e)
  | .hello ulid => (s.registry ulid).map fun _ ↦ s.cursorSetIfAbsent ulid s.commands.next
  | .poll ulid after => (s.registry ulid).map fun _ ↦ s.cursorAck ulid after
  | .evaluate ulid => (s.registry ulid).bind fun e ↦
      if !e.draining then none
      else e.mount.map fun m ↦ { s with evaluations := s.evaluations ++ [⟨ulid, m, .begun⟩] }
  | .readFloor i => s.evaluations[i]?.bind fun ev ↦ match ev.stage with
    | .begun => some (s.goOn i ev (.floor (s.cursor ev.ulid)))
    | _ => none
  | .readRange i => s.evaluations[i]?.bind fun ev ↦ match ev.stage with
    | .floor c => some (s.goOn i ev (.ranged (max c s.commands.lwm) (decide (c < s.commands.lwm))))
    | _ => none
  | .readHead i now => s.evaluations[i]?.bind fun ev ↦ match ev.stage with
    | .ranged pos gapped =>
      some (s.goOn i ev (.scanning { pos, head := s.commands.next, now, gapped }))
    | _ => none
  | .readPage i => s.evaluations[i]?.bind fun ev ↦ match ev.stage with
    | .scanning scan => some (s.goOn i ev (scan.readPage cfg ev.mount s.commands))
    | _ => none
  | .giveUp i => some { s with evaluations := s.evaluations.eraseIdx i }
  | .retire i => s.evaluations[i]?.bind fun ev ↦ match ev.stage with
    | .scanned scan =>
      if scan.pending = 0 then
        some { (match s.registry ev.ulid with
          | some e => s.retire ev e scan
          | none => s) with evaluations := s.evaluations.eraseIdx i }
      else none
    | _ => none
  | .restart => some { s with admissions := [], evaluations := [] }

/-- A parent with its children, before any of them is drained. -/
def system (cfg : Config) : StateMachine State Event where
  start := {
    registry := fun u ↦ (cfg.children.find? (·.1 == u)).map fun c ↦ { mount := c.2 }
    cursors := cfg.cursors
    commands := cfg.stored
    written := cfg.stored.entries.map fun x ↦ ⟨0, x.1, x.2⟩ }
  step := step cfg

/-! ### The property, and the condition -/

/-- **Nothing was left undelivered**: a command below the child's mount that was stored before the
retirement, or had passed the check before the child was marked, was fetched, expired, or removed by
retention when the child was retired. -/
def Retirement.Settled (cfg : Config) (s : State) (r : Retirement) : Prop :=
  ∀ w ∈ s.written, cfg.forChild r.mount w.command → w.off < r.commands.next ∨ w.ticket < r.mark →
    w.off < r.cursor ∨ cfg.stillLive w.command r.now = false ∨ w.off < r.commands.lwm

/-- Of the commands below the mount that passed the check before the child was marked, those stored since
the evaluation read the head are fetched or expired, and those still to be stored are expired. -/
def Overtaken (cfg : Config) (s : State) (ev : Evaluation) (e : Entry) (scan : DrainScan) : Prop :=
  (∀ w ∈ s.written, cfg.forChild ev.mount w.command → w.ticket < e.mark → scan.head ≤ w.off →
    w.off < s.cursor ev.ulid ∨ cfg.stillLive w.command scan.now = false) ∧
  ∀ a ∈ s.admissions, cfg.forChild ev.mount a.command → a.ticket < e.mark →
    cfg.stillLive a.command scan.now = false

instance (cfg : Config) (s : State) (ev : Evaluation) (e : Entry) (scan : DrainScan) :
    Decidable (Overtaken cfg s ev e scan) :=
  inferInstanceAs (Decidable ((∀ w ∈ s.written, cfg.forChild ev.mount w.command → w.ticket < e.mark →
    scan.head ≤ w.off → w.off < s.cursor ev.ulid ∨ cfg.stillLive w.command scan.now = false) ∧
  ∀ a ∈ s.admissions, cfg.forChild ev.mount a.command → a.ticket < e.mark →
    cfg.stillLive a.command scan.now = false))

/-- What the scan of an evaluation found. -/
def Evaluation.result (ev : Evaluation) : Option DrainScan :=
  match ev.stage with
  | .scanned scan => some scan
  | _ => none

/-- The evaluation that retires a child. -/
def retiring : Event → Option ℕ
  | .retire i => some i
  | _ => none

/-- **The condition on the steps that retire a child.** -/
def NoneOvertaken (cfg : Config) (s : State) (e : Event) : Prop :=
  ∀ i ∈ retiring e, ∀ ev ∈ s.evaluations[i]?, ∀ entry ∈ s.registry ev.ulid, ∀ scan ∈ ev.result,
    Overtaken cfg s ev entry scan

instance (cfg : Config) (s : State) (e : Event) : Decidable (NoneOvertaken cfg s e) :=
  inferInstanceAs (Decidable (∀ i ∈ retiring e, ∀ ev ∈ s.evaluations[i]?,
    ∀ entry ∈ s.registry ev.ulid, ∀ scan ∈ ev.result, Overtaken cfg s ev entry scan))

end Colca.Drain
