import Colca.Lib.StateMachine
import Mathlib.Data.List.Basic
import Mathlib.Data.Int.Order.Basic
import Mathlib.Data.Nat.Basic
import Mathlib.Logic.Function.Basic
import Mathlib.Order.Basic

/-!
# Sessions of people at the MQTT door

A person connects with a token, and the door keeps a session for the client id: the token in force, the
grants resolved from it, and the generation of the `_Group` definitions they were resolved at. The grants are
resolved again lazily, at the next check that finds the generation has moved. A renewal replaces the token on
the open connection, another connection with the same client id replaces the session, and a back-channel
logout ends the sessions it covers.

All of this runs concurrently, so each operation is broken at every access to shared state: the generation,
the definitions, the table of sessions and the logouts. A check is a subscription or a delivery; a publish
reads the session and nothing else. `define` stores a definition and `advance` completes it, which is when the
generation moves.

What a token says about grants and what grants allow is code outside this file: `Env` has both as parameters.
-/

namespace Colca.Mqtt.Human

/-- What a verified token says. -/
structure Verified where
  sub : String
  /-- The identity provider's session. -/
  sid : String
  issuedAt : ℤ
  exp : ℤ
  grants : List String := []
  groups : List String := []
  deriving DecidableEq, Repr

/-- A back-channel logout. -/
structure Logout where
  sid : String
  sub : String
  issuedAt : ℤ
  deriving DecidableEq, Repr

/-- With a session id the logout ends that session and nothing else; with only a subject, everything that
person was issued up to the logout. -/
def Logout.ends (l : Logout) (v : Verified) : Bool :=
  if l.sid ≠ "" then v.sid == l.sid else v.sub == l.sub && decide (v.issuedAt ≤ l.issuedAt)

/-- A session. `version` is a ghost: how many definitions the entry was resolved from. -/
structure Session (E : Type) where
  /-- The connection that holds the session. -/
  client : ℕ
  /-- The address of the token in force: a renewal puts a new one. -/
  token : ℕ
  verified : Verified
  entry : Option E
  groupsGen : ℕ
  version : ℕ

/-- What the door takes from the verifier and the engine. -/
structure Env (G E T : Type) where
  /-- The grants of a token under the definitions stored so far. -/
  resolveEntry : Verified → List G → Option E
  /-- The grants allow the action. -/
  authorize : Option E → T → Bool

variable {G E T : Type}

/-! ### The table of sessions -/

/-- The sessions by client id. -/
abbrev Table (E : Type) := List (String × Session E)

namespace Table

def get (t : Table E) (id : String) : Option (Session E) := (t.find? fun p ↦ p.1 == id).map Prod.snd

def put (t : Table E) (id : String) (s : Session E) : Table E := (id, s) :: t.filter fun p ↦ p.1 != id

/-- Remove the session of this connection; one that took over the client id keeps it. -/
def drop (t : Table E) (id : String) (c : ℕ) : Table E := t.filter fun p ↦ p.1 != id || p.2.client != c

/-- Store an entry resolved for the token of `was`, unless a renewal or a newer resolution got there
first. -/
def reresolved (t : Table E) (id : String) (was : Session E) (entry : Option E) (gen version : ℕ) :
    Table E × Option (Session E) :=
  match t.get id with
  | none => (t, none)
  | some s =>
    if s.client ≠ was.client ∨ s.token ≠ was.token ∨ gen ≤ s.groupsGen then (t, some s)
    else
      let s' := { s with entry := entry, groupsGen := gen, version := version }
      (t.put id s', some s')

end Table

/-! ### Operations in progress -/

/-- How far the authentication of a token has come. -/
inductive Auth.Phase (E : Type)
  /-- The generation is taken. -/
  | took
  | resolved (entry : Option E) (version : ℕ)
  /-- No logout covers the token, and its subject is the right one. -/
  | verified (entry : Option E) (version : ℕ)
  /-- The session is in the table; the logouts are asked once more. -/
  | stored (s : Session E)
  /-- The session before the renewal is back in the table, and the connection is about to end. -/
  | refused

/-- An authentication of a connection, or a renewal over the session it found. -/
structure Auth (E : Type) where
  current : Option (Session E)
  token : Verified
  gen : ℕ
  phase : Auth.Phase E

inductive Status
  | connecting | opened | closed
  deriving DecidableEq, Repr

structure Conn (E : Type) where
  id : String
  user : String
  status : Status
  auth : Option (Auth E)

inductive Check.Phase (E : Type)
  /-- The session is read. -/
  | read
  /-- Its generation is older than this one. -/
  | stale (gen : ℕ)
  | fresh (gen : ℕ) (entry : Option E) (version : ℕ)

/-- A check of a subscription or a delivery. The last three fields are ghosts taken when it began. -/
structure Check (E T : Type) where
  conn : ℕ
  id : String
  action : T
  was : Session E
  phase : Check.Phase E
  inForce : Option ℕ
  required : ℕ
  banned : Bool

/-- How far a logout has come. -/
inductive Ending (E : Type)
  /-- It is in force. -/
  | recorded
  /-- Its listener ends these sessions. -/
  | ending (left : List (String × Session E))
  | finished

structure Recorded (E : Type) where
  logout : Logout
  /-- When it is forgotten. -/
  until_ : ℤ
  phase : Ending E

/-- An action the door let through: the session it was authorized with, and what was so when its check
began. -/
structure Served (E T : Type) where
  conn : ℕ
  action : T
  session : Session E
  /-- The address of the connection's token in force when the session was read. -/
  inForce : Option ℕ
  /-- How many definitions were completed when the check began. -/
  required : ℕ
  /-- A logout whose listeners had run covered the connection's token in force when the check began, and
  the connection had no authentication or renewal pending. -/
  banned : Bool

structure State (G E T : Type) where
  conns : ℕ → Option (Conn E) := fun _ ↦ none
  table : Table E := []
  /-- Who was given the token at an address. -/
  issued : ℕ → Option (ℕ × Verified) := fun _ ↦ none
  checks : List (Check E T) := []
  /-- The definitions stored, and the completed ones in the order they completed. -/
  defs : List G := []
  completed : List ℕ := []
  logouts : List (Recorded E) := []
  now : ℤ := 0
  served : List (Served E T) := []

/-- A day, in milliseconds. -/
def logoutRetention : ℤ := 86400000

inductive Event (G T : Type)
  /-- A connection asks to be authenticated; an open one asks for a renewal. -/
  | connect (c : ℕ) (id user : String) (v : Verified)
  | renew (c : ℕ) (v : Verified)
  | resolve (c : ℕ)
  | verify (c : ℕ)
  | put (c token : ℕ)
  | settle (c : ℕ)
  | endRefused (c : ℕ)
  /-- The connection ends, and the broker reports it. -/
  | disconnect (c : ℕ)
  | onDisconnect (c : ℕ)
  /-- A subscription or a delivery. -/
  | begin (c : ℕ) (x : T)
  | generation (i : ℕ)
  | reresolve (i : ℕ)
  | store (i : ℕ)
  | publish (c : ℕ) (x : T)
  | define (g : G)
  | advance (k : ℕ)
  | tick (d : ℕ)
  | logout (l : Logout)
  | snapshot (i : ℕ)
  | kick (i : ℕ)
  | finish (i : ℕ)

namespace State

variable (env : Env G E T) (s : State G E T)

/-- The `_Group` generation. -/
def gen : ℕ := s.completed.length

/-- A logout in force covers the token. -/
def loggedOut (v : Verified) : Bool := s.logouts.any fun r ↦ decide (s.now < r.until_) && r.logout.ends v

def setConn (c : ℕ) (conn : Conn E) : State G E T :=
  { s with conns := Function.update s.conns c (some conn) }

/-- The session of a connection, not one of another connection with its client id. -/
def sessionOf (c : ℕ) : Option (Session E) :=
  (s.conns c).bind fun conn ↦ (s.table.get conn.id).filter fun x ↦ x.client == c

/-- A logout whose listeners have run covers the connection's token in force, and it has nothing
pending. -/
def banned (c : ℕ) : Bool :=
  (s.conns c).any (fun conn ↦ conn.auth.isNone) && (s.sessionOf c).any fun x ↦ s.logouts.any fun r ↦
    decide (s.now < r.until_) && r.logout.ends x.verified && match r.phase with
      | .finished => true
      | _ => false

/-- The session allows the action: it is not expired, and its grants cover it. -/
def lets (x : Session E) (a : T) : Bool := !decide (x.verified.exp < s.now) && env.authorize x.entry a

/-- The end of a check or a publish. -/
def decide (d : Served E T) : State G E T :=
  if s.lets env d.session d.action then { s with served := s.served ++ [d] } else s

end State

/-- The session of a verified token. -/
def sessionFor (c token : ℕ) (a : Auth E) (entry : Option E) (version : ℕ) : Session E where
  client := c
  token := token
  verified := a.token
  entry := entry
  groupsGen := a.gen
  version := version

def step (env : Env G E T) (s : State G E T) : Event G T → Option (State G E T)
  | .connect c id user v => match s.conns c with
    | none => some (s.setConn c ⟨id, user, .connecting, some ⟨none, v, s.gen, .took⟩⟩)
    | some _ => none
  | .renew c v => (s.conns c).bind fun conn ↦ match conn.status, conn.auth with
    | .opened, none => match s.table.get conn.id with
      | none => some (s.setConn c { conn with status := .closed })
      | some cur => some (s.setConn c { conn with auth := some ⟨some cur, v, s.gen, .took⟩ })
    | _, _ => none
  | .resolve c => (s.conns c).bind fun conn ↦ conn.auth.bind fun a ↦ match a.phase with
    | .took => match env.resolveEntry a.token s.defs with
      | none => some (s.setConn c { conn with status := .closed, auth := none })
      | some e => some (s.setConn c { conn with
          auth := some { a with phase := .resolved (some e) s.defs.length } })
    | _ => none
  | .verify c => (s.conns c).bind fun conn ↦ conn.auth.bind fun a ↦ match a.phase with
    | .resolved entry version =>
      let sub := (a.current.map fun cur ↦ cur.verified.sub).getD conn.user
      if s.loggedOut a.token || sub != a.token.sub then
        some (s.setConn c { conn with status := .closed, auth := none })
      else some (s.setConn c { conn with auth := some { a with phase := .verified entry version } })
    | _ => none
  | .put c token => (s.conns c).bind fun conn ↦ conn.auth.bind fun a ↦ match a.phase, s.issued token with
    | .verified entry version, none =>
      let x := sessionFor c token a entry version
      some { s.setConn c { conn with auth := some { a with phase := .stored x } } with
        table := s.table.put conn.id x
        issued := Function.update s.issued token (some (c, a.token)) }
    | _, _ => none
  | .settle c => (s.conns c).bind fun conn ↦ conn.auth.bind fun a ↦ match a.phase with
    | .stored _ =>
      if s.loggedOut a.token then
        match a.current with
        | none => some { s.setConn c { conn with status := .closed, auth := none } with
            table := s.table.drop conn.id c }
        | some cur => some { s.setConn c { conn with auth := some { a with phase := .refused } } with
            table := s.table.put conn.id cur }
      else
        some (s.setConn c { conn with
          status := if conn.status = .connecting then .opened else conn.status, auth := none })
    | _ => none
  | .endRefused c => (s.conns c).bind fun conn ↦ conn.auth.bind fun a ↦ match a.phase with
    | .refused => some (s.setConn c { conn with status := .closed, auth := none })
    | _ => none
  | .disconnect c => (s.conns c).map fun conn ↦ s.setConn c { conn with status := .closed }
  | .onDisconnect c => (s.conns c).bind fun conn ↦
      if conn.status = .closed then some { s with table := s.table.drop conn.id c } else none
  | .begin c x => (s.conns c).bind fun conn ↦
      if conn.status = .opened then (s.table.get conn.id).map fun was ↦
        { s with checks := s.checks ++ [⟨c, conn.id, x, was, .read,
          (s.sessionOf c).map Session.token, s.gen, s.banned c⟩] }
      else none
  | .generation i => s.checks[i]?.bind fun k ↦ match k.phase with
    | .read =>
      if s.gen ≤ k.was.groupsGen then
        some ({ s with checks := s.checks.eraseIdx i }.decide env
          ⟨k.conn, k.action, k.was, k.inForce, k.required, k.banned⟩)
      else some { s with checks := s.checks.set i { k with phase := .stale s.gen } }
    | _ => none
  | .reresolve i => s.checks[i]?.bind fun k ↦ match k.phase with
    | .stale gen => some { s with checks := s.checks.set i { k with
        phase := .fresh gen (env.resolveEntry k.was.verified s.defs) s.defs.length } }
    | _ => none
  | .store i => s.checks[i]?.bind fun k ↦ match k.phase with
    | .fresh gen entry version =>
      let r := s.table.reresolved k.id k.was entry gen version
      let s' := { s with checks := s.checks.eraseIdx i, table := r.1 }
      match r.2 with
      | none => some s'
      | some x => some (s'.decide env
          ⟨k.conn, k.action, x, (s.sessionOf k.conn).map Session.token, k.required, k.banned⟩)
    | _ => none
  | .publish c x => (s.conns c).bind fun conn ↦
      if conn.status = .opened then (s.table.get conn.id).map fun was ↦
        s.decide env ⟨c, x, was, (s.sessionOf c).map Session.token, s.gen, s.banned c⟩
      else none
  | .define g => some { s with defs := s.defs ++ [g] }
  | .advance k =>
    if k < s.defs.length ∧ k ∉ s.completed then some { s with completed := s.completed ++ [k] } else none
  | .tick d => some { s with now := s.now + d }
  | .logout l => some { s with logouts := s.logouts ++ [⟨l, s.now + logoutRetention, .recorded⟩] }
  | .snapshot i => s.logouts[i]?.bind fun r ↦ match r.phase with
    | .recorded => some { s with logouts := s.logouts.set i { r with
        phase := .ending (s.table.filter fun p ↦ r.logout.ends p.2.verified) } }
    | _ => none
  | .kick i => s.logouts[i]?.bind fun r ↦ match r.phase with
    | .ending ((id, x) :: rest) =>
      (s.conns x.client).map fun conn ↦
        { s.setConn x.client { conn with status := .closed } with
          table := s.table.drop id x.client
          logouts := s.logouts.set i { r with phase := .ending rest } }
    | _ => none
  | .finish i => s.logouts[i]?.bind fun r ↦ match r.phase with
    | .ending [] => some { s with logouts := s.logouts.set i { r with phase := .finished } }
    | _ => none

/-- A door nobody has connected to. -/
def system (env : Env G E T) : StateMachine (State G E T) (Event G T) where
  start := {}
  step := step env

end Colca.Mqtt.Human
