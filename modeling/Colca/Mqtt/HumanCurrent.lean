import Colca.Mqtt.HumanSessions

/-!
# Open sessions act on current grants

What the door lets a person do is to be authorized with their token in force, with grants resolved from
`_Group` definitions at least as new as every one completed before the check began, and not at all once a
logout has ended their session. The code departs from it in four ways.

* A publish takes the session as it is cached and does not look at the generation (`stale_publish`).
* A check that resolved the grants again and finds that a renewal got there first takes the renewed session,
  which may have been resolved at an older generation than the check has seen.
* The table is asked by client id, so a connection whose client id was taken over is served with the
  session of the other one.
* A renewal that finds the other one's session puts it back when its own token turns out to be logged out,
  and with it a token that a logout has ended.

`OwnSession` excludes exactly these, and in every run that meets it all that is let through is current
(`current_of_reach`).
-/

namespace Colca.Mqtt.Human

open List Function Option

variable {G E T : Type} {env : Env G E T}

/-! ### The property and the condition -/

variable (env) in
/-- **What was let through is current.** -/
structure Served.Current (s : State G E T) (d : Served E T) : Prop where
  /-- The session is that of the connection, with its token in force. -/
  inForce : d.inForce = some d.session.token
  /-- Its grants allow the action. -/
  authorized : env.authorize d.session.entry d.action
  /-- They were resolved from the first `version` definitions. -/
  entry : d.session.entry = env.resolveEntry d.session.verified (s.defs.take d.session.version)
  /-- Every definition completed before the check began is among them. -/
  newer : ∀ k ∈ s.completed.take d.required, k < d.session.version
  /-- No logout had ended the session when the check began. -/
  notBanned : d.banned = false

/-- The generation a check has seen. -/
def Check.Phase.seen : Check.Phase E → ℕ
  | .fresh gen _ _ | .stale gen => gen
  | .read => 0

/-- **The condition** on the steps that read the table of sessions. -/
def OwnSession (s : State G E T) : Event G T → Prop
  -- the client id was not taken over
  | .begin c _ => ∀ conn ∈ (s.conns c).toList, ∀ x ∈ (s.table.get conn.id).toList, x.client = c
  | .renew c _ => ∀ conn ∈ (s.conns c).toList, ∀ x ∈ (s.table.get conn.id).toList, x.client = c
  -- and the session was resolved at the present generation
  | .publish c _ => ∀ conn ∈ (s.conns c).toList, ∀ x ∈ (s.table.get conn.id).toList,
      x.client = c ∧ s.gen ≤ x.groupsGen
  -- the session found is the one the check read, or was resolved at the generation it has seen
  | .store i => ∀ k ∈ s.checks[i]?.toList, ∀ x ∈ (s.table.get k.id).toList,
      x.client = k.conn ∧ (x.token = k.was.token ∨ k.phase.seen ≤ x.groupsGen)
  | _ => True

/-! ### Grants and the definitions they were resolved from -/

variable (env) in
/-- The entry was resolved after the generation was taken. -/
structure Resolved (defs : List G) (completed : List ℕ) (v : Verified) (gen : ℕ) (entry : Option E)
    (version : ℕ) : Prop where
  entry_eq : entry = env.resolveEntry v (defs.take version)
  version_le : version ≤ defs.length
  gen_le : gen ≤ completed.length
  newer : ∀ k ∈ completed.take gen, k < version

variable (env) in
/-- A session whose token was given to its connection, with its grants. -/
structure Sound (s : State G E T) (x : Session E) : Prop where
  issued : s.issued x.token = some (x.client, x.verified)
  resolved : Resolved env s.defs s.completed x.verified x.groupsGen x.entry x.version

/-- Definitions are stored and completed, tokens given and connections made, but none is taken back. -/
structure Grows (s s' : State G E T) : Prop where
  defs : s.defs <+: s'.defs
  completed : s.completed <+: s'.completed
  issued : ∀ a p, s.issued a = some p → s'.issued a = some p
  ids : ∀ c conn, s.conns c = some conn → ∃ conn', s'.conns c = some conn' ∧ conn'.id = conn.id

variable {s s' : State G E T}

/-- The connections stay as they are. -/
theorem grows_of_eq (hd : s'.defs = s.defs) (hc : s'.completed = s.completed)
    (hi : s'.issued = s.issued) (hconns : s'.conns = s.conns) : Grows s s' where
  defs := hd ▸ prefix_refl _
  completed := hc ▸ prefix_refl _
  issued _ _ h := hi ▸ h
  ids _ conn h := ⟨conn, hconns ▸ h, rfl⟩

variable {c : ℕ} {conn conn' : Conn E}

/-- One connection changes, and keeps its client id if it was there. -/
theorem grows_setConn (hid : ∀ conn, s.conns c = some conn → conn'.id = conn.id) :
    Grows s (s.setConn c conn') where
  defs := prefix_refl _
  completed := prefix_refl _
  issued _ _ h := h
  ids c₁ conn₁ h₁ := by
    show ∃ conn, update s.conns c (some conn') c₁ = some conn ∧ conn.id = conn₁.id
    rw [update_apply]
    split
    · rename_i heq
      exact ⟨conn', rfl, hid conn₁ (heq ▸ h₁)⟩
    · exact ⟨conn₁, h₁, rfl⟩

variable {was : Session E} {r : Recorded E} {v : Verified} {n : ℕ}

theorem take_eq_of_start {α : Type} {l l' : List α} (h : l <+: l') (hn : n ≤ l.length) :
    l'.take n = l.take n := by
  obtain ⟨t, rfl⟩ := h
  exact take_append_of_le_length hn

variable {gen version : ℕ} {entry : Option E}

theorem Resolved.grows (hg : Grows s s') (h : Resolved env s.defs s.completed v gen entry version) :
    Resolved env s'.defs s'.completed v gen entry version where
  entry_eq := by
    rw [take_eq_of_start hg.defs h.version_le]
    exact h.entry_eq
  version_le := h.version_le.trans hg.defs.length_le
  gen_le := h.gen_le.trans hg.completed.length_le
  newer := by
    rw [take_eq_of_start hg.completed h.gen_le]
    exact h.newer

theorem Sound.grows {x : Session E} (hg : Grows s s') (h : Sound env s x) : Sound env s' x :=
  ⟨hg.issued _ _ h.issued, h.resolved.grows hg⟩

/-- The same token says the same. -/
theorem Sound.said_eq {x y : Session E} (hx : Sound env s x) (hy : Sound env s y)
    (htok : x.token = y.token) : (x.client, x.verified) = (y.client, y.verified) :=
  some.inj (hx.issued.symm.trans (htok ▸ hy.issued))

/-- What was completed by a generation is among what a later one resolved. -/
theorem Resolved.newer_of_le {defs : List G} {completed : List ℕ}
    (h : Resolved env defs completed v gen entry version) (hn : n ≤ gen) :
    ∀ k ∈ completed.take n, k < version :=
  fun k hk ↦ h.newer k ((take_prefix_take_left hn).subset hk)

/-- Grants resolved now, for any generation taken before. -/
theorem resolved_now (hdone : ∀ k ∈ s.completed, k < s.defs.length) (v : Verified)
    (hgen : gen ≤ s.completed.length) :
    Resolved env s.defs s.completed v gen (env.resolveEntry v s.defs) s.defs.length where
  entry_eq := by rw [take_length]
  version_le := le_rfl
  gen_le := hgen
  newer k hk := hdone k (mem_of_mem_take hk)

/-! ### The table -/

namespace Table

variable {t : Table E} {id : String} {x : Session E} {p : String × Session E}

theorem mem_of_get (h : t.get id = some x) : (id, x) ∈ t := by
  obtain ⟨p, hp, rfl⟩ := map_eq_some_iff.mp h
  have hid : p.1 = id := by
    have := find?_some hp
    simpa using this
  rw [← hid]
  exact mem_of_find?_eq_some hp

theorem mem_put (h : p ∈ t.put id x) : p = (id, x) ∨ (p ∈ t ∧ p.1 ≠ id) := by
  rcases mem_cons.mp h with h | h
  · exact .inl h
  · obtain ⟨h, hne⟩ := mem_filter.mp h
    exact .inr ⟨h, by simpa using hne⟩

theorem mem_drop (h : p ∈ t.drop id c) : p ∈ t ∧ (p.1 ≠ id ∨ p.2.client ≠ c) := by
  obtain ⟨h, hne⟩ := mem_filter.mp h
  exact ⟨h, by simpa [imp_iff_not_or] using hne⟩

/-- **What `reresolved` does**: it finds nothing, it leaves a session alone, or it stores the entry. -/
theorem reresolved_cases (t : Table E) (id : String) (was : Session E) (entry : Option E)
    (gen version : ℕ) :
    (t.get id = none ∧ t.reresolved id was entry gen version = (t, none)) ∨
    (∃ x, t.get id = some x ∧ (x.client ≠ was.client ∨ x.token ≠ was.token ∨ gen ≤ x.groupsGen) ∧
      t.reresolved id was entry gen version = (t, some x)) ∨
    (∃ x, t.get id = some x ∧ x.client = was.client ∧ x.token = was.token ∧
      t.reresolved id was entry gen version =
        (t.put id { x with entry := entry, groupsGen := gen, version := version },
          some { x with entry := entry, groupsGen := gen, version := version })) := by
  unfold reresolved
  cases hx : t.get id with
  | none => exact .inl ⟨rfl, rfl⟩
  | some x =>
    by_cases hkeep : x.client ≠ was.client ∨ x.token ≠ was.token ∨ gen ≤ x.groupsGen
    · exact .inr (.inl ⟨x, rfl, hkeep, by simp only [hkeep, if_true]⟩)
    · refine .inr (.inr ⟨x, rfl, ?_, ?_, by simp only [hkeep, if_false]⟩)
      · exact not_not.mp fun h ↦ hkeep (.inl h)
      · exact not_not.mp fun h ↦ hkeep (.inr (.inl h))

end Table

/-! ### The invariant -/

variable (env) in
/-- What an authentication has reached. -/
def Auth.PhaseOk (s : State G E T) (c : ℕ) (a : Auth E) : Prop :=
  match a.phase with
  | .took | .refused => True
  | .resolved entry version | .verified entry version =>
    Resolved env s.defs s.completed a.token a.gen entry version
  | .stored x => Sound env s x ∧ x.client = c ∧ x.verified = a.token ∧
      ∀ p ∈ s.table, p.2.client = c → p.2.token = x.token

variable (env) in
structure Auth.Ok (s : State G E T) (c : ℕ) (a : Auth E) : Prop where
  gen_le : a.gen ≤ s.completed.length
  current : ∀ cur ∈ a.current, cur.client = c ∧ Sound env s cur
  phase : a.PhaseOk env s c

variable (env) in
/-- What a check has reached. -/
def Check.PhaseOk (s : State G E T) (k : Check E T) : Prop :=
  match k.phase with
  | .read => True
  | .stale gen => k.required ≤ gen ∧ gen ≤ s.completed.length
  | .fresh gen entry version => k.required ≤ gen ∧
      Resolved env s.defs s.completed k.was.verified gen entry version

variable (env) in
structure Check.Ok (s : State G E T) (k : Check E T) : Prop where
  client : k.was.client = k.conn
  sound : Sound env s k.was
  inForce : k.inForce = some k.was.token
  notBanned : k.banned = false
  required_le : k.required ≤ s.completed.length
  id : ∃ conn, s.conns k.conn = some conn ∧ conn.id = k.id
  phase : k.PhaseOk env s

variable (env) in
/-- What was let through is current, and stays so. -/
structure Served.Ok (s : State G E T) (d : Served E T) : Prop where
  current : d.Current env s
  required_le : d.required ≤ s.completed.length
  version_le : d.session.version ≤ s.defs.length

/-- The listener of the logout has yet to end this connection. -/
def Ending.Awaits (c : ℕ) : Ending E → Prop
  | .recorded => True
  | .ending left => ∃ p ∈ left, p.2.client = c
  | .finished => False

/-- **A session that a logout covers is about to end**, unless its connection is closed or has yet to
finish an authentication. -/
def Ended (table : Table E) (conns : ℕ → Option (Conn E)) (logouts : List (Recorded E)) (now : ℤ) : Prop :=
  ∀ p ∈ table, ∀ conn, conns p.2.client = some conn → conn.status = .opened → conn.auth = none →
    ∀ r ∈ logouts, now < r.until_ → r.logout.ends p.2.verified → r.phase.Awaits p.2.client

variable (env) in
structure Inv (s : State G E T) : Prop where
  table : ∀ p ∈ s.table, Sound env s p.2 ∧ ∃ conn, s.conns p.2.client = some conn ∧ conn.id = p.1
  auths : ∀ c conn a, s.conns c = some conn → conn.auth = some a → a.Ok env s c
  checks : ∀ k ∈ s.checks, k.Ok env s
  done : ∀ k ∈ s.completed, k < s.defs.length
  ended : Ended s.table s.conns s.logouts s.now
  served : ∀ d ∈ s.served, d.Ok env s

theorem inv_start : Inv env (system env).start where
  table _ h := by cases h
  auths _ _ _ h := by cases h
  checks _ h := by cases h
  done _ h := by cases h
  ended _ h := by cases h
  served _ h := by cases h

variable {a : Auth E}

theorem Auth.Ok.grows (hg : Grows s s') (h : a.Ok env s c)
    (htable : ∀ p ∈ s'.table, p.2.client = c → ∃ q ∈ s.table, q.2.client = c ∧ q.2.token = p.2.token) :
    a.Ok env s' c where
  gen_le := h.gen_le.trans hg.completed.length_le
  current cur hcur := (h.current cur hcur).imp_right (Sound.grows hg)
  phase := by
    have hph := h.phase
    unfold Auth.PhaseOk at hph ⊢
    cases hp : a.phase with
    | took => trivial
    | refused => trivial
    | resolved | verified =>
      rw [hp] at hph
      exact Resolved.grows hg hph
    | stored x =>
      rw [hp] at hph
      obtain ⟨hsound, hclient, hv, htok⟩ := hph
      refine ⟨hsound.grows hg, hclient, hv, fun p hmem hc ↦ ?_⟩
      obtain ⟨q, hq, hqc, hqt⟩ := htable p hmem hc
      exact hqt ▸ htok q hq hqc

variable {k : Check E T}

theorem Check.Ok.grows (hg : Grows s s') (h : k.Ok env s) : k.Ok env s' :=
  { h with
    sound := h.sound.grows hg
    required_le := h.required_le.trans hg.completed.length_le
    id := by
      obtain ⟨conn, hconn, hid⟩ := h.id
      obtain ⟨conn', hconn', hid'⟩ := hg.ids _ conn hconn
      exact ⟨conn', hconn', hid'.trans hid⟩
    phase := by
      have hph := h.phase
      unfold Check.PhaseOk at hph ⊢
      cases hp : k.phase with
      | read => trivial
      | stale gen =>
        rw [hp] at hph
        exact ⟨hph.1, hph.2.trans hg.completed.length_le⟩
      | fresh gen entry version =>
        rw [hp] at hph
        exact ⟨hph.1, Resolved.grows hg hph.2⟩ }

theorem Check.Ok.resolved (h : k.Ok env s) (hph : k.phase = .fresh gen entry version) :
    k.required ≤ gen ∧ Resolved env s.defs s.completed k.was.verified gen entry version := by
  have := h.phase
  rwa [Check.PhaseOk, hph] at this

theorem Served.Ok.grows {d : Served E T} (hg : Grows s s') (h : d.Ok env s) : d.Ok env s' where
  current :=
    { h.current with
      entry := by
        rw [take_eq_of_start hg.defs h.version_le]
        exact h.current.entry
      newer := by
        rw [take_eq_of_start hg.completed h.required_le]
        exact h.current.newer }
  required_le := h.required_le.trans hg.completed.length_le
  version_le := h.version_le.trans hg.defs.length_le

theorem table_grows (h : Inv env s) (hg : Grows s s') {p : String × Session E} (hp : p ∈ s.table) :
    Sound env s' p.2 ∧ ∃ conn, s'.conns p.2.client = some conn ∧ conn.id = p.1 := by
  obtain ⟨hsound, conn, hconn, hid⟩ := h.table p hp
  obtain ⟨conn', hconn', hid'⟩ := hg.ids _ conn hconn
  exact ⟨hsound.grows hg, conn', hconn', hid'.trans hid⟩

/-- Authentications, when one connection changes. -/
theorem auths_update (h : Inv env s) (hg : Grows s s') (hconns : s'.conns = update s.conns c (some conn'))
    (hnew : ∀ a, conn'.auth = some a → a.Ok env s' c) (htable : ∀ c' ≠ c, ∀ p ∈ s'.table, p.2.client = c' →
      ∃ q ∈ s.table, q.2.client = c' ∧ q.2.token = p.2.token) :
    ∀ c conn a, s'.conns c = some conn → conn.auth = some a → a.Ok env s' c := by
  intro c₁ conn₁ a hconn ha
  rw [hconns, update_apply] at hconn
  split at hconn
  · rename_i heq
    subst heq
    obtain rfl := some.inj hconn
    exact hnew a ha
  · rename_i hne
    exact (h.auths c₁ conn₁ a hconn ha).grows hg (htable c₁ hne)

/-- The sessions, when nothing is put. -/
theorem tokens_of_subset {t t' : Table E} (ht : ∀ p ∈ t', p ∈ t) :
    ∀ c', ∀ p ∈ t', p.2.client = c' → ∃ q ∈ t, q.2.client = c' ∧ q.2.token = p.2.token :=
  fun _ p hp hc ↦ ⟨p, ht p hp, hc, rfl⟩

/-- Authentications, when the connections stay and nothing is put. -/
theorem auths_grows (h : Inv env s) (hg : Grows s s') (hconns : s'.conns = s.conns)
    (ht : ∀ p ∈ s'.table, p ∈ s.table) :
    ∀ c conn a, s'.conns c = some conn → conn.auth = some a → a.Ok env s' c :=
  fun c conn a hconn ha ↦ (h.auths c conn a (hconns ▸ hconn) ha).grows hg (tokens_of_subset ht c)

/-! ### Sessions that logouts end -/

variable {conns : ℕ → Option (Conn E)} {logouts : List (Recorded E)} {now : ℤ}

/-- A connection that is not open, or has something pending, may change freely. -/
theorem Ended.setConn {t : Table E} (h : Ended t conns logouts now)
    (hconn : conn'.status = .opened → conn'.auth ≠ none) :
    Ended t (update conns c (some conn')) logouts now := by
  intro p hp conn hc hopen hauth r hr hnow hends
  rw [update_apply] at hc
  split at hc
  · obtain rfl := some.inj hc
    exact absurd hauth (hconn hopen)
  · exact h p hp conn hc hopen hauth r hr hnow hends

/-- Sessions may go. -/
theorem Ended.subset {t t' : Table E} (h : Ended t conns logouts now) (ht : ∀ p ∈ t', p ∈ t) :
    Ended t' conns logouts now :=
  fun p hp ↦ h p (ht p hp)

/-- A session may be put for a connection that is not open or has something pending. -/
theorem Ended.put {t : Table E} (h : Ended t conns logouts now) {x : Session E}
    (hx : conns x.client = some conn) (hconn : conn.status = .opened → conn.auth ≠ none)
    (id : String) : Ended (t.put id x) conns logouts now := by
  intro p hp conn' hc hopen hauth
  rcases Table.mem_put hp with rfl | ⟨hp, -⟩
  · obtain rfl := some.inj (hx.symm.trans hc)
    exact absurd hauth (hconn hopen)
  · exact h p hp conn' hc hopen hauth

variable {i : ℕ}

/-- A logout comes further. -/
theorem Ended.setLogout {t : Table E} (h : Ended t conns logouts now)
    (hr : logouts[i]? = some r) {ph : Ending E}
    (hph : ∀ p ∈ t, ∀ conn, conns p.2.client = some conn → conn.status = .opened → conn.auth = none →
      r.logout.ends p.2.verified → r.phase.Awaits p.2.client → ph.Awaits p.2.client) :
    Ended t conns (logouts.set i { r with phase := ph }) now := by
  intro p hp conn hc hopen hauth r' hr' hnow hends
  rcases mem_or_eq_of_mem_set hr' with hr' | rfl
  · exact h p hp conn hc hopen hauth r' hr' hnow hends
  · exact hph p hp conn hc hopen hauth hends
      (h p hp conn hc hopen hauth r (mem_of_getElem? hr) hnow hends)

/-! ### Steps -/

section

variable (h : Inv env s)

include h

/-- A step keeps the invariant when what is new in it is sound. -/
theorem Inv.move (hg : Grows s s') (htable : ∀ p ∈ s'.table, p ∈ s.table ∨
      (Sound env s' p.2 ∧ ∃ conn, s'.conns p.2.client = some conn ∧ conn.id = p.1))
    (hauths : ∀ c conn a, s'.conns c = some conn → conn.auth = some a → a.Ok env s' c)
    (hchecks : ∀ k ∈ s'.checks, k ∈ s.checks ∨ k.Ok env s') (hdone : ∀ k ∈ s'.completed, k < s'.defs.length)
    (hended : Ended s'.table s'.conns s'.logouts s'.now)
    (hserved : ∀ d ∈ s'.served, d ∈ s.served ∨ d.Ok env s') : Inv env s' where
  table p hp := (htable p hp).elim (table_grows h hg) id
  auths := hauths
  checks k hk := (hchecks k hk).elim (fun hk ↦ (h.checks k hk).grows hg) id
  done := hdone
  ended := hended
  served d hd := (hserved d hd).elim (fun hd ↦ (h.served d hd).grows hg) id

/-- A step that changes one connection. -/
theorem Inv.withConn (hid : ∀ conn, s.conns c = some conn → conn'.id = conn.id)
    (hauth : ∀ a, conn'.auth = some a → a.Ok env s c)
    (hended : Ended s.table (s.setConn c conn').conns s.logouts s.now) : Inv env (s.setConn c conn') := by
  have hg : Grows s (s.setConn c conn') := grows_setConn hid
  refine h.move hg (fun _ ↦ .inl) (auths_update h hg rfl (fun a ha ↦ ?_) ?_) (fun _ ↦ .inl) h.done
    hended fun _ ↦ .inl
  · exact (hauth a ha).grows hg (tokens_of_subset (fun _ hp ↦ hp) c)
  · exact fun c' _ ↦ tokens_of_subset (fun _ hp ↦ hp) c'

omit h in
theorem id_eq (hc : s.conns c = some conn) (hid : conn'.id = conn.id) :
    ∀ conn, s.conns c = some conn → conn'.id = conn.id := fun _ h₁ ↦
  some.inj (hc.symm.trans h₁) ▸ hid

/-- A connection that is not open, or has something pending. -/
theorem Inv.setConn (hc : s.conns c = some conn) (hid : conn'.id = conn.id)
    (hquiet : conn'.status = .opened → conn'.auth ≠ none)
    (hauth : ∀ a, conn'.auth = some a → a.Ok env s c) : Inv env (s.setConn c conn') :=
  h.withConn (id_eq hc hid) hauth (h.ended.setConn hquiet)

/-- An authentication comes further. -/
theorem Inv.setAuth {ph : Auth.Phase E} (hc : s.conns c = some conn) (ha : conn.auth = some a)
    (hph : Auth.PhaseOk env s c { a with phase := ph }) :
    Inv env (s.setConn c { conn with auth := some { a with phase := ph } }) := by
  have hok := h.auths c conn a hc ha
  refine h.setConn hc rfl (by simp) fun a' ha' ↦ ?_
  obtain rfl := some.inj ha'
  exact ⟨hok.gen_le, hok.current, hph⟩

/-- A step that removes sessions. -/
theorem Inv.setTable {t : Table E} (ht : ∀ p ∈ t, p ∈ s.table) : Inv env { s with table := t } := by
  have hg : Grows s { s with table := t } := grows_of_eq rfl rfl rfl rfl
  exact h.move hg (fun p hp ↦ .inl (ht p hp)) (auths_grows h hg rfl ht) (fun _ ↦ .inl) h.done
    (h.ended.subset ht) fun _ ↦ .inl

/-- A step that changes the checks, the logouts and the time, or lets something through. -/
theorem Inv.aside {checks : List (Check E T)} {served : List (Served E T)}
    (hchecks : ∀ k ∈ checks, k ∈ s.checks ∨ k.Ok env s) (hended : Ended s.table s.conns logouts now)
    (hserved : ∀ d ∈ served, d ∈ s.served ∨ d.Ok env s) :
    Inv env { s with checks := checks, logouts := logouts, now := now, served := served } := by
  have hg : Grows s { s with checks := checks, logouts := logouts, now := now, served := served } :=
    grows_of_eq rfl rfl rfl rfl
  exact h.move hg (fun _ ↦ .inl) (auths_grows h hg rfl fun _ hp ↦ hp)
    (fun k hk ↦ (hchecks k hk).imp_right (Check.Ok.grows hg)) h.done hended
    fun d hd ↦ (hserved d hd).imp_right (Served.Ok.grows hg)

/-- A check comes further. -/
theorem Inv.setCheck {ph : Check.Phase E} (hk : s.checks[i]? = some k)
    (hph : Check.PhaseOk env s { k with phase := ph }) :
    Inv env { s with checks := s.checks.set i { k with phase := ph } } := by
  have hok := h.checks k (mem_of_getElem? hk)
  refine h.aside (fun k' hk' ↦ (mem_or_eq_of_mem_set hk').imp_right fun heq ↦ ?_) h.ended
    fun _ ↦ .inl
  subst heq
  exact { hok with phase := hph }

theorem Inv.eraseCheck (i : ℕ) : Inv env { s with checks := s.checks.eraseIdx i } :=
  h.aside (fun _ hk ↦ .inl (mem_of_mem_eraseIdx hk)) h.ended fun _ ↦ .inl

/-- The end of a check. -/
theorem Inv.decide {d : Served E T}
    (hd : env.authorize d.session.entry d.action → d.Ok env s) : Inv env (s.decide env d) := by
  unfold State.decide
  split
  · rename_i hlets
    have hauth : env.authorize d.session.entry d.action := by
      simp only [State.lets, Bool.and_eq_true] at hlets
      exact hlets.2
    refine h.aside (fun _ ↦ .inl) h.ended fun d' hd' ↦ (mem_append.mp hd').imp_right fun hd' ↦ ?_
    rw [mem_singleton.mp hd']
    exact hd hauth
  · exact h

/-! ### Authentications and renewals -/

theorem Inv.connect (hc : s.conns c = none) (id user : String) (v : Verified) :
    Inv env (s.setConn c ⟨id, user, .connecting, some ⟨none, v, s.gen, .took⟩⟩) := by
  refine h.withConn (fun conn₁ h₁ ↦ ?_) (fun a ha ↦ ?_) (h.ended.setConn (by simp))
  · rw [hc] at h₁
    cases h₁
  · obtain rfl := some.inj ha
    exact ⟨le_rfl, by simp, trivial⟩

/-- A session is put for a connection that has something pending. -/
theorem Inv.putSession {x : Session E} (hc : s.conns c = some conn)
    {issued : ℕ → Option (ℕ × Verified)} (hissued : ∀ b p, s.issued b = some p → issued b = some p)
    (hs' : s' = { s.setConn c conn' with table := s.table.put conn.id x, issued := issued })
    (hid : conn'.id = conn.id) (hbusy : conn'.auth ≠ none) (hclient : x.client = c)
    (hsound : Grows s s' → Sound env s' x)
    (hauth : Grows s s' → ∀ a, conn'.auth = some a → a.Ok env s' c) : Inv env s' := by
  have hconn : Grows s (s.setConn c conn') := grows_setConn (id_eq hc hid)
  have hg : Grows s s' := hs' ▸ { hconn with issued := hissued }
  subst hs' hclient
  refine h.move hg (fun p hp ↦ ?_) (auths_update h hg rfl (hauth hg) fun c' hne p hp hpc ↦ ?_)
    (fun _ ↦ .inl) h.done ?_ fun _ ↦ .inl
  · rcases Table.mem_put hp with rfl | ⟨hp, -⟩
    · exact .inr ⟨hsound hg, conn', update_self _ _ _, hid⟩
    · exact .inl hp
  · rcases Table.mem_put hp with rfl | ⟨hp, -⟩
    · exact absurd hpc.symm hne
    · exact ⟨p, hp, hpc, rfl⟩
  · exact (h.ended.setConn fun _ ↦ hbusy).put (update_self _ _ _) (fun _ ↦ hbusy) conn.id

theorem Inv.put {token : ℕ} (hc : s.conns c = some conn) (ha : conn.auth = some a)
    (hph : a.phase = .verified entry version) (hnew : s.issued token = none) :
    Inv env { s.setConn c { conn with
        auth := some { a with phase := .stored (sessionFor c token a entry version) } } with
      table := s.table.put conn.id (sessionFor c token a entry version)
      issued := update s.issued token (some (c, a.token)) } := by
  have hok := h.auths c conn a hc ha
  have hres : Resolved env s.defs s.completed a.token a.gen entry version := by
    have := hok.phase
    rwa [Auth.PhaseOk, hph] at this
  refine h.putSession hc (fun b p hb ↦ ?_) rfl rfl (by simp) rfl
    (fun _ ↦ ⟨update_self _ _ _, hres⟩) fun hg a' ha' ↦ ?_
  · have hne : b ≠ token := by
      rintro rfl
      rw [hnew] at hb
      cases hb
    exact (update_of_ne hne _ _).trans hb
  · obtain rfl := some.inj ha'
    refine ⟨hok.gen_le, fun cur hcur ↦ (hok.current cur hcur).imp_right (Sound.grows hg),
      ⟨update_self _ _ _, hres⟩, rfl, rfl, fun p hp hpc ↦ ?_⟩
    -- the only session of the connection is the new one
    rcases Table.mem_put hp with rfl | ⟨hp, hne⟩
    · rfl
    · obtain ⟨conn₁, hconn₁, hid⟩ := (h.table p hp).2
      rw [hpc, hc] at hconn₁
      exact absurd (some.inj hconn₁ ▸ hid.symm) hne

/-- The token is not logged out: the authentication succeeds. -/
theorem Inv.settle {x : Session E} (hc : s.conns c = some conn)
    (ha : conn.auth = some a) (hph : a.phase = .stored x) (hout : s.loggedOut a.token = false)
    (status : Status) : Inv env (s.setConn c { conn with status := status, auth := none }) := by
  obtain ⟨hsound, hclient, hv, htok⟩ : Sound env s x ∧ x.client = c ∧ x.verified = a.token ∧
      ∀ p ∈ s.table, p.2.client = c → p.2.token = x.token := by
    have := (h.auths c conn a hc ha).phase
    rwa [Auth.PhaseOk, hph] at this
  refine h.withConn (id_eq hc rfl) (by simp) fun p hp conn₁ hconn₁ hopen hauth r hr hnow hends ↦ ?_
  change update s.conns c _ p.2.client = some conn₁ at hconn₁
  rw [update_apply] at hconn₁
  split at hconn₁
  · -- the session of the connection holds the token that no logout covers
    rename_i hpc
    have hver : p.2.verified = a.token :=
      (Prod.mk.inj ((h.table p hp).1.said_eq hsound (htok p hp hpc))).2.trans hv
    have : s.loggedOut a.token = true :=
      any_eq_true.mpr ⟨r, hr, by
        rw [← hver]
        simpa using ⟨hnow, hends⟩⟩
    rw [hout] at this
    cases this
  · exact h.ended p hp conn₁ hconn₁ hopen hauth r hr hnow hends

/-- A renewal is refused: the session before it is put back, and the connection is about to end. -/
theorem Inv.rollback {cur : Session E} (hc : s.conns c = some conn)
    (ha : conn.auth = some a) (hcur : a.current = some cur) :
    Inv env { s.setConn c { conn with auth := some { a with phase := .refused } } with
      table := s.table.put conn.id cur } := by
  have hok := h.auths c conn a hc ha
  obtain ⟨hclient, hsound⟩ := hok.current cur hcur
  refine h.putSession hc (fun _ _ hb ↦ hb) rfl rfl (by simp) hclient hsound.grows fun hg a' ha' ↦ ?_
  obtain rfl := some.inj ha'
  exact ⟨hok.gen_le, fun cur hcur ↦ (hok.current cur hcur).imp_right (Sound.grows hg), trivial⟩

end

/-! ### Checks -/

/-- The session found by client id is the connection's own. -/
theorem sessionOf_eq {x : Session E} (hc : s.conns c = some conn)
    (hx : s.table.get conn.id = some x) (hown : x.client = c) : s.sessionOf c = some x := by
  simp [State.sessionOf, hc, hx, hown]

/-- **A connection whose session is its own is not banned**: a logout that has run left no session it
covers. -/
theorem Inv.not_banned (h : Inv env s) (hc : s.conns c = some conn)
    (hopen : conn.status = .opened) : s.banned c = false := by
  refine Bool.eq_false_iff.mpr fun hban ↦ ?_
  simp only [State.banned, hc, any_some, Bool.and_eq_true, isNone_iff_eq_none] at hban
  obtain ⟨x, hx, hcov⟩ := (any_eq_true _ _).mp hban.2
  obtain ⟨r, hr, hcond⟩ := any_eq_true.mp hcov
  simp only [State.sessionOf, hc, bind_some, filter_eq_some_iff, beq_iff_eq] at hx
  obtain ⟨hget, rfl⟩ := hx
  simp only [Bool.and_eq_true, decide_eq_true_eq] at hcond
  have hawait := h.ended _ (Table.mem_of_get hget) conn hc hopen hban.1 r hr hcond.1.1 hcond.1.2
  have hphase := hcond.2
  cases hp : r.phase with
  | recorded => simp [hp] at hphase
  | ending left => simp [hp] at hphase
  | finished =>
    rw [hp] at hawait
    exact hawait

theorem Inv.begin (h : Inv env s) (hc : s.conns c = some conn)
    (hopen : conn.status = .opened) (hget : s.table.get conn.id = some was)
    (hown : was.client = c) (x : T) :
    Check.Ok env s ⟨c, conn.id, x, was, .read, (s.sessionOf c).map Session.token, s.gen, s.banned c⟩ where
  client := hown
  sound := (h.table _ (Table.mem_of_get hget)).1
  inForce := by rw [sessionOf_eq hc hget hown]; rfl
  notBanned := h.not_banned hc hopen
  required_le := le_rfl
  id := ⟨conn, hc, rfl⟩
  phase := trivial

/-- A session of the connection, resolved at a generation the check has seen or a newer one, lets through
what is current. -/
theorem served_ok {x : Session E} (hsound : Sound env s x) {inForce : Option ℕ}
    (hin : inForce = some x.token) {required : ℕ} (hreq : required ≤ x.groupsGen) {a : T}
    (hauth : env.authorize x.entry a) : Served.Ok env s ⟨c, a, x, inForce, required, false⟩ where
  current :=
    { inForce := hin
      authorized := hauth
      entry := hsound.resolved.entry_eq
      newer := hsound.resolved.newer_of_le hreq
      notBanned := rfl }
  required_le := hreq.trans hsound.resolved.gen_le
  version_le := hsound.resolved.version_le

theorem Inv.generation (h : Inv env s) (hk : s.checks[i]? = some k)
    (hgen : s.gen ≤ k.was.groupsGen) : Inv env ({ s with checks := s.checks.eraseIdx i }.decide env
      ⟨k.conn, k.action, k.was, k.inForce, k.required, k.banned⟩) := by
  have hok := h.checks k (mem_of_getElem? hk)
  have hg : Grows s { s with checks := s.checks.eraseIdx i } := grows_of_eq rfl rfl rfl rfl
  refine (h.eraseCheck i).decide fun hauth ↦ ?_
  rw [hok.notBanned]
  exact served_ok (hok.sound.grows hg) hok.inForce (hok.required_le.trans hgen) hauth

/-- The table after `reresolved`, when the session found is the connection's own. -/
theorem Inv.reresolved (h : Inv env s) (hok : k.Ok env s)
    (hph : k.phase = .fresh gen entry version) (i : ℕ) :
    Inv env { s with
      checks := s.checks.eraseIdx i
      table := (s.table.reresolved k.id k.was entry gen version).1 } := by
  obtain ⟨-, hres⟩ := hok.resolved hph
  rcases Table.reresolved_cases s.table k.id k.was entry gen version with
    ⟨-, heq⟩ | ⟨x, -, -, heq⟩ | ⟨x, hget, hclient, htok, heq⟩
  · rw [heq]
    exact h.eraseCheck i
  · rw [heq]
    exact h.eraseCheck i
  · rw [heq]
    obtain ⟨hsx, conn, hconn, hid⟩ := h.table _ (Table.mem_of_get hget)
    have hver : x.verified = k.was.verified := (Prod.mk.inj (hsx.said_eq hok.sound htok)).2
    set x' : Session E := { x with entry := entry, groupsGen := gen, version := version } with hx'
    set s' : State G E T := { s with checks := s.checks.eraseIdx i, table := s.table.put k.id x' } with hs'
    have hg : Grows s s' := grows_of_eq rfl rfl rfl rfl
    have hsound : Sound env s' x' := ⟨hsx.issued, hver ▸ hres⟩
    have htokens : ∀ c', ∀ p ∈ s'.table, p.2.client = c' →
        ∃ q ∈ s.table, q.2.client = c' ∧ q.2.token = p.2.token := by
      intro c' p hp hpc
      rcases Table.mem_put hp with rfl | ⟨hp, -⟩
      · exact ⟨_, Table.mem_of_get hget, hpc, rfl⟩
      · exact ⟨p, hp, hpc, rfl⟩
    refine h.move hg (fun p hp ↦ ?_) (fun c conn a hconn ha ↦ ?_)
      (fun _ hk ↦ .inl (mem_of_mem_eraseIdx hk)) h.done ?_ fun _ ↦ .inl
    · rcases Table.mem_put hp with rfl | ⟨hp, -⟩
      · exact .inr ⟨hsound, conn, hconn, hid⟩
      · exact .inl hp
    · exact (h.auths c conn a hconn ha).grows hg (htokens c)
    · intro p hp
      rcases Table.mem_put hp with rfl | ⟨hp, -⟩
      · have hx := h.ended (k.id, x) (Table.mem_of_get hget)
        exact hx
      · exact h.ended p hp

/-- What a check stored lets through. -/
theorem Inv.store (h : Inv env s) (hk : s.checks[i]? = some k)
    (hph : k.phase = .fresh gen entry version) {x : Session E}
    (hx : (s.table.reresolved k.id k.was entry gen version).2 = some x) (hC : OwnSession s (.store i)) :
    Inv env ({ s with
        checks := s.checks.eraseIdx i
        table := (s.table.reresolved k.id k.was entry gen version).1 }.decide env
      ⟨k.conn, k.action, x, (s.sessionOf k.conn).map Session.token, k.required, k.banned⟩) := by
  have hok := h.checks k (mem_of_getElem? hk)
  obtain ⟨conn, hconn, hid⟩ := hok.id
  have hs := h.reresolved hok hph i
  obtain ⟨hreq, -⟩ := hok.resolved hph
  have hcond : ∀ y, s.table.get k.id = some y → y.client = k.conn ∧
      (y.token = k.was.token ∨ gen ≤ y.groupsGen) := by
    intro y hy
    have := hC k (by simp [hk]) y (by simp [hy])
    rwa [hph] at this
  -- the session that is authorized with is in the table afterwards
  obtain ⟨y, hget, hmem, htok, hgenx⟩ : ∃ y, s.table.get k.id = some y ∧
      (k.id, x) ∈ (s.table.reresolved k.id k.was entry gen version).1 ∧ x.token = y.token ∧
      gen ≤ x.groupsGen := by
    rcases Table.reresolved_cases s.table k.id k.was entry gen version with
      ⟨-, heq⟩ | ⟨y, hget, hwhy, heq⟩ | ⟨y, hget, -, -, heq⟩
    · rw [heq] at hx
      cases hx
    · rw [heq] at hx ⊢
      obtain rfl := some.inj hx
      refine ⟨y, hget, Table.mem_of_get hget, rfl, ?_⟩
      obtain ⟨hclient, hor⟩ := hcond y hget
      rcases hwhy with hne | hne | hle
      · exact absurd (hclient.trans hok.client.symm) hne
      · exact hor.resolve_left hne
      · exact hle
    · rw [heq] at hx ⊢
      obtain rfl := some.inj hx
      exact ⟨y, hget, mem_cons_self, rfl, le_rfl⟩
  refine hs.decide fun hauth ↦ ?_
  rw [hok.notBanned]
  refine served_ok (hs.table _ hmem).1 ?_ (hreq.trans hgenx) hauth
  rw [sessionOf_eq hconn (hid ▸ hget) (hcond y hget).1]
  exact congrArg some htok.symm

theorem Inv.publish (h : Inv env s) (hc : s.conns c = some conn)
    (hopen : conn.status = .opened) (hget : s.table.get conn.id = some was)
    (hown : was.client = c) (hgen : s.gen ≤ was.groupsGen) (x : T) : Inv env (s.decide env
      ⟨c, x, was, (s.sessionOf c).map Session.token, s.gen, s.banned c⟩) := by
  refine h.decide fun hauth ↦ ?_
  rw [h.not_banned hc hopen]
  refine served_ok (h.table _ (Table.mem_of_get hget)).1 ?_ hgen hauth
  rw [sessionOf_eq hc hget hown]
  rfl

/-! ### Definitions and logouts -/

theorem Inv.define (h : Inv env s) (g : G) : Inv env { s with defs := s.defs ++ [g] } := by
  have hg : Grows s { s with defs := s.defs ++ [g] } :=
    ⟨prefix_append _ _, prefix_refl _, fun _ _ h ↦ h, fun _ conn h ↦ ⟨conn, h, rfl⟩⟩
  exact h.move hg (fun _ ↦ .inl) (auths_grows h hg rfl fun _ hp ↦ hp) (fun _ ↦ .inl)
    (fun k hk ↦ (h.done k hk).trans_le hg.defs.length_le) h.ended fun _ ↦ .inl

theorem Inv.advance (h : Inv env s) {k : ℕ} (hk : k < s.defs.length) :
    Inv env { s with completed := s.completed ++ [k] } := by
  have hg : Grows s { s with completed := s.completed ++ [k] } :=
    ⟨prefix_refl _, prefix_append _ _, fun _ _ h ↦ h, fun _ conn h ↦ ⟨conn, h, rfl⟩⟩
  exact h.move hg (fun _ ↦ .inl) (auths_grows h hg rfl fun _ hp ↦ hp) (fun _ ↦ .inl)
    (forall_mem_concat h.done hk) h.ended fun _ ↦ .inl

/-- The listener of a logout ends one session. -/
theorem Inv.kick (h : Inv env s) (hr : s.logouts[i]? = some r) {id : String}
    {x : Session E} {rest : List (String × Session E)} (hph : r.phase = .ending ((id, x) :: rest))
    (hc : s.conns x.client = some conn) :
    Inv env { s.setConn x.client { conn with status := .closed } with
      table := s.table.drop id x.client
      logouts := s.logouts.set i { r with phase := .ending rest } } := by
  have hauth : ∀ a, conn.auth = some a → a.Ok env s x.client := fun a ↦ h.auths x.client conn a hc
  have hclosed : Inv env (s.setConn x.client { conn with status := .closed }) :=
    h.setConn hc rfl (by simp) hauth
  have hdropped : Inv env { s.setConn x.client { conn with status := .closed } with
      table := s.table.drop id x.client } := hclosed.setTable fun _ hp ↦ (Table.mem_drop hp).1
  refine hdropped.aside (fun _ ↦ .inl) (hdropped.ended.setLogout hr ?_) fun _ ↦ .inl
  intro p hp conn' hconn' hopen _ _ hawait
  rw [hph] at hawait
  obtain ⟨q, hq, hqc⟩ := hawait
  rcases mem_cons.mp hq with rfl | hq
  · -- the connection just closed
    have hself : update s.conns x.client (some { conn with status := .closed }) p.2.client =
        some conn' := hconn'
    rw [← hqc, update_self] at hself
    obtain rfl := some.inj hself
    cases hopen
  · exact ⟨q, hq, hqc⟩

/-! ### Runs -/

theorem inv_step {e : Event G T} (h : Inv env s) (hC : OwnSession s e)
    (hs : (system env).step s e = some s') : Inv env s' := by
  change step env s e = some s' at hs
  cases e with
  | connect c id user v =>
    simp only [step] at hs
    split at hs <;> cases hs
    exact h.connect (by assumption) id user v
  | renew c v =>
    obtain ⟨conn, hc, hs⟩ := bind_eq_some_iff.mp hs
    split at hs
    · rename_i hopen hnone
      split at hs <;> cases hs
      · exact h.setConn hc rfl (by simp) (by simp [hnone])
      · rename_i cur hget
        refine h.setConn hc rfl (by simp) fun a ha ↦ ?_
        obtain rfl := some.inj ha
        refine ⟨le_rfl, fun cur' hcur' ↦ ?_, trivial⟩
        obtain rfl := some.inj hcur'
        exact ⟨hC conn (by simp [hc]) cur (by simp [hget]), (h.table _ (Table.mem_of_get hget)).1⟩
    · cases hs
  | resolve c =>
    obtain ⟨conn, hc, hs⟩ := bind_eq_some_iff.mp hs
    obtain ⟨a, ha, hs⟩ := bind_eq_some_iff.mp hs
    have hok := h.auths c conn a hc ha
    split at hs
    · split at hs
      · cases hs
        exact h.setConn hc rfl (by simp) (by simp)
      · rename_i entry hentry
        cases hs
        exact h.setAuth hc ha (hentry ▸ resolved_now h.done a.token hok.gen_le)
    · cases hs
  | verify c =>
    obtain ⟨conn, hc, hs⟩ := bind_eq_some_iff.mp hs
    obtain ⟨a, ha, hs⟩ := bind_eq_some_iff.mp hs
    split at hs
    · rename_i entry version hph
      dsimp only at hs
      split at hs <;> cases hs
      · exact h.setConn hc rfl (by simp) (by simp)
      · have hres := (h.auths c conn a hc ha).phase
        rw [Auth.PhaseOk, hph] at hres
        exact h.setAuth hc ha hres
    · cases hs
  | put c token =>
    obtain ⟨conn, hc, hs⟩ := bind_eq_some_iff.mp hs
    obtain ⟨a, ha, hs⟩ := bind_eq_some_iff.mp hs
    split at hs <;> cases hs
    exact h.put hc ha (by assumption) (by assumption)
  | settle c =>
    obtain ⟨conn, hc, hs⟩ := bind_eq_some_iff.mp hs
    obtain ⟨a, ha, hs⟩ := bind_eq_some_iff.mp hs
    split at hs
    · rename_i x hph
      split at hs
      · split at hs <;> cases hs
        · have hclosed : Inv env (s.setConn c { conn with status := .closed, auth := none }) :=
            h.setConn hc rfl (by simp) (by simp)
          exact hclosed.setTable fun _ hp ↦ (Table.mem_drop hp).1
        · exact h.rollback hc ha (by assumption)
      · rename_i hout
        cases hs
        exact h.settle hc ha hph (Bool.eq_false_iff.mpr hout) _
    · cases hs
  | endRefused c =>
    obtain ⟨conn, hc, hs⟩ := bind_eq_some_iff.mp hs
    obtain ⟨a, ha, hs⟩ := bind_eq_some_iff.mp hs
    split at hs <;> cases hs
    exact h.setConn hc rfl (by simp) (by simp)
  | disconnect c =>
    obtain ⟨conn, hc, rfl⟩ := map_eq_some_iff.mp hs
    exact h.setConn hc rfl (by simp) fun a ↦ h.auths c conn a hc
  | onDisconnect c =>
    obtain ⟨conn, -, hs⟩ := bind_eq_some_iff.mp hs
    split at hs <;> cases hs
    exact h.setTable fun _ hp ↦ (Table.mem_drop hp).1
  | begin c x =>
    obtain ⟨conn, hc, hs⟩ := bind_eq_some_iff.mp hs
    split at hs
    · rename_i hopen
      obtain ⟨was, hget, rfl⟩ := map_eq_some_iff.mp hs
      have hown : was.client = c := hC conn (by simp [hc]) was (by simp [hget])
      refine h.aside (fun k hk ↦ (mem_append.mp hk).imp_right fun hk ↦ ?_) h.ended fun _ ↦ .inl
      rw [mem_singleton.mp hk]
      exact h.begin hc hopen hget hown x
    · cases hs
  | generation i =>
    obtain ⟨k, hk, hs⟩ := bind_eq_some_iff.mp hs
    split at hs
    · split at hs <;> cases hs
      · exact h.generation hk (by assumption)
      · exact h.setCheck hk ⟨(h.checks k (mem_of_getElem? hk)).required_le, le_rfl⟩
    · cases hs
  | reresolve i =>
    obtain ⟨k, hk, hs⟩ := bind_eq_some_iff.mp hs
    split at hs
    · rename_i gen hph
      cases hs
      obtain ⟨hreq, hle⟩ : k.required ≤ gen ∧ gen ≤ s.completed.length := by
        have := (h.checks k (mem_of_getElem? hk)).phase
        rwa [Check.PhaseOk, hph] at this
      exact h.setCheck hk ⟨hreq, resolved_now h.done _ hle⟩
    · cases hs
  | store i =>
    obtain ⟨k, hk, hs⟩ := bind_eq_some_iff.mp hs
    split at hs
    · rename_i gen entry version hph
      dsimp only at hs
      split at hs <;> cases hs
      · exact h.reresolved (h.checks k (mem_of_getElem? hk)) hph i
      · exact h.store hk hph (by assumption) hC
    · cases hs
  | publish c x =>
    obtain ⟨conn, hc, hs⟩ := bind_eq_some_iff.mp hs
    split at hs
    · rename_i hopen
      obtain ⟨was, hget, rfl⟩ := map_eq_some_iff.mp hs
      obtain ⟨hown, hgen⟩ := hC conn (by simp [hc]) was (by simp [hget])
      exact h.publish hc hopen hget hown hgen x
    · cases hs
  | define g =>
    cases hs
    exact h.define g
  | advance k =>
    simp only [step] at hs
    split at hs <;> cases hs
    rename_i hk
    exact h.advance hk.1
  | tick d =>
    cases hs
    refine h.aside (fun _ ↦ .inl) (fun p hp conn hc hopen hauth r hr hnow ↦ ?_) fun _ ↦ .inl
    exact h.ended p hp conn hc hopen hauth r hr (by omega)
  | logout l =>
    cases hs
    exact h.aside (fun _ ↦ .inl) (fun p hp conn hc hopen hauth ↦
      forall_mem_concat (h.ended p hp conn hc hopen hauth) fun _ _ ↦ trivial) fun _ ↦ .inl
  | snapshot i =>
    obtain ⟨r, hr, hs⟩ := bind_eq_some_iff.mp hs
    split at hs <;> cases hs
    refine h.aside (fun _ ↦ .inl) (h.ended.setLogout hr fun p hp _ _ _ _ hends _ ↦ ?_) fun _ ↦ .inl
    exact ⟨p, mem_filter.mpr ⟨hp, hends⟩, rfl⟩
  | kick i =>
    obtain ⟨r, hr, hs⟩ := bind_eq_some_iff.mp hs
    split at hs
    · rename_i id x rest hph
      obtain ⟨conn, hc, rfl⟩ := map_eq_some_iff.mp hs
      exact h.kick hr hph hc
    · cases hs
  | finish i =>
    obtain ⟨r, hr, hs⟩ := bind_eq_some_iff.mp hs
    split at hs <;> cases hs
    rename_i hph
    refine h.aside (fun _ ↦ .inl) (h.ended.setLogout hr fun p _ _ _ _ _ _ hawait ↦ ?_) fun _ ↦ .inl
    rw [hph] at hawait
    obtain ⟨q, hq, -⟩ := hawait
    cases hq

/-- **In every run whose steps meet the condition all that the door let through is current.** -/
theorem current_of_reach (h : (system env).Reach OwnSession s) : ∀ d ∈ s.served, d.Current env s :=
  fun d hd ↦ ((h.invariant inv_start fun _ _ _ hi hC hs ↦ inv_step hi hC hs).served d hd).current

instance (s : State G E T) : ∀ e, Decidable (OwnSession s e)
  | .begin c _ | .renew c _ => inferInstanceAs (Decidable (∀ conn ∈ (s.conns c).toList, _))
  | .publish c _ => inferInstanceAs (Decidable (∀ conn ∈ (s.conns c).toList, _))
  | .store i => inferInstanceAs (Decidable (∀ k ∈ s.checks[i]?.toList, _))
  | .connect .. | .resolve _ | .verify _ | .put .. | .settle _ | .endRefused _ | .disconnect _
  | .onDisconnect _ | .generation _ | .reresolve _ | .define _ | .advance _ | .tick _ | .logout _
  | .snapshot _ | .kick _ | .finish _ => isTrue trivial

/-! ### A person whose group is withdrawn -/

/-- A definition says whether the group may operate; the last one holds. -/
def operators : Env Bool Bool Unit where
  resolveEntry _ defs := some (defs.getLastD true)
  authorize entry _ := entry.getD false

def alice : Verified := { sub := "alice", sid := "s1", issuedAt := 1, exp := 1000 }

/-- Alice connects. -/
def connectRun : List (Event Bool Unit) :=
  [.connect 0 "tablet" "alice" alice, .resolve 0, .verify 0, .put 0 0, .settle 0]

/-- Alice reads and publishes, her group is confirmed, and she reads again and publishes. -/
def confirmedRun : List (Event Bool Unit) :=
  connectRun ++ [.begin 0 (), .generation 0, .publish 0 (), .define true, .advance 0, .begin 0 (),
    .generation 0, .reresolve 0, .store 0, .publish 0 ()]

theorem confirmed_person_served : ∃ s, (system operators).Reach OwnSession s ∧
    s.served.map (fun d ↦ (d.required, d.session.version)) = [(0, 0), (0, 0), (1, 1), (1, 1)] ∧
    ∀ d ∈ s.served, d.Current operators s := by
  obtain ⟨s, hs, hp⟩ := (system operators).exists_reach OwnSession confirmedRun
    (fun s ↦ s.served.map (fun d ↦ (d.required, d.session.version)) =
      [(0, 0), (0, 0), (1, 1), (1, 1)])
  exact ⟨s, hs, hp, current_of_reach hs⟩

/-- Her group is withdrawn, and she publishes. -/
def withdrawnRun : List (Event Bool Unit) :=
  connectRun ++ [.define false, .advance 0, .publish 0 ()]

/-- **The publish is let through on the grants of the definition before.** -/
theorem stale_publish : ¬ ∀ s, (system operators).Reachable s → ∀ d ∈ s.served, d.Current operators s := by
  intro h
  obtain ⟨s, hs, hcompleted, hserved⟩ := (system operators).exists_reachable withdrawnRun
    (fun s ↦ s.completed = [0] ∧ s.served.map (fun d ↦ (d.required, d.session.version)) = [(1, 0)])
  obtain ⟨d, hd, heq⟩ := mem_map.mp (hserved ▸ mem_singleton_self (1, 0))
  have hnewer := (h s hs d hd).newer 0
  rw [hcompleted, (Prod.mk.inj heq).1, (Prod.mk.inj heq).2] at hnewer
  exact absurd (hnewer (by simp)) (Nat.not_lt_zero 0)

end Colca.Mqtt.Human
