import Colca.Store.Indexes

/-!
# Prunes that override stale cursors

A cursor holds a stream back from retention until it has not moved for a while; then the pruner stops
protecting it. A pass decides from the positions it read, with a list of the cursors it overrides and,
on the commands stream, the commands they were held for, which it will answer as dropped. The store then
looks at the cursors again, under its lock, and takes the shorter prefix (`PruneScanned`).

It looks again at **names**: a cursor on the list is not looked at, wherever it stands by now. And the
lock is the lock of the streams, not that of the cursors: a cursor may be created between the second look
and the commit.

`Undisturbed` excludes the two. In every run that meets it a prune costs only cursors that are still
stale, and only commands that were not delivered are answered (`fair_of_reach`). `acked_meanwhile` is a run
it excludes.
-/

namespace Colca.PruneOverride

open Uns List Option StoreRun

/-- What the pruner takes from outside the store. -/
structure Env where
  write : WriteEnv
  /-- `QueuedFor`: the commands a delivery cursor is held for, `none` for any other cursor. -/
  queuedFor : String → Option (RecEnc → Bool)
  /-- `QueuedAnswer` with code 410, `none` for a command nobody can be told about. -/
  answer : ℕ × RecEnc → Option Record
  /-- The gap marker of a span and of the cursors it passed. -/
  marker : Stream → ℕ → ℕ → List String → Record

/-- The positions of cursors, by name and stream. -/
abbrev Cursors := AList fun _ : String × Stream ↦ ℕ

/-- The cursors of a stream. -/
def cursorsOn (c : Cursors) (st : Stream) : List (String × ℕ) :=
  c.entries.filterMap fun e ↦ if e.1.2 = st then some (e.1.1, e.2) else none

variable {upTo : ℕ} {pos : ℕ} {d : Disk} {y : Drop}

theorem mem_cursorsOn {c : Cursors} {st : Stream} {n : String} :
    (n, pos) ∈ cursorsOn c st ↔ c.lookup (n, st) = some pos := by
  have hlookup : c.lookup (n, st) = some pos ↔ (⟨(n, st), pos⟩ : Sigma fun _ ↦ ℕ) ∈ c.entries :=
    AList.mem_lookup_iff
  rw [hlookup, cursorsOn, mem_filterMap]
  constructor
  · rintro ⟨⟨⟨n', st'⟩, pos'⟩, he, h⟩
    split at h
    · rename_i hst
      obtain rfl : st' = st := hst
      cases h
      exact he
    · cases h
  · exact fun he ↦ ⟨_, he, if_pos rfl⟩

/-- A command that is dropped with its answer, and the cursor it was held for as the pass read it. -/
structure Drop where
  offset : ℕ
  cursor : String
  pos : ℕ
  answer : Record

/-- A pass of the pruner over a stream. -/
structure Pass where
  stream : Stream
  lwm : ℕ
  holes : ℕ
  /-- The end of the prefix its policy takes, and the records there. -/
  upTo : ℕ
  recs : List (ℕ × RecEnc)
  /-- The stale cursors it would pass, at the positions it read. -/
  overridden : List (String × ℕ)
  dropped : List Drop
  /-- The end after the second look at the cursors; from then on the pass holds the store's lock. -/
  floor : Option ℕ := none

structure State where
  run : StoreRun.State
  cursors : Cursors := ∅
  pass : Option Pass := none

inductive Event
  /-- The store's other business. -/
  | store (e : StoreRun.Event)
  /-- `CursorAck`. -/
  | ack (name : String) (st : Stream) (off : ℕ)
  /-- `CursorSetIfAbsent`. -/
  | create (name : String) (st : Stream) (off : ℕ)
  /-- A pass reads the cursors and the prefix, and decides. -/
  | decide (st : Stream) (upTo : ℕ) (stale : String → Bool)
  /-- `PruneScanned` takes the lock and looks at the cursors again. -/
  | recheck
  | commit
  | giveUp

variable (env : Env)

/-! ### The pass -/

/-- The commands of one overridden cursor that are not answered for another one. -/
def dropsOf (d : Disk) (upTo : ℕ) (out : List Drop) (c : String × ℕ) : List Drop :=
  match env.queuedFor c.1 with
  | none => out
  | some queued => out ++ (recordsIn d .commands c.2 upTo).filterMap fun x ↦
      if queued x.2 && !(out.any fun y ↦ y.offset = x.1) then
        (env.answer x).map fun a ↦ ⟨x.1, c.1, c.2, a⟩
      else none

/-- `droppedCommands`. -/
def droppedCommands (d : Disk) (st : Stream) (overridden : List (String × ℕ)) (upTo : ℕ) : List Drop :=
  if st = .commands then overridden.foldl (dropsOf env d upTo) [] else []

/-- The pass as it is decided. -/
def decidePass (s : State) (st : Stream) (upTo : ℕ) (stale : String → Bool) : Pass :=
  let overridden := (cursorsOn s.cursors st).filter fun c ↦ stale c.1 && decide (c.2 < upTo)
  { stream := st
    lwm := s.run.lwm st
    holes := s.run.holes st
    upTo := upTo
    recs := recordsIn s.run.store.disk st (s.run.lwm st) upTo
    overridden := overridden
    dropped := droppedCommands env s.run.store.disk st overridden upTo }

namespace Pass

variable (p : Pass)

/-- The cursor is on the list. -/
def names (n : String) : Bool := p.overridden.any fun c ↦ c.1 = n

/-- The second look: the lowest of the cursors that are not on the list. -/
def recheck (c : Cursors) : ℕ :=
  cursorFloor (((cursorsOn c p.stream).filter fun x ↦ !p.names x.1).map Prod.snd) p.upTo

/-- The cursors a prune up to `m` passes. -/
def passed (m : ℕ) : List (String × ℕ) := p.overridden.filter fun c ↦ c.2 < m

/-- The commands a prune up to `m` answers. -/
def answered (m : ℕ) : List Drop :=
  if p.passed m = [] then [] else p.dropped.filter fun d ↦ decide (d.offset < m) && decide (d.pos < m)

/-- What the plan adds to the prune: a gap marker and the answers, if a cursor is passed. -/
def gaps (m : ℕ) : List Record :=
  if p.passed m = [] then []
  else env.marker p.stream p.lwm (m - 1) ((p.passed m).map Prod.fst) :: (p.answered m).map Drop.answer

/-- What the prune removes. -/
def removal (s : StoreRun.State) (m : ℕ) : Option StoreRun.Removal :=
  pruneScanned env.write s p.stream p.lwm p.holes p.upTo m p.recs

end Pass

/-! ### Steps -/

/-- The cursor moves forward, or comes into being. -/
def ackCursor (c : Cursors) (n : String) (st : Stream) (off : ℕ) : Cursors :=
  if (c.lookup (n, st)).getD 1 < off then c.insert (n, st) off else c

def createCursor (c : Cursors) (n : String) (st : Stream) (off : ℕ) : Cursors :=
  if (c.lookup (n, st)).isSome then c else c.insert (n, st) off

/-- A reopen ends the pass. -/
def passAfter (p : Option Pass) : StoreRun.Event → Option Pass
  | .reopen => none
  | _ => p

def step (s : State) : Event → Option State
  | .store e =>
    -- every other write waits for the lock
    if s.pass.all fun p ↦ p.floor.isNone then
      (StoreRun.step env.write s.run e).map fun run ↦ { s with run := run, pass := passAfter s.pass e }
    else none
  | .ack n st off => some { s with cursors := ackCursor s.cursors n st off }
  | .create n st off => some { s with cursors := createCursor s.cursors n st off }
  | .decide st upTo stale =>
    if s.pass.isNone ∧ s.run.lwm st < upTo ∧ upTo ≤ s.run.next st ∧
        ∀ c ∈ cursorsOn s.cursors st, stale c.1 ∨ upTo ≤ c.2 then
      some { s with pass := some (decidePass env s st upTo stale) }
    else none
  | .recheck =>
    match s.pass with
    | some p =>
      if p.floor.isSome then none
      else if s.run.lwm p.stream ≠ p.lwm then some { s with pass := none }
      else some { s with pass := some { p with floor := some (p.recheck s.cursors) } }
    | none => none
  | .commit =>
    match s.pass with
    | some p =>
      p.floor.map fun m ↦
        { s with run := s.run.removeOr env.write (p.removal env s.run m) (p.gaps env m), pass := none }
    | none => none
  | .giveUp => some { s with pass := none }

/-- A store and its pruner. -/
def system (f : Found) : StateMachine State Event where
  start := { run := StoreRun.start f }
  step := step env

/-! ### What a prune may cost -/

/-- The commands a commit answers. -/
def answeredBy (s : State) (p : Pass) (m : ℕ) : List Drop :=
  if (p.removal env s.run m).isSome then p.answered m else []

/-- **A fair commit.** It removes nothing at or above a cursor that is not on the list or that has
advanced since the decision, and every command it answers lies at or above the cursor it was held for. -/
structure Fair (s s' : State) (p : Pass) (m : ℕ) : Prop where
  keeps : ∀ n pos, s.cursors.lookup (n, p.stream) = some pos →
    (∀ q, (n, q) ∈ p.overridden → q < pos) → ∀ o e, pos ≤ o →
      recordAt s.run.store.disk p.stream o = some e → recordAt s'.run.store.disk p.stream o = some e
  answers : ∀ d ∈ answeredBy env s p m, ∀ pos, s.cursors.lookup (d.cursor, p.stream) = some pos →
    pos ≤ d.offset

/-- A cursor on the list of the pass may move only to or past its end, and only if no command it holds
is to be answered. Where the pass holds the lock no cursor may come into being below its end. -/
def Pass.allowsAck (p : Pass) (c : Cursors) (n : String) (off : ℕ) : Bool :=
  match c.lookup (n, p.stream) with
  | some pos => decide (off ≤ pos) || !p.names n ||
      (decide (p.upTo ≤ off) && p.dropped.all fun d ↦ d.cursor ≠ n)
  | none => decide (off ≤ 1) || p.floor.all fun m ↦ m ≤ off

def Pass.allowsCreate (p : Pass) (c : Cursors) (n : String) (off : ℕ) : Bool :=
  (c.lookup (n, p.stream)).isSome || p.floor.all fun m ↦ m ≤ off

/-- Nothing happens to a cursor that the pass in flight does not see. -/
def Undisturbed (s : State) : Event → Prop
  | .ack n st off => ∀ p ∈ s.pass, p.stream = st → p.allowsAck s.cursors n off
  | .create n st off => ∀ p ∈ s.pass, p.stream = st → p.allowsCreate s.cursors n off
  | _ => True

instance (s : State) (e : Event) : Decidable (Undisturbed s e) :=
  match e with
  | .ack n st off =>
    inferInstanceAs (Decidable (∀ p ∈ s.pass, p.stream = st → p.allowsAck s.cursors n off))
  | .create n st off =>
    inferInstanceAs (Decidable (∀ p ∈ s.pass, p.stream = st → p.allowsCreate s.cursors n off))
  | .store _ | .decide _ _ _ | .recheck | .commit | .giveUp => inferInstanceAs (Decidable True)

/-! ### The pass and the cursors -/

variable {env} {s s' : State} {p : Pass} {c c' : Cursors} {n : String} {st : Stream} {off m : ℕ}

theorem Pass.mem_of_names (h : p.names n = true) : ∃ q, (n, q) ∈ p.overridden := by
  obtain ⟨x, hx, hn⟩ := any_eq_true.mp h
  exact ⟨x.2, of_decide_eq_true hn ▸ hx⟩

/-- What the pass relies on: its list holds where the cursors stand, the commands it answers are those
of its list, and once it has looked again the others stand at or above its end. -/
structure Pass.Holds (p : Pass) (c : Cursors) : Prop where
  overridden : ∀ x ∈ p.overridden, ∃ pos, c.lookup (x.1, p.stream) = some pos ∧
    (pos = x.2 ∨ (p.upTo ≤ pos ∧ ∀ d ∈ p.dropped, d.cursor ≠ x.1))
  dropped : ∀ d ∈ p.dropped, (d.cursor, d.pos) ∈ p.overridden ∧ d.pos ≤ d.offset
  floor : ∀ m, p.floor = some m → m ≤ p.upTo ∧
    ∀ n pos, c.lookup (n, p.stream) = some pos → p.names n = true ∨ m ≤ pos

theorem dropsOf_mem {out : List Drop} {x : String × ℕ}
    (h : y ∈ dropsOf env d upTo out x) : y ∈ out ∨ ((y.cursor, y.pos) = x ∧ y.pos ≤ y.offset) := by
  unfold dropsOf at h
  split at h
  · exact .inl h
  · rcases mem_append.mp h with h | h
    · exact .inl h
    · obtain ⟨z, hz, hy⟩ := mem_filterMap.mp h
      split at hy
      · obtain ⟨a, -, rfl⟩ := map_eq_some_iff.mp hy
        exact .inr ⟨rfl, (mem_recordsIn.mp hz).1⟩
      · cases hy

theorem droppedCommands_mem {overridden : List (String × ℕ)}
    (h : y ∈ droppedCommands env d st overridden upTo) :
    (y.cursor, y.pos) ∈ overridden ∧ y.pos ≤ y.offset := by
  unfold droppedCommands at h
  split at h
  · have hfold : ∀ (l : List (String × ℕ)) (out : List Drop), y ∈ l.foldl (dropsOf env d upTo) out →
        y ∈ out ∨ ((y.cursor, y.pos) ∈ l ∧ y.pos ≤ y.offset) := by
      intro l
      induction l with
      | nil => exact fun out hy ↦ .inl hy
      | cons x l ih =>
        intro out hy
        rcases ih _ hy with hy | ⟨hmem, hle⟩
        · rcases dropsOf_mem hy with hy | ⟨heq, hle⟩
          · exact .inl hy
          · exact .inr ⟨heq ▸ mem_cons_self, hle⟩
        · exact .inr ⟨mem_cons_of_mem _ hmem, hle⟩
    exact (hfold _ _ h).resolve_left not_mem_nil
  · cases h

theorem decidePass_holds (s : State) (st : Stream) (upTo : ℕ) (stale : String → Bool) :
    (decidePass env s st upTo stale).Holds s.cursors where
  overridden x hx :=
    ⟨x.2, mem_cursorsOn.mp (mem_of_mem_filter hx), .inl rfl⟩
  dropped _ hd := droppedCommands_mem hd
  floor _ h := nomatch h

theorem Pass.Holds.recheck (h : p.Holds c) : ({ p with floor := some (p.recheck c) } : Pass).Holds c :=
  { h with
    floor m hm := by
      cases hm
      refine ⟨cursorFloor_le mem_cons_self, fun n pos hpos ↦ ?_⟩
      cases hn : p.names n with
      | true => exact .inl hn
      | false =>
        refine .inr (cursorFloor_le (mem_cons_of_mem _ (mem_map.mpr ⟨(n, pos), mem_filter.mpr ⟨?_, ?_⟩, rfl⟩)))
        · exact mem_cursorsOn.mpr hpos
        · simp [hn] }

/-- A cursor comes to stand at `off`: the pass still holds if that is no news to it. -/
theorem Pass.Holds.insert (h : p.Holds c) (hlist : p.stream = st → p.names n = true →
      p.upTo ≤ off ∧ ∀ d ∈ p.dropped, d.cursor ≠ n)
    (hfloor : p.stream = st → p.names n = false → ∀ m, p.floor = some m → m ≤ off) :
    p.Holds (c.insert (n, st) off) := by
  refine ⟨fun x hx ↦ ?_, h.dropped, fun m hm ↦ ⟨(h.floor m hm).1, fun n' pos hpos ↦ ?_⟩⟩
  · by_cases heq : (x.1, p.stream) = (n, st)
    · cases heq
      have hn : p.names x.1 = true := any_eq_true.mpr ⟨x, hx, decide_eq_true rfl⟩
      exact ⟨off, AList.lookup_insert c, .inr (hlist rfl hn)⟩
    · rw [AList.lookup_insert_ne heq]
      exact h.overridden x hx
  · by_cases heq : (n', p.stream) = (n, st)
    · cases heq
      rw [AList.lookup_insert] at hpos
      cases hpos
      cases hn : p.names n with
      | true => exact .inl rfl
      | false => exact .inr (hfloor rfl hn m hm)
    · rw [AList.lookup_insert_ne heq] at hpos
      exact (h.floor m hm).2 n' pos hpos

/-- An absent cursor is not on the list. -/
theorem Pass.Holds.not_names (h : p.Holds c) (hnone : c.lookup (n, p.stream) = none) :
    p.names n = false := by
  by_contra hn
  obtain ⟨q, hq⟩ := Pass.mem_of_names (Bool.eq_true_of_not_eq_false hn)
  obtain ⟨pos, hpos, -⟩ := h.overridden _ hq
  rw [hnone] at hpos
  cases hpos

theorem Pass.Holds.ack (h : p.Holds c) (hC : p.stream = st → p.allowsAck c n off) :
    p.Holds (ackCursor c n st off) := by
  unfold ackCursor
  split
  · rename_i hmoves
    refine h.insert (fun hst hn ↦ ?_) fun hst hn m hm ↦ ?_
    · subst hst
      obtain ⟨q, hq⟩ := Pass.mem_of_names hn
      obtain ⟨pos, hpos, -⟩ := h.overridden _ hq
      have hC := hC rfl
      rw [hpos] at hmoves
      have hlt : ¬ off ≤ pos := hmoves.not_ge
      simpa [Pass.allowsAck, hpos, hn, hlt] using hC
    · subst hst
      have hC := hC rfl
      cases hpos : c.lookup (n, p.stream) with
      | some pos =>
        -- it was at or above the end, and moves forward
        have hle := ((h.floor m hm).2 n pos hpos).resolve_left (by simp [hn])
        rw [hpos] at hmoves
        exact hle.trans hmoves.le
      | none =>
        rw [hpos] at hmoves
        have hlt : ¬ off ≤ 1 := hmoves.not_ge
        simpa [Pass.allowsAck, hpos, hm, hlt] using hC
  · exact h

theorem Pass.Holds.create (h : p.Holds c) (hC : p.stream = st → p.allowsCreate c n off) :
    p.Holds (createCursor c n st off) := by
  unfold createCursor
  split
  · exact h
  · rename_i hsome
    have hnone : c.lookup (n, st) = none := by simpa using hsome
    refine h.insert (fun hst hn ↦ ?_) fun hst hn m hm ↦ ?_
    · subst hst
      rw [h.not_names hnone] at hn
      cases hn
    · subst hst
      simpa [Pass.allowsCreate, hnone, hm] using hC rfl

/-! ### Runs -/

/-- The store is in order, what the pass read is the stream's unless the marks moved, and the pass
holds. -/
structure Inv (s : State) : Prop where
  run : StoreRun.Inv s.run
  scan : ∀ p, s.pass = some p →
    (StoreRun.Scan.prune p.stream p.lwm p.holes (some (p.upTo, p.recs))).Valid s.run
  pass : ∀ p, s.pass = some p → p.Holds s.cursors

/-- The low-water mark of the pass, its end and its records, as a scan knows them. -/
theorem Inv.removal_sound {x : Removal} (hi : Inv s) (hp : s.pass = some p)
    (hx : p.removal env s.run m = some x) : x.Sound s.run :=
  pruneScanned_sound ((hi.scan p hp).2.2 _ _ rfl).2.2 hi.run.layout.records hx

theorem Inv.commit (hi : Inv s) (hp : s.pass = some p) (gaps : List Record) :
    StoreRun.Inv (s.run.removeOr env.write (p.removal env s.run m) gaps) := by
  cases hx : p.removal env s.run m with
  | none => exact hi.run
  | some x => exact hi.run.removed (hi.removal_sound hp hx) hi.run.scans

theorem Inv.step {e : Event} (hi : Inv s) (hC : Undisturbed s e) (h : step env s e = some s') : Inv s' := by
  cases e with
  | store e =>
    simp only [PruneOverride.step] at h
    split at h
    · obtain ⟨run, hrun, rfl⟩ := map_eq_some_iff.mp h
      have hdoes := hi.run.does hrun
      have hpass : ∀ p, passAfter s.pass e = some p → s.pass = some p ∧ e ≠ .reopen := by
        intro p hp
        cases e with
        | reopen => cases hp
        | _ => exact ⟨hp, nofun⟩
      refine ⟨hdoes.inv hi.run, fun p hp ↦ ?_, fun p hp ↦ hi.pass p (hpass p hp).1⟩
      exact (hi.scan p (hpass p hp).1).later (hdoes.later hi.run (hpass p hp).2)
    · cases h
  | ack n st off =>
    cases h
    exact ⟨hi.run, hi.scan, fun p hp ↦ (hi.pass p hp).ack (hC p hp)⟩
  | create n st off =>
    cases h
    exact ⟨hi.run, hi.scan, fun p hp ↦ (hi.pass p hp).create (hC p hp)⟩
  | decide st upTo stale =>
    simp only [PruneOverride.step] at h
    split at h
    · rename_i hguard
      cases h
      refine ⟨hi.run, fun p hp ↦ ?_, fun p hp ↦ ?_⟩
      · cases hp
        refine ⟨le_rfl, le_rfl, fun upTo' recs heq ↦ ?_⟩
        cases heq
        exact ⟨hguard.2.1, hguard.2.2.1, fun _ _ ↦ rfl⟩
      · cases hp
        exact decidePass_holds s st upTo stale
    · cases h
  | recheck =>
    simp only [PruneOverride.step] at h
    split at h
    · rename_i p hp
      split at h
      · cases h
      · split at h
        · cases h
          exact ⟨hi.run, nofun, nofun⟩
        · cases h
          refine ⟨hi.run, fun p' hp' ↦ ?_, fun p' hp' ↦ ?_⟩
          · cases hp'
            exact hi.scan p hp
          · cases hp'
            exact (hi.pass p hp).recheck
    · cases h
  | commit =>
    simp only [PruneOverride.step] at h
    split at h
    · rename_i p hp
      obtain ⟨m, -, rfl⟩ := map_eq_some_iff.mp h
      exact ⟨hi.commit hp _, nofun, nofun⟩
    · cases h
  | giveUp =>
    cases h
    exact ⟨hi.run, nofun, nofun⟩

/-- What a commit leaves at or above its end. -/
theorem Inv.commit_keeps (hi : Inv s) (hp : s.pass = some p) (hle : m ≤ p.upTo) {o : ℕ} {e : RecEnc}
    (ho : m ≤ o) (he : recordAt s.run.store.disk p.stream o = some e) (gaps : List Record) :
    recordAt (s.run.removeOr env.write (p.removal env s.run m) gaps).store.disk p.stream o = some e := by
  cases hx : p.removal env s.run m with
  | none => exact he
  | some x =>
    obtain ⟨-, -, -, rfl⟩ := pruneScanned_eq ((hi.scan p hp).2.2 _ _ rfl).2.2 hx
    have hlt := hi.run.layout.records.lt_next _ _ _ he
    show recordAt (s.run.remove env.write _ gaps).store.disk p.stream o = some e
    rw [remove_recordAt hlt, recordAt_removeKeys_of_not, he]
    refine .inr fun hgone ↦ ?_
    have hend := (mem_pruneGone_record.mp hgone).2
    rw [min_eq_right hle] at hend
    exact absurd ho hend.not_ge

/-- **A prune costs only consumers that are still stale**, in every run in which nothing happens to a
cursor that the pass in flight does not see. -/
theorem fair_of_reach (env : Env) (f : Found) (s s' : State) (p : Pass) (m : ℕ)
    (h : (system env f).Reach Undisturbed s) (hp : s.pass = some p) (hm : p.floor = some m)
    (hstep : step env s .commit = some s') : Fair env s s' p m := by
  have hi : Inv s := by
    refine StateMachine.Reach.invariant ?_ (fun s e s' hi hC hs ↦ hi.step hC hs) h
    exact ⟨inv_start f, nofun, nofun⟩
  have hholds := hi.pass p hp
  obtain ⟨hle, hfloor⟩ := hholds.floor m hm
  simp only [PruneOverride.step, hp, hm, map_some, Option.some.injEq] at hstep
  subst hstep
  refine ⟨fun n pos hpos hmoved o e ho he ↦ ?_, fun d hd pos hpos ↦ ?_⟩
  · refine hi.commit_keeps hp hle (le_trans ?_ ho) he _
    rcases hfloor n pos hpos with hn | hmp
    · -- on the list: it has moved, so it stands at or past the end
      obtain ⟨q, hq⟩ := Pass.mem_of_names hn
      obtain ⟨pos', hpos', hstand⟩ := hholds.overridden _ hq
      obtain rfl : pos = pos' := Option.some.inj (hpos.symm.trans hpos')
      rcases hstand with rfl | ⟨hend, -⟩
      · exact absurd (hmoved _ hq) (Nat.lt_irrefl _)
      · exact hle.trans hend
    · exact hmp
  · have hmem : d ∈ p.dropped := by
      unfold answeredBy Pass.answered at hd
      split at hd
      · split at hd
        · cases hd
        · exact mem_of_mem_filter hd
      · cases hd
    obtain ⟨hlist, hpos'⟩ := hholds.dropped d hmem
    obtain ⟨pos', hlookup, hstand⟩ := hholds.overridden _ hlist
    obtain rfl : pos = pos' := Option.some.inj (hpos.symm.trans hlookup)
    rcases hstand with rfl | ⟨-, hnone⟩
    · exact hpos'
    · exact absurd rfl (hnone d hmem)

/-! ### A machine that comes back in time -/

/-- One delivery cursor, `pump`, for every command, and an answer to every command. -/
def pumpEnv : Env where
  write := sampleEnv
  queuedFor n := if n = "pump" then some fun _ ↦ true else none
  answer x := some { topic := ["colca", "v1", "_Ack", "edge", "pump", "start"], ts := x.1 }
  marker st _ _ _ := { topic := ["colca", "v1", "_StreamGap", "edge", st.name] }

/-- A command for the pump. -/
def pumpCommand : Record := { topic := ["colca", "v1", "_CmdStart", "pump", "start"], payload := [1] }

/-- Three commands, and a pass that finds the pump stale before the first of them. -/
def stalePump : List Event :=
  [.store (.write (.append [⟨.commands, [pumpCommand, pumpCommand, pumpCommand]⟩]) true),
    .create "pump" .commands 1, .decide .commands 4 fun _ ↦ true]

/-- A commit is about to answer the three commands. -/
def answersAll (s : State) : Bool :=
  s.pass.any fun p ↦ decide (p.floor = some 4) &&
    decide ((answeredBy pumpEnv s p 4).map Drop.offset = [1, 2, 3])

/-- The pump stays away: its three commands are pruned and answered. -/
theorem fair_stalePump : ∃ s s' p, (system pumpEnv .empty).Reach Undisturbed s ∧ s.pass = some p ∧
    (answeredBy pumpEnv s p 4).map Drop.offset = [1, 2, 3] ∧ Fair pumpEnv s s' p 4 := by
  obtain ⟨s, hreach, hs⟩ := (system pumpEnv .empty).exists_reach Undisturbed (stalePump ++ [.recheck])
    (answersAll ·)
  obtain ⟨p, hp, hs⟩ := (any_eq_true _ _).mp hs
  obtain ⟨hm, hanswered⟩ := (Bool.and_eq_true _ _).mp hs
  have hm : p.floor = some 4 := of_decide_eq_true hm
  have hstep : step pumpEnv s .commit =
      some { s with
        run := s.run.removeOr pumpEnv.write (p.removal pumpEnv s.run 4) (p.gaps pumpEnv 4)
        pass := none } := by
    simp only [step, hp, hm, map_some]
  exact ⟨s, _, p, hreach, hp, of_decide_eq_true hanswered,
    fair_of_reach pumpEnv .empty s _ p 4 hreach hp hm hstep⟩

/-- What a commit is about to do, where it is unfair: the pass, its end, a cursor and its position. -/
def costs (s : State) (n : String) (pos : ℕ) : Bool :=
  s.pass.any fun p ↦ decide (p.floor = some 4) && decide (p.stream = .commands) &&
    decide (s.cursors.lookup (n, .commands) = some pos) &&
    (p.overridden.all fun x ↦ decide (x.1 = n → x.2 < pos)) &&
    (recordAt s.run.store.disk .commands pos).isSome &&
    ((step pumpEnv s .commit).any fun s' ↦ (recordAt s'.run.store.disk .commands pos).isNone)

/-- Such a commit is not fair. -/
theorem not_fair_of_costs {s : State} {n : String} (h : costs s n pos = true) :
    ∃ s' p, s.pass = some p ∧ p.floor = some 4 ∧ step pumpEnv s .commit = some s' ∧
      ¬ Fair pumpEnv s s' p 4 := by
  obtain ⟨p, hp, h⟩ := (any_eq_true _ _).mp h
  simp only [Bool.and_eq_true, decide_eq_true_eq, List.all_eq_true] at h
  obtain ⟨⟨⟨⟨⟨hm, hst⟩, hpos⟩, hmoved⟩, hsome⟩, hstep⟩ := h
  obtain ⟨s', hs', hnone⟩ := (any_eq_true _ _).mp hstep
  refine ⟨s', p, hp, hm, hs', fun hfair ↦ ?_⟩
  obtain ⟨e, he⟩ := isSome_iff_exists.mp hsome
  have hkept := hfair.keeps n pos (hst ▸ hpos) (fun q hq ↦ hmoved (n, q) hq rfl) pos e le_rfl (hst ▸ he)
  rw [hst, isNone_iff_eq_none.mp hnone] at hkept
  cases hkept

/-- **The pump acknowledges two commands after the decision**, and the third one is taken from it: its
name is on the list. The two it has carried out are answered as dropped. -/
theorem acked_meanwhile : ¬ ∀ s s' p m, (system pumpEnv .empty).Reachable s → s.pass = some p →
    p.floor = some m → step pumpEnv s .commit = some s' → Fair pumpEnv s s' p m := by
  intro hall
  obtain ⟨s, hreach, hs⟩ := (system pumpEnv .empty).exists_reachable
    (stalePump ++ [.ack "pump" .commands 3, .recheck]) (fun s ↦ costs s "pump" 3)
  obtain ⟨s', p, hp, hm, hstep, hnot⟩ := not_fair_of_costs hs
  exact hnot (hall s s' p 4 hreach hp hm hstep)

end Colca.PruneOverride
