import Colca.Store.Indexes
import Mathlib.Data.List.Sort

/-!
# Compaction and its readers

A reader of a stream that counts by the latest record of each topic folds the records in (`readAll`): a
record replaces the one of its topic, a retraction removes it. `Compact` decides on records it read
without the lock and on the cursors as it sees them under it. Wherever the reader stands, at the start of the
stream or at a cursor, the records that are left take it where all of them would have (`compact_readers`).

A superseded record may go since the one after it settles its topic; a retraction may go since a reader
that holds what it retracts would stand below the floor. But the lock is not that of the cursors: a reader
that saves its first position after `Compact` has looked, and before it commits, is not seen
(`cursor_meanwhile`).
-/

namespace Colca.StoreRun

open Uns List Function KeyedLog

/-- What a reader holds: the latest record of each topic. -/
abbrev Held := Topic → Option (ℕ × RecEnc)

/-- One more record. -/
def readOne (m : Held) (x : ℕ × RecEnc) : Held :=
  update m x.2.topic (if isRetraction x.2 then none else some x)

/-- Records are folded in. -/
def readAll (m : Held) (recs : List (ℕ × RecEnc)) : Held := recs.foldl readOne m

section Reader

variable {m : Held} {recs : List (ℕ × RecEnc)} {t : Topic} {x : ℕ × RecEnc}

theorem readAll_concat (m : Held) (recs : List (ℕ × RecEnc)) (x : ℕ × RecEnc) :
    readAll m (recs ++ [x]) = readOne (readAll m recs) x := foldl_append ..

theorem readAll_of_none (h : ∀ y ∈ recs, y.2.topic ≠ t) : readAll m recs t = m t := by
  induction recs using List.reverseRecOn with
  | nil => rfl
  | append_singleton recs x ih =>
    rw [readAll_concat, readOne, update_of_ne (h x (by simp)).symm]
    exact ih fun y hy ↦ h y (mem_append_left _ hy)

/-- The last record of a topic settles it. -/
theorem readAll_of_last (hinc : recs.Pairwise (·.1 < ·.1)) (hx : x ∈ recs) (ht : x.2.topic = t)
    (hlast : ∀ y ∈ recs, y.2.topic = t → y.1 ≤ x.1) :
    readAll m recs t = if isRetraction x.2 then none else some x := by
  induction recs using List.reverseRecOn with
  | nil => cases hx
  | append_singleton recs z ih =>
    rw [readAll_concat, readOne]
    obtain ⟨hinc', -, hz⟩ := pairwise_append.mp hinc
    rcases mem_append.mp hx with hx | hx
    · have hne : t ≠ z.2.topic := fun heq ↦
        (hz x hx z (by simp)).not_ge (hlast z (by simp) heq.symm)
      rw [update_of_ne hne]
      exact ih hinc' hx fun y hy ↦ hlast y (mem_append_left _ hy)
    · obtain rfl := mem_singleton.mp hx
      rw [← ht, update_self]

/-- A topic has a last record, or none. -/
theorem exists_last (hinc : recs.Pairwise (·.1 < ·.1)) (t : Topic) : (∀ y ∈ recs, y.2.topic ≠ t) ∨
    ∃ x ∈ recs, x.2.topic = t ∧ ∀ y ∈ recs, y.2.topic = t → y.1 ≤ x.1 := by
  induction recs using List.reverseRecOn with
  | nil => exact .inl nofun
  | append_singleton recs z ih =>
    obtain ⟨hinc', -, hz⟩ := pairwise_append.mp hinc
    by_cases ht : z.2.topic = t
    · refine .inr ⟨z, by simp, ht, fun y hy _ ↦ ?_⟩
      rcases mem_append.mp hy with hy | hy
      · exact (hz y hy z (by simp)).le
      · rw [mem_singleton.mp hy]
    · have hsplit : ∀ y ∈ recs ++ [z], y.2.topic = t → y ∈ recs := fun y hy hyt ↦
        (mem_append.mp hy).resolve_right fun hm ↦ ht (mem_singleton.mp hm ▸ hyt)
      rcases ih hinc' with hnone | ⟨x, hx, hxt, hlast⟩
      · exact .inl fun y hy hyt ↦ hnone y (hsplit y hy hyt) hyt
      · exact .inr ⟨x, mem_append_left _ hx, hxt, fun y hy hyt ↦ hlast y (hsplit y hy hyt) hyt⟩

end Reader

/-- The stream of a scan. -/
def Scan.stream : Scan → Stream
  | .prune st _ _ _ | .compact st _ _ _ _ | .evict st _ _ _ | .signals st _ _ _ _ _ => st

/-! ### Readers of a stream -/

/-- A store, and the cursors on one of its streams. -/
structure Watched where
  run : State
  /-- The positions of the cursors. -/
  cursors : List ℕ := []
  /-- Every record there was on the stream, by its offset: a ghost. -/
  written : ℕ → Option RecEnc
  /-- The compaction that holds the lock, and the floor it took of the cursors. -/
  locked : Option (ℕ × ℕ) := none

namespace Watched

inductive Event
  /-- The store's other business. -/
  | store (e : StoreRun.Event)
  /-- Cursors move, appear or go. -/
  | cursors (ps : List ℕ)
  /-- `Compact` takes the lock and looks at the cursors. -/
  | look (i : ℕ)
  | commit

variable (env : WriteEnv) (st : Stream)

def step (s : Watched) : Event → Option Watched
  | .store e =>
    -- every other write waits for the lock
    if s.locked.isSome then none
    else (StoreRun.step env s.run e).map fun run ↦
      { s with run := run, written := fun o ↦ (s.written o).or (recordAt run.store.disk st o) }
  | .cursors ps => some { s with cursors := ps }
  | .look i =>
    if s.locked.isNone ∧ (s.run.scans i).map Scan.stream = some st then
      some { s with locked := some (i, cursorFloor s.cursors (s.run.next st)) }
    else none
  | .commit => s.locked.bind fun l ↦
    (StoreRun.step env s.run (.commitCompact l.1 l.2)).map fun run ↦ { s with run := run, locked := none }

/-- A store that was found on a disk; `past` are records it had before. -/
def system (f : Found) (past : ℕ → Option RecEnc) : StateMachine Watched Event where
  start := { run := start f, written := fun o ↦ (recordAt (start f).store.disk st o).or (past o) }
  step := step env st

/-- What a reader holds that has read every record below a position. -/
def below (s : Watched) (p : ℕ) : Held :=
  readAll (fun _ ↦ none) ((range p).filterMap fun o ↦ (s.written o).map (o, ·))

/-- **Readers end where they did.** -/
structure ReadersKeep (s s' : Watched) : Prop where
  /-- From every cursor the records up to the head leave a reader with what they did before. -/
  cursors : ∀ p ∈ s.cursors, readAll (s.below p) (recordsIn s'.run.store.disk st p (s'.run.next st)) =
    readAll (s.below p) (recordsIn s.run.store.disk st p (s.run.next st))
  /-- And from the start of the stream, below which there is nothing. -/
  start : readAll (fun _ ↦ none) (recordsIn s'.run.store.disk st 0 (s'.run.next st)) =
    readAll (fun _ ↦ none) (recordsIn s.run.store.disk st 0 (s.run.next st))
  /-- The latest record of every live topic is still there. -/
  live : ∀ t o e, readAll (fun _ ↦ none) (recordsIn s.run.store.disk st 0 (s.run.next st)) t = some (o, e) →
    recordAt s'.run.store.disk st o = some e

/-- **The condition**: once `Compact` has looked, no cursor comes to stand below the floor. -/
def Undisturbed (s : Watched) : Event → Prop
  | .cursors ps => ∀ l ∈ s.locked, ∀ p ∈ ps, l.2 ≤ p
  | _ => True

instance (s : Watched) : ∀ e, Decidable (Undisturbed s e)
  | .cursors ps => inferInstanceAs (Decidable (∀ l ∈ s.locked, ∀ p ∈ ps, l.2 ≤ p))
  | .store _ | .look _ | .commit => isTrue trivial

end Watched

/-! ### What a compaction leaves -/

variable {env : WriteEnv} {s s' : State} {st : Stream} {i floor : ℕ}

/-- What the commit of a compaction leaves: everything, or what its rule does not drop of the records up
to some offset. -/
structure Thinned (st : Stream) (floor bound : ℕ) (s s' : State) : Prop where
  next : s'.next st = s.next st
  iff : ∀ o e, recordAt s'.store.disk st o = some e ↔ recordAt s.store.disk st o = some e ∧
    ¬ (o < bound ∧ KeyedLog.drops RecEnc.topic isRetraction (recordsIn s.store.disk st 0 bound) floor (o, e))

theorem commitCompact_thinned (hi : Inv s) (hst : (s.scans i).map Scan.stream = some st)
    (hs : step env s (.commitCompact i floor) = some s') : ∃ bound, Thinned st floor bound s s' := by
  have hi' := (hi.does hs).inv hi
  simp only [step] at hs
  split at hs
  · rename_i st' next lwm holes recs hscan
    rw [hscan] at hst
    obtain rfl : st' = st := Option.some.inj hst
    cases hs
    cases hx : compactScanned env s st' lwm holes floor recs with
    | none => exact ⟨0, rfl, fun o e ↦ by simp [State.removeOr, State.drop]⟩
    | some x =>
      rw [hx] at hi'
      obtain ⟨rfl, hholes, rfl⟩ := compactScanned_eq hx
      obtain ⟨-, -, hnext, hread⟩ := hi.scans i _ hscan
      obtain rfl := hread recs rfl rfl hholes
      have hstart : recordsIn s.store.disk st' (s.lwm st') next = recordsIn s.store.disk st' 0 next := by
        refine (recordsIn_increasing ..).eq_of_mem_iff (recordsIn_increasing ..) fun x ↦ ?_
        rw [mem_recordsIn, mem_recordsIn]
        exact ⟨fun hx ↦ ⟨Nat.zero_le _, hx.2⟩, fun hx ↦ ⟨hi.layout.records.lwm_le _ _ _ hx.2.2, hx.2⟩⟩
      refine ⟨next, rfl, fun o e ↦ ?_⟩
      rcases lt_or_ge o (s.next st') with ho | ho
      · show recordAt (s.remove env _ []).store.disk st' o = _ ↔ _
        rw [remove_recordAt ho, recordAt_removeKeys, Option.ite_none_left_eq_some, and_comm, hstart]
        refine and_congr_right fun he ↦ not_congr ?_
        simp only [true_and, mem_goneOf_record, mem_filter, mem_recordsIn, he, Option.some.injEq]
        constructor
        · rintro ⟨e', ⟨-, h, rfl⟩, hd⟩
          exact ⟨h, hd⟩
        · rintro ⟨h, hd⟩
          exact ⟨e, ⟨Nat.zero_le _, h, rfl⟩, hd⟩
      · exact ⟨fun he ↦ absurd (hi'.layout.records.lt_next _ _ _ he) ho.not_gt,
          fun he ↦ absurd (hi.layout.records.lt_next _ _ _ he.1) ho.not_gt⟩
  · cases hs

variable {bound : ℕ}

/-- The last record of a topic goes only as a retraction below the floor, and all of the topic with it. -/
theorem Thinned.gone {p : ℕ} {x : ℕ × RecEnc} (h : Thinned st floor bound s s') (hi : Inv s)
    (hx : x ∈ recordsIn s.store.disk st p (s.next st))
    (hlast : ∀ y ∈ recordsIn s.store.disk st p (s.next st), y.2.topic = x.2.topic → y.1 ≤ x.1)
    (hgone : x ∉ recordsIn s'.store.disk st p (s'.next st)) : isRetraction x.2 = true ∧ x.1 < floor ∧
      ∀ y ∈ recordsIn s'.store.disk st p (s'.next st), y.2.topic ≠ x.2.topic := by
  obtain ⟨hp, hlt, he⟩ := mem_recordsIn.mp hx
  have hinc := recordsIn_increasing s.store.disk st 0 bound
  obtain ⟨hbound, hdrop⟩ : x.1 < bound ∧ drops RecEnc.topic isRetraction
      (recordsIn s.store.disk st 0 bound) floor x := by
    by_contra hno
    exact hgone (mem_recordsIn.mpr ⟨hp, h.next ▸ hlt, (h.iff x.1 x.2).mpr ⟨he, hno⟩⟩)
  have hlate : x.1 ≤ latest RecEnc.topic (recordsIn s.store.disk st 0 bound) x.2.topic :=
    le_latest hinc (mem_recordsIn.mpr ⟨Nat.zero_le _, hbound, he⟩)
  have hdead : isRetraction x.2 = true ∧ x.1 < floor := by
    simp only [drops, Bool.or_eq_true, decide_eq_true_eq, Bool.and_eq_true] at hdrop
    refine hdrop.resolve_left fun hsup ↦ ?_
    obtain ⟨z, hz, hzt, hzl⟩ := exists_latest (Nat.zero_lt_of_lt hsup)
    have hez := (mem_recordsIn.mp hz).2.2
    have := hlast z (mem_recordsIn.mpr ⟨by omega, hi.layout.records.lt_next _ _ _ hez, hez⟩) hzt
    omega
  refine ⟨hdead.1, hdead.2, fun y hy hyt ↦ ?_⟩
  obtain ⟨hyp, hyn, hey⟩ := mem_recordsIn.mp hy
  obtain ⟨hey', hkept⟩ := (h.iff _ _).mp hey
  have hle := hlast y (mem_recordsIn.mpr ⟨hyp, h.next ▸ hyn, hey'⟩) hyt
  have hne : y.1 ≠ x.1 := fun heq ↦ by
    have hyx : y = x := Prod.ext heq (Option.some.inj (hey'.symm.trans (heq ▸ he)))
    exact hgone (hyx ▸ hy)
  have hsup : y.1 < latest RecEnc.topic (recordsIn s.store.disk st 0 bound) y.2.topic := by
    rw [hyt]
    omega
  exact hkept ⟨by omega, by simp [drops, hsup]⟩

/-- A reader at or above the floor ends where it did whatever it holds, and so does one that starts. -/
theorem Thinned.readAll_eq {m : Held} {p : ℕ} (h : Thinned st floor bound s s') (hi : Inv s)
    (hp : floor ≤ p ∨ ∀ t, m t = none) : readAll m (recordsIn s'.store.disk st p (s'.next st)) =
      readAll m (recordsIn s.store.disk st p (s.next st)) := by
  have hsub : ∀ y ∈ recordsIn s'.store.disk st p (s'.next st),
      y ∈ recordsIn s.store.disk st p (s.next st) := fun y hy ↦ by
    obtain ⟨hlo, hhi, he⟩ := mem_recordsIn.mp hy
    exact mem_recordsIn.mpr ⟨hlo, h.next ▸ hhi, ((h.iff _ _).mp he).1⟩
  funext t
  rcases exists_last (recordsIn_increasing s.store.disk st p (s.next st)) t with hnone | ⟨x, hx, rfl, hlast⟩
  · rw [readAll_of_none hnone, readAll_of_none fun y hy ↦ hnone y (hsub y hy)]
  · rw [readAll_of_last (recordsIn_increasing ..) hx rfl hlast]
    by_cases hx' : x ∈ recordsIn s'.store.disk st p (s'.next st)
    · exact readAll_of_last (recordsIn_increasing ..) hx' rfl fun y hy ↦ hlast y (hsub y hy)
    · obtain ⟨hret, hlt, hnone⟩ := h.gone hi hx hlast hx'
      rw [readAll_of_none hnone, if_pos hret]
      have hxp := (mem_recordsIn.mp hx).1
      exact hp.elim (fun hle ↦ absurd hlt (hle.trans hxp).not_gt) fun hm ↦ hm _

theorem Thinned.live {t : Topic} {o : ℕ} {e : RecEnc} (h : Thinned st floor bound s s') (hi : Inv s)
    (ht : readAll (fun _ ↦ none) (recordsIn s.store.disk st 0 (s.next st)) t = some (o, e)) :
    recordAt s'.store.disk st o = some e := by
  rcases exists_last (recordsIn_increasing s.store.disk st 0 (s.next st)) t with hnone | ⟨x, hx, rfl, hlast⟩
  · rw [readAll_of_none hnone] at ht
    cases ht
  · rw [readAll_of_last (recordsIn_increasing ..) hx rfl hlast] at ht
    obtain ⟨hret, ht⟩ := Option.ite_none_left_eq_some.mp ht
    cases ht
    by_contra hgone
    exact hret (h.gone hi hx hlast fun hm ↦ hgone (mem_recordsIn.mp hm).2.2).1

namespace Watched

variable {s s' : Watched} {f : Found} {past : ℕ → Option RecEnc}

/-- The compaction that holds the lock is one of the stream, and its floor is below the cursors. -/
structure Inv (st : Stream) (s : Watched) : Prop where
  run : StoreRun.Inv s.run
  locked : ∀ l, s.locked = some l → (s.run.scans l.1).map Scan.stream = some st ∧ ∀ p ∈ s.cursors, l.2 ≤ p

theorem Inv.step {e : Event} (h : Inv st s) (hC : Undisturbed s e) (hs : step env st s e = some s') :
    Inv st s' := by
  cases e with
  | store e =>
    obtain ⟨hfree, hs⟩ := Option.ite_none_left_eq_some.mp hs
    obtain ⟨run, hrun, rfl⟩ := Option.map_eq_some_iff.mp hs
    exact ⟨(h.run.does hrun).inv h.run, fun l hl ↦ absurd (Option.isSome_of_eq_some hl) hfree⟩
  | cursors ps =>
    cases hs
    exact ⟨h.run, fun l hl ↦ ⟨(h.locked l hl).1, hC l hl⟩⟩
  | look i =>
    obtain ⟨hi, hs⟩ := Option.ite_none_right_eq_some.mp hs
    cases hs
    refine ⟨h.run, fun l hl ↦ ?_⟩
    cases hl
    exact ⟨hi.2, fun p hp ↦ cursorFloor_le (mem_cons_of_mem _ hp)⟩
  | commit =>
    obtain ⟨l, -, hs⟩ := Option.bind_eq_some_iff.mp hs
    obtain ⟨run, hrun, rfl⟩ := Option.map_eq_some_iff.mp hs
    exact ⟨(h.run.does hrun).inv h.run, nofun⟩

/-- **Compaction preserves what every reader ends up with.** In every run in which no cursor comes to stand
below the floor between `Compact`'s look at the cursors and its commit, the commit leaves every reader with
what it had, and the latest record of every live topic. -/
theorem compact_readers (env : WriteEnv) (st : Stream) (f : Found) (past : ℕ → Option RecEnc) (s s' : Watched)
    (h : (system env st f past).Reach Undisturbed s) (hs : step env st s .commit = some s') :
    ReadersKeep st s s' := by
  have hinv : Inv st s := h.invariant (I := Inv st)
    ⟨inv_start f, fun _ hl ↦ by cases hl⟩ fun _ _ _ hi hC hs ↦ hi.step hC hs
  obtain ⟨l, hl, hs⟩ := Option.bind_eq_some_iff.mp hs
  obtain ⟨run, hrun, rfl⟩ := Option.map_eq_some_iff.mp hs
  obtain ⟨hst, hfloor⟩ := hinv.locked l hl
  obtain ⟨bound, hthin⟩ := commitCompact_thinned hinv.run hst hrun
  exact ⟨fun p hp ↦ hthin.readAll_eq hinv.run (.inl (hfloor p hp)),
    hthin.readAll_eq hinv.run (.inr fun _ ↦ rfl), fun _ _ _ ↦ hthin.live hinv.run⟩

/-- A sample and its retraction are written, read by a compaction, and `Compact` looks at the cursors. -/
def retracted (before after : List ℕ) : List Event :=
  [.store (.write (.append [⟨.metrics, [sampleMetric 1, { sampleMetric 2 with payload := [] }]⟩]) true),
    .cursors before, .store (.begin_ 0 .compact .metrics), .store (.readCompact 0), .look 0, .cursors after]

/-- With a cursor at the retraction only the sample goes. -/
theorem compact_readers_seen : ∃ s s', (system sampleEnv .metrics .empty fun _ ↦ none).Reach Undisturbed s ∧
    step sampleEnv .metrics s .commit = some s' ∧
    (recordsIn s'.run.store.disk .metrics 0 9).map Prod.fst = [2] ∧ ReadersKeep .metrics s s' := by
  obtain ⟨s, hreach, hs⟩ := (system sampleEnv .metrics .empty fun _ ↦ none).exists_reach Undisturbed
    (retracted [2] [2]) (fun s ↦ (step sampleEnv .metrics s .commit).any fun s' ↦
      decide ((recordsIn s'.run.store.disk .metrics 0 9).map Prod.fst = [2]))
  obtain ⟨s', hs', hleft⟩ := (Option.any_eq_true _ _).mp hs
  exact ⟨s, s', hreach, hs', of_decide_eq_true hleft, compact_readers _ _ _ _ s s' hreach hs'⟩

/-- **A reader that saves its first position after the look keeps what was retracted.** -/
theorem cursor_meanwhile : ¬ ∀ s s', (system sampleEnv .metrics .empty fun _ ↦ none).Reachable s →
    step sampleEnv .metrics s .commit = some s' → ReadersKeep .metrics s s' := by
  intro hall
  obtain ⟨s, hreach, hs⟩ := (system sampleEnv .metrics .empty fun _ ↦ none).exists_reachable
    (retracted [] [2]) (fun s ↦ (step sampleEnv .metrics s .commit).any fun s' ↦
      decide (2 ∈ s.cursors ∧ readAll (s.below 2) (recordsIn s'.run.store.disk .metrics 2 (s'.run.next .metrics))
        (sampleMetric 1).topic ≠ readAll (s.below 2)
          (recordsIn s.run.store.disk .metrics 2 (s.run.next .metrics)) (sampleMetric 1).topic))
  obtain ⟨s', hs', hd⟩ := (Option.any_eq_true _ _).mp hs
  obtain ⟨hmem, hne⟩ := of_decide_eq_true hd
  exact hne (congrFun ((hall s s' hreach hs').cursors 2 hmem) _)

end Watched

end Colca.StoreRun
