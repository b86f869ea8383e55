import Colca.Engine.DeliverOnce

/-!
# The order in which concurrent ingests are delivered

A command is stored and delivered in two steps, so commands stored one after the other may be delivered
in another order. A command that finds an older one undelivered is held for the replay, and a replay
comes with a subscribe: while the machine stays subscribed nobody delivers it. So a machine that
listens all the time receives all of a set of stored commands **exactly when** they are delivered in
the order of the stream, with nothing else owed in between (`allDelivered_iff_inOrder`).
-/

namespace Colca.Delivery

open List CommandStream

/-- One run of `deliverCommand`: the command, and the clock. -/
structure Run where
  x : ℕ × RecEnc
  now : ℤ

namespace State

variable (cfg : Config) (s : State)

/-- How often a command was published. -/
def times (o : ℕ) : ℕ := s.published.countP (·.off = o)

/-- One run, that nothing interrupts. -/
def deliver (r : Run) : State := State.deliverCommand cfg { s with now := r.now } false r.x

/-- The runs, one after the other. -/
def deliverAll (runs : List Run) : State := runs.foldl (State.deliver cfg) s

end State

/-- A machine that listens to commands that were stored above its cursor, each of which is delivered by
one of the runs. -/
structure Awaiting (cfg : Config) (s : State) (runs : List Run) : Prop where
  nodup : (runs.map (·.x.1)).Nodup
  stored : ∀ r ∈ runs, r.x ∈ s.stream.entries
  addressed : ∀ r ∈ runs, cfg.addressed r.x.2
  live : ∀ r ∈ runs, ∀ r' ∈ runs, cfg.live r'.now r.x
  floor_le : ∀ r ∈ runs, s.floor ≤ r.x.1
  subscribed : ∀ r ∈ runs, s.hasSubscriber cfg r.x.2.topic

/-- After the runs every command was published exactly once, and the cursor is past all of them. -/
structure AllDelivered (cfg : Config) (s : State) (runs : List Run) : Prop where
  once : ∀ r ∈ runs, (s.deliverAll cfg runs).times r.x.1 = s.times r.x.1 + 1
  past : ∀ r ∈ runs, r.x.1 < (s.deliverAll cfg runs).floor

/-- From `lo` up to `off` no command of the machine is live, and a check can see that. -/
structure Clear (cfg : Config) (stream : CommandStream) (now : ℤ) (lo off : ℕ) : Prop where
  idle : ∀ y ∈ stream.entries, cfg.addressed y.2 → cfg.live now y → lo ≤ y.1 → off ≤ y.1
  budget : (stream.visited cfg.covered cfg.machine (max (max lo cfg.inForceFrom) stream.lwm)
    off).length ≤ owedScanBudget
  /-- A check that does not reach the index ends at a record, not at a hole. -/
  last : off ≤ cfg.covered → max (max lo cfg.inForceFrom) stream.lwm < off →
    ∃ e, (off - 1, e) ∈ stream.entries

/-- The runs come in the order of the stream, and between the commands of two of them, or below the
first, nothing else is owed. -/
def InOrder (cfg : Config) (stream : CommandStream) : ℕ → List Run → Prop
  | _, [] => True
  | lo, r :: runs =>
    lo ≤ r.x.1 ∧ Clear cfg stream r.now lo r.x.1 ∧ InOrder cfg stream (r.x.1 + 1) runs

section

variable {cfg : Config} {s : State} {x : ℕ × RecEnc} {r : Run} {runs : List Run} {o : ℕ}

/-! ### One run -/

/-- The check below a command, exactly. -/
theorem State.owedBelow_eq_false_iff (hx : x.1 ≤ s.stream.next) (hfloor : s.floor ≤ x.1) :
    s.owedBelow cfg false x.1 = false ↔ Clear cfg s.stream s.now s.floor x.1 := by
  unfold owedBelow
  split
  · rename_i hle
    refine iff_of_true rfl ⟨fun y _ _ _ hge ↦ hle.trans hge, ?_, fun _ hlt ↦ absurd hlt (by omega)⟩
    have hnil : s.stream.visited cfg.covered cfg.machine
        (max (max s.floor cfg.inForceFrom) s.stream.lwm) x.1 = [] := by
      refine eq_nil_iff_forall_not_mem.mpr fun y hy ↦ ?_
      obtain ⟨-, h1, h2⟩ := mem_of_mem_visited hy
      omega
    rw [hnil]
    exact Nat.zero_le _
  · have hbudget : 0 < owedScanBudget := by decide
    rw [if_neg Bool.false_ne_true]
    dsimp only
    -- the answer is no when the read found nothing and got as far as the command
    have hanswer : ∀ {out : List (ℕ × RecEnc)} {next : ℕ},
        (if out = [] ∧ next < x.1 then true else decide (out ≠ [])) = false ↔
          out = [] ∧ x.1 ≤ next := by
      intro out next
      by_cases hout : out = [] <;> simp [hout]
    rw [hanswer, readTarget_eq_nil_iff hx hbudget]
    constructor
    · rintro ⟨hnone, hlen, hlast⟩
      refine ⟨fun y hy hadd hlive hge ↦ ?_, hlen, hlast⟩
      by_contra hlt
      simp only [Config.live, Bool.and_eq_true, decide_eq_true_eq] at hlive
      have hlwm := (s.stream.bounds y hy).1
      have ht := Config.recordTarget_of_addressed hadd
      have hmem : y ∈ s.stream.visited cfg.covered cfg.machine
          (max (max s.floor cfg.inForceFrom) s.stream.lwm) x.1 :=
        mem_visited hy (by omega) (by omega) ht
      have := hnone y hmem ht
      rw [Config.owedCommand_iff.mpr ⟨hadd, hlive.2⟩] at this
      cases this
    · rintro ⟨hidle, hlen, hlast⟩
      refine ⟨fun y hy _ ↦ ?_, hlen, hlast⟩
      obtain ⟨hent, h1, h2⟩ := mem_of_mem_visited hy
      by_contra howed
      rw [Bool.not_eq_false] at howed
      obtain ⟨hadd, hstill⟩ := Config.owedCommand_iff.mp howed
      have hlive : cfg.live s.now y := by
        simp only [Config.live, Bool.and_eq_true, decide_eq_true_eq]
        exact ⟨by omega, hstill⟩
      have := hidle y hent hadd hlive (by omega)
      omega

/-- A run goes ahead, exactly. -/
theorem State.mayPublish_iff (hx : x ∈ s.stream.entries) (now : ℤ) :
    State.mayPublish cfg { s with now := now } false x = true ↔
      s.floor ≤ x.1 ∧ Clear cfg s.stream now s.floor x.1 := by
  have hlt := (s.stream.bounds x hx).2
  simp only [mayPublish, Bool.and_eq_true, decide_eq_true_eq, Bool.not_eq_true', ge_iff_le]
  exact and_congr_right fun hle ↦ owedBelow_eq_false_iff (s := { s with now := now }) hlt.le hle

/-- What a run does: it publishes its command and moves the cursor past it, or nothing. -/
structure State.Publishes (s : State) (r : Run) (s' : State) : Prop where
  stream : s'.stream = s.stream
  subs : s'.subs = s.subs
  floor : s'.floor = r.x.1 + 1
  times : ∀ o, s'.times o = s.times o + if o = r.x.1 then 1 else 0

theorem State.deliver_publishes (hsub : s.hasSubscriber cfg r.x.2.topic)
    (h : State.mayPublish cfg { s with now := r.now } false r.x = true) :
    s.Publishes r (s.deliver cfg r) := by
  have hfloor : s.floor ≤ r.x.1 := (mayPublish_spec h).1
  have hsub' : State.hasSubscriber cfg { s with now := r.now } r.x.2.topic = true := hsub
  have heq : s.deliver cfg r =
      (State.publish cfg { s with now := r.now } r.x).ack (r.x.1 + 1) := by
    simp only [deliver, deliverCommand, h, if_true, settle, hsub', Bool.true_or]
  rw [heq]
  refine ⟨rfl, rfl, ?_, fun o ↦ ?_⟩
  · rw [floor_ack]
    exact max_eq_right (Nat.le_succ_of_le hfloor)
  · show (s.published ++ [_]).countP _ = _
    rw [countP_append, countP_singleton, times]
    simp [eq_comm]

theorem State.deliver_of_held (h : State.mayPublish cfg { s with now := r.now } false r.x = false) :
    s.deliver cfg r = { s with now := r.now } := by
  simp [deliver, deliverCommand, h]

/-! ### All runs -/

theorem State.deliverAll_cons : s.deliverAll cfg (r :: runs) = (s.deliver cfg r).deliverAll cfg runs :=
  rfl

/-- What a run leaves alone. -/
theorem State.deliver_frame (hsub : s.hasSubscriber cfg r.x.2.topic) :
    (s.deliver cfg r).stream = s.stream ∧ (s.deliver cfg r).subs = s.subs ∧
      s.floor ≤ (s.deliver cfg r).floor ∧
      ∀ o, o ≠ r.x.1 → (s.deliver cfg r).times o = s.times o := by
  cases h : State.mayPublish cfg { s with now := r.now } false r.x with
  | false =>
    rw [deliver_of_held h]
    exact ⟨rfl, rfl, le_rfl, fun _ _ ↦ rfl⟩
  | true =>
    obtain ⟨hstream, hsubs, hfloor, htimes⟩ := deliver_publishes hsub h
    have hle : s.floor ≤ r.x.1 := (mayPublish_spec h).1
    exact ⟨hstream, hsubs, by omega, fun o ho ↦ by rw [htimes, if_neg ho, Nat.add_zero]⟩

theorem State.hasSubscriber_of_subs {s s' : State} (h : s'.subs = s.subs) (t : Uns.Topic) :
    s'.hasSubscriber cfg t = s.hasSubscriber cfg t := by
  rw [hasSubscriber, hasSubscriber, h]

/-- A command none of the runs is about is not published, and the cursor never moves back. -/
theorem State.deliverAll_frame (hsub : ∀ r ∈ runs, s.hasSubscriber cfg r.x.2.topic) :
    s.floor ≤ (s.deliverAll cfg runs).floor ∧
      (o ∉ runs.map (·.x.1) → (s.deliverAll cfg runs).times o = s.times o) := by
  induction runs generalizing s with
  | nil => exact ⟨le_rfl, fun _ ↦ rfl⟩
  | cons r runs ih =>
    obtain ⟨-, hsubs, hfloor, htimes⟩ := s.deliver_frame (hsub r mem_cons_self)
    obtain ⟨h1, h2⟩ := ih (s := s.deliver cfg r) fun q hq ↦ by
      rw [hasSubscriber_of_subs hsubs]
      exact hsub q (mem_cons_of_mem _ hq)
    rw [deliverAll_cons]
    refine ⟨hfloor.trans h1, fun ho ↦ ?_⟩
    simp only [map_cons, mem_cons, not_or] at ho
    rw [h2 ho.2, htimes o ho.1]

/-- After a run that published, the rest of the runs is as before it. -/
theorem allDelivered_cons_iff (hsub : ∀ q ∈ r :: runs, s.hasSubscriber cfg q.x.2.topic)
    (hnodup : ((r :: runs).map (·.x.1)).Nodup) :
    AllDelivered cfg s (r :: runs) ↔
      State.mayPublish cfg { s with now := r.now } false r.x = true ∧
        AllDelivered cfg (s.deliver cfg r) runs := by
  obtain ⟨-, hsubs, -, htimes⟩ := s.deliver_frame (hsub r mem_cons_self)
  have hrest : ∀ q ∈ runs, (s.deliver cfg r).hasSubscriber cfg q.x.2.topic := fun q hq ↦ by
    rw [State.hasSubscriber_of_subs hsubs]
    exact hsub q (mem_cons_of_mem _ hq)
  obtain ⟨hnot, -⟩ := nodup_cons.mp hnodup
  obtain ⟨hfloor, hsame⟩ := State.deliverAll_frame (o := r.x.1) hrest
  have hother : ∀ q ∈ runs, (s.deliver cfg r).times q.x.1 = s.times q.x.1 := fun q hq ↦
    htimes _ fun heq ↦ hnot (mem_map.mpr ⟨q, hq, heq⟩)
  constructor
  · rintro ⟨honce, hpast⟩
    refine ⟨?_, fun q hq ↦ ?_, fun q hq ↦ hpast q (mem_cons_of_mem _ hq)⟩
    · by_contra hheld
      rw [Bool.not_eq_true] at hheld
      have := honce r mem_cons_self
      rw [State.deliverAll_cons, hsame hnot, State.deliver_of_held hheld] at this
      exact absurd this (Nat.lt_succ_self _).ne
    · rw [hother q hq]
      exact honce q (mem_cons_of_mem _ hq)
  · rintro ⟨hgo, honce, hpast⟩
    have hpub := State.deliver_publishes (hsub r mem_cons_self) hgo
    refine ⟨fun q hq ↦ ?_, fun q hq ↦ ?_⟩
    · rw [State.deliverAll_cons]
      rcases mem_cons.mp hq with rfl | hq
      · rw [hsame hnot, hpub.times, if_pos rfl]
      · rw [honce q hq, hother q hq]
    · rw [State.deliverAll_cons]
      rcases mem_cons.mp hq with rfl | hq
      · rw [hpub.floor] at hfloor
        exact hfloor
      · exact hpast q hq

/-- **A machine that listens receives every command exactly when they are delivered in order.** -/
theorem allDelivered_iff_inOrder (h : Awaiting cfg s runs) :
    AllDelivered cfg s runs ↔ InOrder cfg s.stream s.floor runs := by
  obtain ⟨hnodup, hstored, -, -, -, hsub⟩ := h
  induction runs generalizing s with
  | nil => exact iff_of_true ⟨by simp, by simp⟩ trivial
  | cons r runs ih =>
    rw [allDelivered_cons_iff hsub hnodup, State.mayPublish_iff (hstored r mem_cons_self),
      InOrder, and_assoc]
    refine and_congr_right fun hfloor ↦ and_congr_right fun hclear ↦ ?_
    have hgo := (State.mayPublish_iff (hstored r mem_cons_self) r.now).mpr ⟨hfloor, hclear⟩
    obtain ⟨hstream, hsubs, hnext, -⟩ := State.deliver_publishes (hsub r mem_cons_self) hgo
    rw [ih (nodup_cons.mp hnodup).2, hstream, hnext]
    · intro q hq
      rw [hstream]
      exact hstored q (mem_cons_of_mem _ hq)
    · intro q hq
      rw [State.hasSubscriber_of_subs hsubs]
      exact hsub q (mem_cons_of_mem _ hq)

end

/-! ### Two commands -/

/-- A machine that listens, with two commands stored for it. -/
def twoStored : State where
  stream := (CommandStream.empty.append setTemp).append setTemp
  subs := [setTemp.topic]

/-- The run for the command at an offset. -/
def runAt (o : ℕ) : Run := ⟨(o, setTemp), 0⟩

theorem awaiting_twoStored {runs : List Run} (h : runs = [runAt 1, runAt 2] ∨ runs = [runAt 2, runAt 1]) :
    Awaiting press twoStored runs := by
  rcases h with rfl | rfl <;>
    exact ⟨by decide +kernel, by decide +kernel, by decide +kernel, by decide +kernel,
      by decide +kernel, by decide +kernel⟩

/-- In the order of the stream both are delivered. -/
theorem in_turn_delivered :
    Awaiting press twoStored [runAt 1, runAt 2] ∧ AllDelivered press twoStored [runAt 1, runAt 2] := by
  have h := awaiting_twoStored (.inl rfl)
  refine ⟨h, (allDelivered_iff_inOrder h).mpr ⟨by decide,
    ⟨?_, by decide +kernel, fun _ hlt ↦ absurd hlt (by decide +kernel)⟩, by decide,
    ⟨?_, by decide +kernel, fun hle ↦ absurd hle (by decide)⟩, trivial⟩⟩ <;> decide +kernel

/-- The other way round the second is held behind the first, and stays so: it was not published, and
the cursor is below it. -/
theorem swapped_not_delivered :
    ¬ ∀ (cfg : Config) (s : State) (runs : List Run), Awaiting cfg s runs → AllDelivered cfg s runs := by
  intro h
  have hd := (h _ _ _ (awaiting_twoStored (.inr rfl))).past (runAt 2) mem_cons_self
  have hfloor : (twoStored.deliverAll press [runAt 2, runAt 1]).floor = 2 := by decide +kernel
  rw [hfloor] at hd
  exact absurd hd (by decide)

end Colca.Delivery
