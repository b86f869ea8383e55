import Colca.Engine.Delivery

/-!
# Commands reach a machine once, in order

The rule of redelivery: the cursor advances only past commands that reached a live subscription of the
machine, and everything above it is replayed. `Delivered` is what follows for a machine that never
sees a command twice and never loses one.

The publish and the question whether it reached anyone are two steps, so the rule holds in the runs in
which the answer does not change in between (`Steady`): between a live publish and the question after
it, and between a replay's question and the publish after it. `subscription_change_breaks_delivery`
has runs that break it.

## The cut

Everything the lock holder does is a matter of one offset. `Cut s p` says that the machine received
nothing from `p` on and everything live below it. A step of the holder moves the cut forward over
offsets at which nothing is live (`Cut.advance`) or over one command it published (`Cut.publish`), and
lets go of the lock with the cut at the cursor.
-/

namespace Colca.Delivery

open List State

namespace State

variable (cfg : Config) (s : State)

/-- The commands published while the machine had a live matching subscription, in order. -/
def reached : List ℕ := (s.published.filter (·.reached)).map (·.off)

/-- The commands that were live when they were published, in order. -/
def publishedLive : List ℕ := (s.published.filter (·.live)).map (·.off)

/-- A stored command for the machine that is live. -/
structure Due (x : ℕ × RecEnc) : Prop where
  mem : x ∈ s.stream.entries
  addressed : cfg.addressed x.2
  live : cfg.live s.now x

/-- The command the lock holder has in hand between a publish and the question that goes with it. -/
def inHand : Option (ℕ × RecEnc) :=
  match s.holder with
  | .published x => some x
  | .resending _ x _ _ => some x
  | _ => none

end State

/-- No subscribe or unsubscribe of the machine changes whether it listens to the command in hand. -/
def Steady (cfg : Config) (s : State) : Event → Prop
  | .subscribe filter => ∀ x ∈ s.inHand,
    State.hasSubscriber cfg { s with subs := filter :: s.subs } x.2.topic =
      s.hasSubscriber cfg x.2.topic
  | .unsubscribe filter => ∀ x ∈ s.inHand,
    State.hasSubscriber cfg { s with subs := s.subs.erase filter } x.2.topic =
      s.hasSubscriber cfg x.2.topic
  | _ => True

/-- Nothing is lost and nothing is repeated. -/
structure Delivered (cfg : Config) (s : State) : Prop where
  /-- The cursor has passed no live command that did not reach the machine. -/
  passed : ∀ x, s.Due cfg x → x.1 < s.floor → x.1 ∈ s.reached
  /-- What reached the machine did so once, in the order of the stream. -/
  once : s.reached.Pairwise (· < ·)
  /-- What was published while it was live was published in the order of the stream. -/
  ordered : s.publishedLive.Pairwise (· ≤ ·)

/-! ### The cut -/

/-- The machine received nothing from `p` on, and everything live below. -/
structure Cut (cfg : Config) (s : State) (p : ℕ) : Prop where
  le_next : p ≤ max s.stream.next cfg.inForceFrom
  lt_next : ∀ o ∈ s.publishedLive, o < s.stream.next
  reached_lt : ∀ o ∈ s.reached, o < p
  passed : ∀ x, s.Due cfg x → x.1 < p → x.1 ∈ s.reached
  ordered : ∀ o ∈ s.publishedLive, ∀ x, s.Due cfg x → x.1 < o → x.1 < p

section Cut

variable {cfg : Config} {s s' : State} {p q : ℕ} {x y : ℕ × RecEnc}

theorem State.Due.le_inForce (h : s.Due cfg x) : cfg.inForceFrom ≤ x.1 := by
  have := h.live
  simp only [Config.live, Bool.and_eq_true, decide_eq_true_eq] at this
  exact this.1

/-- **The cut moves forward** over offsets at which nothing is live. -/
theorem Cut.advance (h : Cut cfg s p) (hpq : p ≤ q) (hq : q ≤ max s.stream.next cfg.inForceFrom)
    (hidle : ∀ x, s.Due cfg x → x.1 < q → x.1 < p) : Cut cfg s q where
  le_next := hq
  lt_next := h.lt_next
  reached_lt o ho := (h.reached_lt o ho).trans_le hpq
  passed x hx hlt := h.passed x hx (hidle x hx hlt)
  ordered o ho x hx hlt := (h.ordered o ho x hx hlt).trans_le hpq

/-- A step that publishes nothing and makes no stored command live. -/
structure Calm (cfg : Config) (s s' : State) : Prop where
  published : s'.published = s.published
  next_le : s.stream.next ≤ s'.stream.next
  mem : ∀ x ∈ s.stream.entries, x ∈ s'.stream.entries
  due : ∀ x, s'.Due cfg x → s.Due cfg x ∨ s.stream.next ≤ x.1

theorem Cut.calm (h : Cut cfg s p) (hc : Calm cfg s s') : Cut cfg s' p := by
  have hreached : s'.reached = s.reached := by rw [State.reached, State.reached, hc.published]
  have hlive : s'.publishedLive = s.publishedLive := by
    rw [State.publishedLive, State.publishedLive, hc.published]
  -- a command stored since is past the cut
  have hdue : ∀ x, s'.Due cfg x → x.1 < p → s.Due cfg x := fun x hx hlt ↦
    (hc.due x hx).resolve_right fun hge ↦ by
      have := hx.le_inForce
      have := h.le_next
      omega
  refine ⟨h.le_next.trans (max_le_max_right _ hc.next_le), fun o ho ↦ ?_, fun o ho ↦ ?_,
    fun x hx hlt ↦ ?_, fun o ho x hx hlt ↦ ?_⟩
  · exact (h.lt_next o (hlive ▸ ho)).trans_le hc.next_le
  · exact h.reached_lt o (hreached ▸ ho)
  · rw [hreached]
    exact h.passed x (hdue x hx hlt) hlt
  · rw [hlive] at ho
    have := h.lt_next o ho
    exact h.ordered o ho x ((hc.due x hx).resolve_right (by omega)) hlt

/-! ### A publish -/

theorem State.reached_publish : (s.publish cfg x).reached =
    s.reached ++ if s.hasSubscriber cfg x.2.topic then [x.1] else [] := by
  cases h : s.hasSubscriber cfg x.2.topic <;>
    simp [State.reached, publish, filter_append, h]

theorem State.publishedLive_publish : (s.publish cfg x).publishedLive =
    s.publishedLive ++ if cfg.live s.now x then [x.1] else [] := by
  cases h : cfg.live s.now x <;>
    simp [State.publishedLive, publish, filter_append, h]

theorem State.mem_publishedLive_publish {o : ℕ} (h : o ∈ (s.publish cfg x).publishedLive) :
    o ∈ s.publishedLive ∨ o = x.1 := by
  rw [publishedLive_publish] at h
  split at h
  · simpa using h
  · exact .inl (by simpa using h)

theorem State.due_publish (h : (s.publish cfg x).Due cfg y) : s.Due cfg y :=
  { h with }

/-- A publish that nobody heard leaves the cut where it is. -/
theorem Cut.publish_unheard (h : Cut cfg s p) (hsub : s.hasSubscriber cfg x.2.topic = false)
    (hx : x.1 < s.stream.next) (hidle : ∀ y, s.Due cfg y → y.1 < x.1 → y.1 < p) :
    Cut cfg (s.publish cfg x) p := by
  have hreached : (s.publish cfg x).reached = s.reached := by simp [reached_publish, hsub]
  refine ⟨h.le_next, fun o ho ↦ ?_, fun o ho ↦ ?_, fun y hy hlt ↦ ?_, fun o ho y hy hlt ↦ ?_⟩
  · rcases mem_publishedLive_publish ho with ho | rfl
    · exact h.lt_next o ho
    · exact hx
  · exact h.reached_lt o (hreached ▸ ho)
  · rw [hreached]
    exact h.passed y (due_publish hy) hlt
  · rcases mem_publishedLive_publish ho with ho | rfl
    · exact h.ordered o ho y (due_publish hy) hlt
    · exact hidle y (due_publish hy) hlt

/-- **A publish that was heard moves the cut past the command.** -/
theorem Cut.publish_heard (h : Cut cfg s x.1) (hsub : s.hasSubscriber cfg x.2.topic = true)
    (hx : x.1 < s.stream.next) : Cut cfg (s.publish cfg x) (x.1 + 1) := by
  have hreached : (s.publish cfg x).reached = s.reached ++ [x.1] := by
    simp [reached_publish, hsub]
  refine ⟨le_max_of_le_left hx, fun o ho ↦ ?_, fun o ho ↦ ?_, fun y hy hlt ↦ ?_,
    fun o ho y hy hlt ↦ ?_⟩
  · rcases mem_publishedLive_publish ho with ho | rfl
    · exact h.lt_next o ho
    · exact hx
  · rw [hreached] at ho
    rcases mem_append.mp ho with ho | ho
    · exact Nat.lt_succ_of_lt (h.reached_lt o ho)
    · rw [mem_singleton.mp ho]
      exact Nat.lt_succ_self _
  · rw [hreached]
    rcases Nat.lt_succ_iff_lt_or_eq.mp hlt with hlt | heq
    · exact mem_append_left _ (h.passed y (due_publish hy) hlt)
    · exact mem_append_right _ (mem_singleton.mpr heq)
  · rcases mem_publishedLive_publish ho with ho | rfl
    · exact Nat.lt_succ_of_lt (h.ordered o ho y (due_publish hy) hlt)
    · exact Nat.lt_succ_of_lt hlt

/-- What reaches the machine stays in order. -/
theorem Cut.once_publish (h : Cut cfg s x.1) (honce : s.reached.Pairwise (· < ·)) :
    (s.publish cfg x).reached.Pairwise (· < ·) := by
  rw [reached_publish]
  split
  · refine pairwise_append.mpr ⟨honce, pairwise_singleton _ _, fun o ho y hy ↦ ?_⟩
    rw [mem_singleton.mp hy]
    exact h.reached_lt o ho
  · rwa [append_nil]

/-- What is published live stays in order. -/
theorem Cut.ordered_publish (h : Cut cfg s p) (hp : p ≤ x.1) (hmem : x ∈ s.stream.entries)
    (hadd : cfg.addressed x.2) (hord : s.publishedLive.Pairwise (· ≤ ·)) :
    (s.publish cfg x).publishedLive.Pairwise (· ≤ ·) := by
  rw [State.publishedLive_publish]
  split
  · rename_i hlive
    refine pairwise_append.mpr ⟨hord, pairwise_singleton _ _, fun o ho y hy ↦ ?_⟩
    rw [mem_singleton.mp hy]
    by_contra hlt
    have := h.ordered o ho x ⟨hmem, hadd, hlive⟩ (by omega)
    omega
  · rwa [append_nil]

end Cut

/-! ### What the reads show -/

section Reads

variable {cfg : Config} {s : State} {x y : ℕ × RecEnc} {r : Replay}

/-- A live delivery goes ahead when nothing is live between the cursor and the command. -/
theorem State.mayPublish_spec {readFails : Bool} (h : s.mayPublish cfg readFails x = true) :
    s.floor ≤ x.1 ∧ ∀ y, s.Due cfg y → y.1 < x.1 → y.1 < s.floor := by
  simp only [mayPublish, Bool.and_eq_true, decide_eq_true_eq, Bool.not_eq_true', owedBelow] at h
  refine ⟨h.1, fun y hy hlt ↦ ?_⟩
  have howed := h.2
  split at howed
  · omega
  · split at howed
    · cases howed
    · obtain ⟨out, next, hread⟩ : ∃ out next, s.stream.readTarget cfg.covered cfg.machine
        (max s.floor cfg.inForceFrom) x.1 1 owedScanBudget
        (fun x ↦ cfg.owedCommand x.2 cfg.machine s.now) = (out, next) := ⟨_, _, rfl⟩
      have hspec := s.stream.readTarget_isRead cfg.covered cfg.machine
        (max s.floor cfg.inForceFrom) x.1 1 owedScanBudget
        (fun x ↦ cfg.owedCommand x.2 cfg.machine s.now)
      rw [hread] at howed hspec
      have hout : out = [] := by
        by_contra hne
        simp [hne] at howed
      have hnext : x.1 ≤ next := by
        by_contra hlt
        simp [hout, hlt] at howed
      by_contra hge
      have hlive := hy.live
      simp only [Config.live, Bool.and_eq_true, decide_eq_true_eq] at hlive
      have hlwm := (s.stream.bounds y hy.mem).1
      have hmem := (hspec.mem y).mpr ⟨hy.mem, ⟨by omega, by omega⟩,
        Config.recordTarget_of_addressed hy.addressed, Config.owedCommand_iff.mpr ⟨hy.addressed, hlive.2⟩⟩
      rw [hout] at hmem
      cases hmem

/-- Where a pass stands: at its next record, or at its end. -/
def front (recs : List (ℕ × RecEnc)) (next : ℕ) : ℕ := (recs.head?.map Prod.fst).getD next

theorem front_le_of_mem {recs : List (ℕ × RecEnc)} {next : ℕ} (hinc : recs.Pairwise (·.1 < ·.1))
    (hx : x ∈ recs) : front recs next ≤ x.1 := by
  cases recs with
  | nil => cases hx
  | cons z recs =>
    show z.1 ≤ x.1
    rcases mem_cons.mp hx with rfl | hx
    · exact le_rfl
    · exact ((pairwise_cons.mp hinc).1 x hx).le

theorem front_le {recs : List (ℕ × RecEnc)} {next : ℕ} (h : ∀ x ∈ recs, x.1 < next) :
    front recs next ≤ next := by
  cases recs with
  | nil => exact le_rfl
  | cons z recs => exact (h z mem_cons_self).le

/-- A pass under way: the cut is where it stands, and what is live before its end is in hand. -/
structure InPass (cfg : Config) (s : State) (recs : List (ℕ × RecEnc)) (next : ℕ) : Prop where
  le_next : next ≤ s.stream.next
  cut : Cut cfg s (front recs next)
  floor_le : s.floor ≤ front recs next
  increasing : recs.Pairwise (·.1 < ·.1)
  mem : ∀ x ∈ recs, x ∈ s.stream.entries ∧ cfg.addressed x.2 ∧ x.1 < next
  rest : ∀ x, s.Due cfg x → x.1 < next → x.1 < front recs next ∨ x ∈ recs

/-- What a pass reads. -/
theorem InPass.read (hcut : Cut cfg s r.start) (hfloor : s.floor ≤ r.start)
    (hlt : r.start < r.head) (hhead : r.head ≤ s.stream.next) (hnow : r.now ≤ s.now) :
    InPass cfg s (s.readPass cfg r).1 (s.readPass cfg r).2 := by
  have hspec := s.stream.readTarget_isRead cfg.covered cfg.machine r.start r.head replayBatch 0
    (fun x ↦ cfg.owedCommand x.2 cfg.machine r.now)
  change s.stream.IsRead cfg.machine _ _ _ (s.readPass cfg r) at hspec
  generalize s.readPass cfg r = page at hspec ⊢
  obtain ⟨recs, next⟩ := page
  obtain ⟨hmem, hinc, hle, hup⟩ := hspec
  dsimp only at hmem hinc hle hup ⊢
  have hlwm := s.stream.lwm_le_next
  have hrecs : ∀ x ∈ recs, x ∈ s.stream.entries ∧ cfg.addressed x.2 ∧ x.1 < next := by
    intro x hx
    obtain ⟨hent, ⟨-, hlt⟩, -, howed⟩ := (hmem x).mp hx
    exact ⟨hent, (Config.owedCommand_iff.mp howed).1, hlt⟩
  have hstart : r.start ≤ front recs next := by
    cases recs with
    | nil => exact (le_max_left _ _).trans hle
    | cons z recs => exact (le_max_left _ _).trans ((hmem z).mp mem_cons_self).2.1.1
  -- a command that is live now was owed when the replay began
  have hread : ∀ x, s.Due cfg x → r.start ≤ x.1 → x.1 < next → x ∈ recs := by
    intro x hx hge hlt
    have hlive := Config.live_mono hnow hx.live
    simp only [Config.live, Bool.and_eq_true] at hlive
    have hlow := (s.stream.bounds x hx.mem).1
    exact (hmem x).mpr ⟨hx.mem, ⟨by omega, hlt⟩, Config.recordTarget_of_addressed hx.addressed,
      Config.owedCommand_iff.mpr ⟨hx.addressed, hlive.2⟩⟩
  have hfront : front recs next ≤ next := front_le fun x hx ↦ (hrecs x hx).2.2
  have hidle : ∀ x, s.Due cfg x → x.1 < front recs next → x.1 < r.start := by
    intro x hx hlt
    by_contra hge
    have hin := hread x hx (by omega) (by omega)
    exact absurd (front_le_of_mem hinc hin) hlt.not_ge
  refine ⟨by omega, hcut.advance hstart (le_max_of_le_left (by omega)) hidle, by omega, hinc, hrecs,
    fun x hx hlt ↦ ?_⟩
  rcases lt_or_ge x.1 r.start with h | h
  · exact .inl (h.trans_le hstart)
  · exact .inr (hread x hx h hlt)

/-- A record of a pass that was published and heard. -/
theorem InPass.publish {recs : List (ℕ × RecEnc)} {next : ℕ} (h : InPass cfg s (x :: recs) next)
    (hsub : s.hasSubscriber cfg x.2.topic = true) : InPass cfg (s.publish cfg x) recs next := by
  obtain ⟨hmem, hadd, hlt⟩ := h.mem x mem_cons_self
  have hinc := h.increasing.of_cons
  have hheard := h.cut.publish_heard hsub (s.stream.bounds x hmem).2
  have hrecs : ∀ y ∈ recs, y ∈ s.stream.entries ∧ cfg.addressed y.2 ∧ y.1 < next := fun y hy ↦
    h.mem y (mem_cons_of_mem _ hy)
  have hstep : x.1 + 1 ≤ front recs next := by
    cases recs with
    | nil => exact hlt
    | cons z recs => exact (pairwise_cons.mp h.increasing).1 z mem_cons_self
  have hfront : front recs next ≤ next := front_le fun y hy ↦ (hrecs y hy).2.2
  have hrest : ∀ y, s.Due cfg y → y.1 < next → y.1 < x.1 + 1 ∨ y ∈ recs := by
    intro y hy hlt
    rcases h.rest y hy hlt with h | h
    · exact .inl (Nat.lt_succ_of_lt h)
    · rcases mem_cons.mp h with rfl | h
      · exact .inl (Nat.lt_succ_self _)
      · exact .inr h
  have hle := h.le_next
  have hfloor : s.floor ≤ x.1 := h.floor_le
  refine ⟨hle, hheard.advance hstep (le_max_of_le_left (hfront.trans hle)) ?_, ?_, hinc, hrecs, ?_⟩
  · intro y hy hlt
    refine (hrest y (due_publish hy) (hlt.trans_le hfront)).resolve_right fun hin ↦ ?_
    exact absurd (front_le_of_mem hinc hin) hlt.not_ge
  · show s.floor ≤ front recs next
    omega
  · intro y hy hlt
    exact (hrest y (due_publish hy) hlt).imp_left fun h ↦ h.trans_le hstep

end Reads

/-! ### The invariant -/

/-- A live delivery that has published, with the answer `d` to the question whether it was heard. -/
structure Answered (cfg : Config) (s : State) (x : ℕ × RecEnc) (d : Bool) : Prop where
  mem : x ∈ s.stream.entries
  floor_le : s.floor ≤ x.1
  heard : d = true → Cut cfg s (x.1 + 1)
  unheard : d = false → Cut cfg s s.floor ∧ Cut cfg s x.1

/-- A replay that is not ahead of the node. -/
structure Replay.Valid (s : State) (r : Replay) : Prop where
  head_le : r.head ≤ s.stream.next
  now_le : r.now ≤ s.now

/-- Where the cut is, by what the lock holder is about. -/
def HolderInv (cfg : Config) (s : State) : Prop :=
  match s.holder with
  | .free => Cut cfg s s.floor
  | .publishing x => x ∈ s.stream.entries ∧ cfg.addressed x.2 ∧ s.floor ≤ x.1 ∧
    Cut cfg s s.floor ∧ Cut cfg s x.1
  | .published x => Answered cfg s x (s.hasSubscriber cfg x.2.topic)
  | .asked x d => Answered cfg s x d
  | .replaying r => r.Valid s ∧ s.floor ≤ r.start ∧ Cut cfg s s.floor ∧ Cut cfg s r.start
  | .sending r recs next => r.Valid s ∧ InPass cfg s recs next
  | .resending r x recs next => r.Valid s ∧ InPass cfg s (x :: recs) next ∧
    s.hasSubscriber cfg x.2.topic = true

/-- **The invariant** of a machine's deliveries. -/
structure Inv (cfg : Config) (s : State) : Prop where
  waiting : ∀ x ∈ s.waiting, x ∈ s.stream.entries ∧ cfg.addressed x.2
  once : s.reached.Pairwise (· < ·)
  ordered : s.publishedLive.Pairwise (· ≤ ·)
  holder : HolderInv cfg s

section Steps

variable {cfg : Config} {s s' : State} {x : ℕ × RecEnc} {r : Replay} {recs : List (ℕ × RecEnc)}
  {next : ℕ} {e : Event} {d : Bool}

/-- A calm step that leaves the cursor alone. -/
structure Aside (cfg : Config) (s s' : State) : Prop extends Calm cfg s s' where
  cursor : s'.cursor = s.cursor
  now_le : s.now ≤ s'.now

theorem Aside.floor (h : Aside cfg s s') : s'.floor = s.floor := by
  rw [State.floor, State.floor, h.cursor]

theorem Answered.aside (h : Answered cfg s x d) (ha : Aside cfg s s') : Answered cfg s' x d where
  mem := ha.mem x h.mem
  floor_le := ha.floor ▸ h.floor_le
  heard hd := (h.heard hd).calm ha.toCalm
  unheard hd := by
    rw [ha.floor]
    exact ⟨(h.unheard hd).1.calm ha.toCalm, (h.unheard hd).2.calm ha.toCalm⟩

theorem Replay.Valid.aside (h : r.Valid s) (ha : Aside cfg s s') : r.Valid s' :=
  ⟨h.head_le.trans ha.next_le, h.now_le.trans ha.now_le⟩

theorem InPass.aside (h : InPass cfg s recs next) (ha : Aside cfg s s') : InPass cfg s' recs next where
  le_next := h.le_next.trans ha.next_le
  cut := h.cut.calm ha.toCalm
  floor_le := ha.floor ▸ h.floor_le
  increasing := h.increasing
  mem x hx := ⟨ha.mem x (h.mem x hx).1, (h.mem x hx).2⟩
  rest x hx hlt := by
    have hle := h.le_next
    exact h.rest x ((ha.due x hx).resolve_right (by omega)) hlt

/-- Beside the lock holder nothing changes for it, provided the machine listens to the command in hand
as before. -/
theorem HolderInv.aside (h : HolderInv cfg s) (ha : Aside cfg s s') (hholder : s'.holder = s.holder)
    (hsub : ∀ x ∈ s.inHand, s'.hasSubscriber cfg x.2.topic = s.hasSubscriber cfg x.2.topic) :
    HolderInv cfg s' := by
  have hcut : ∀ {p}, Cut cfg s p → Cut cfg s' p := fun h ↦ h.calm ha.toCalm
  unfold HolderInv at h ⊢
  rw [hholder, ha.floor]
  unfold State.inHand at hsub
  cases hh : s.holder with
  | free =>
    rw [hh] at h
    exact hcut h
  | publishing x =>
    rw [hh] at h
    exact ⟨ha.mem x h.1, h.2.1, h.2.2.1, hcut h.2.2.2.1, hcut h.2.2.2.2⟩
  | published x =>
    rw [hh] at h hsub
    dsimp only
    rw [hsub x rfl]
    exact Answered.aside h ha
  | asked x d =>
    rw [hh] at h
    exact Answered.aside h ha
  | replaying r =>
    rw [hh] at h
    exact ⟨h.1.aside ha, h.2.1, hcut h.2.2.1, hcut h.2.2.2⟩
  | sending r recs next =>
    rw [hh] at h
    exact ⟨h.1.aside ha, h.2.aside ha⟩
  | resending r x recs next =>
    rw [hh] at h hsub
    exact ⟨h.1.aside ha, h.2.1.aside ha, (hsub x rfl).trans h.2.2⟩

/-! ### The steps of the lock holder -/

theorem State.floor_ack (s : State) (o : ℕ) : (s.ack o).floor = max s.floor o := by
  unfold ack
  split
  · rename_i hlt
    exact (max_eq_right hlt.le).symm
  · rename_i hge
    exact (max_eq_left (Nat.le_of_not_lt hge)).symm

/-- A step that leaves the stream, the clock and what was published alone. -/
theorem Calm.of_eq (hstream : s'.stream = s.stream) (hnow : s'.now = s.now)
    (hpub : s'.published = s.published) : Calm cfg s s' where
  published := hpub
  next_le := hstream ▸ le_rfl
  mem _ hx := hstream ▸ hx
  due _ hx := .inl ⟨hstream ▸ hx.mem, hx.addressed, hnow ▸ hx.live⟩

theorem Aside.of_holder (s : State) (hd : Holder) : Aside cfg s { s with holder := hd } :=
  ⟨.of_eq rfl rfl rfl, rfl, le_rfl⟩

/-- The holder lets go of the lock with the cursor at the cut. -/
theorem Inv.release (h : Inv cfg s) {o : ℕ} (hcut : Cut cfg s o) (hfloor : s.floor ≤ o) :
    Inv cfg { (s.ack o) with holder := .free } := by
  refine ⟨h.waiting, h.once, h.ordered, ?_⟩
  show Cut cfg _ (s.ack o).floor
  rw [s.floor_ack, max_eq_right hfloor]
  exact hcut.calm (.of_eq rfl rfl rfl)

/-- A live delivery publishes. -/
theorem Inv.publishing (h : Inv cfg s) (hh : s.holder = .publishing x) :
    Inv cfg { (s.publish cfg x) with holder := .published x } := by
  have hinv := h.holder
  rw [HolderInv, hh] at hinv
  obtain ⟨hmem, hadd, hfloor, hcutf, hcutx⟩ := hinv
  have hlt := (s.stream.bounds x hmem).2
  refine ⟨h.waiting, hcutx.once_publish h.once, hcutf.ordered_publish hfloor hmem hadd h.ordered, ?_⟩
  have hidle : ∀ y, s.Due cfg y → y.1 < x.1 → y.1 < s.floor := fun y hy hlt ↦
    hcutf.reached_lt _ (hcutx.passed y hy hlt)
  show Answered cfg _ x (s.hasSubscriber cfg x.2.topic)
  refine ⟨hmem, hfloor, fun hsub ↦ ?_, fun hsub ↦ ⟨?_, ?_⟩⟩
  · exact (hcutx.publish_heard hsub hlt).calm (.of_eq rfl rfl rfl)
  · exact (hcutf.publish_unheard hsub hlt hidle).calm (.of_eq rfl rfl rfl)
  · exact (hcutx.publish_unheard hsub hlt fun _ _ ↦ id).calm (.of_eq rfl rfl rfl)

/-- A live delivery moves the cursor, or not. -/
theorem Inv.settle (h : Inv cfg s) (hh : s.holder = .asked x d) :
    Inv cfg { (s.settle cfg x d) with holder := .free } := by
  have hinv := h.holder
  rw [HolderInv, hh] at hinv
  obtain ⟨hmem, hfloor, hheard, hunheard⟩ := hinv
  have hlt := (s.stream.bounds x hmem).2
  unfold State.settle
  cases d with
  | true => exact h.release (hheard rfl) (Nat.le_succ_of_le hfloor)
  | false =>
    obtain ⟨hcutf, hcutx⟩ := hunheard rfl
    cases hlive : cfg.commandStillLive x.2.payload s.now with
    | true => exact ⟨h.waiting, h.once, h.ordered, hcutf.calm (.of_eq rfl rfl rfl)⟩
    | false =>
      -- the command has expired, so the cut moves over it
      refine h.release (hcutx.advance (Nat.le_succ _) (le_max_of_le_left hlt) fun y hy hle ↦ ?_)
        (Nat.le_succ_of_le hfloor)
      rcases Nat.lt_succ_iff_lt_or_eq.mp hle with hlt | heq
      · exact hlt
      · have hyx := OffsetLog.eq_of_offset_eq s.stream.increasing hy.mem hmem heq
        have := hy.live
        rw [hyx] at this
        simp [Config.live, hlive] at this

/-- **A step of the lock holder** keeps the invariant. -/
theorem Inv.proceed (h : Inv cfg s) {readFails : Bool} (hs : s.proceed cfg readFails = some s') :
    Inv cfg s' := by
  have hinv := h.holder
  unfold State.proceed at hs
  cases hh : s.holder with
  | free =>
    rw [hh] at hs
    cases hs
  | publishing x =>
    rw [hh] at hs
    cases hs
    exact h.publishing hh
  | published x =>
    rw [hh] at hs
    rw [HolderInv, hh] at hinv
    cases hs
    exact ⟨h.waiting, h.once, h.ordered, hinv.aside (.of_holder s _)⟩
  | asked x d =>
    rw [hh] at hs
    cases hs
    exact h.settle hh
  | replaying r =>
    rw [hh] at hs
    rw [HolderInv, hh] at hinv
    obtain ⟨hvalid, hfloor, hcutf, hcut⟩ := hinv
    dsimp only at hs
    split at hs
    · rename_i hgo
      cases hs
      have hpass := InPass.read hcut hfloor hgo.1 hvalid.head_le hvalid.now_le
      exact ⟨h.waiting, h.once, h.ordered, ⟨hvalid.head_le, hvalid.now_le⟩, hpass.aside (.of_holder s _)⟩
    · cases hs
      exact ⟨h.waiting, h.once, h.ordered, hcutf.calm (.of_eq rfl rfl rfl)⟩
  | sending r recs next =>
    rw [hh] at hs
    rw [HolderInv, hh] at hinv
    obtain ⟨hvalid, hpass⟩ := hinv
    cases recs with
    | nil =>
      cases hs
      have hfloor : (s.ack next).floor = next := by
        rw [s.floor_ack]
        exact max_eq_right hpass.floor_le
      have hcut : Cut cfg { (s.ack next) with holder := .replaying { r with start := next } } next :=
        hpass.cut.calm (.of_eq rfl rfl rfl)
      refine ⟨h.waiting, h.once, h.ordered, ⟨hvalid.head_le, hvalid.now_le⟩, hfloor.le, ?_, hcut⟩
      show Cut cfg _ (s.ack next).floor
      rwa [hfloor]
    | cons x recs =>
      dsimp only at hs
      split at hs
      · rename_i hsub
        cases hs
        exact ⟨h.waiting, h.once, h.ordered, ⟨hvalid.head_le, hvalid.now_le⟩,
          hpass.aside (.of_holder s _), hsub⟩
      · cases hs
        exact h.release hpass.cut hpass.floor_le
  | resending r x recs next =>
    rw [hh] at hs
    rw [HolderInv, hh] at hinv
    obtain ⟨hvalid, hpass, hsub⟩ := hinv
    cases hs
    obtain ⟨hmem, hadd, -⟩ := hpass.mem x mem_cons_self
    exact ⟨h.waiting, hpass.cut.once_publish h.once,
      hpass.cut.ordered_publish le_rfl hmem hadd h.ordered, ⟨hvalid.head_le, hvalid.now_le⟩,
      (hpass.publish hsub).aside (.of_holder _ _)⟩

/-- **Every steady event** keeps the invariant. -/
theorem Inv.step (h : Inv cfg s) (he : Steady cfg s e) (hs : s.step cfg e = some s') : Inv cfg s' := by
  cases e with
  | tick ms =>
    cases hs
    have hle : s.now ≤ s.now + ms := by omega
    have ha : Aside cfg s { s with now := s.now + ms } :=
      { published := rfl
        next_le := le_rfl
        mem := fun _ hx ↦ hx
        due := fun _ hx ↦ .inl ⟨hx.mem, hx.addressed, Config.live_mono hle hx.live⟩
        cursor := rfl
        now_le := hle }
    exact ⟨h.waiting, h.once, h.ordered, h.holder.aside ha rfl fun _ _ ↦ rfl⟩
  | append e =>
    cases hs
    have hmem : ∀ x ∈ s.stream.entries, x ∈ (s.stream.append e).entries := fun x hx ↦
      mem_append_left _ hx
    refine ⟨fun x hx ↦ ?_, h.once, h.ordered, h.holder.aside ?_ rfl fun _ _ ↦ rfl⟩
    · rcases mem_append.mp hx with hx | hx
      · exact ⟨hmem x (h.waiting x hx).1, (h.waiting x hx).2⟩
      · split at hx
        · rename_i hadd
          rw [mem_singleton.mp hx]
          exact ⟨mem_append_right _ (mem_singleton_self _), hadd⟩
        · cases hx
    · refine ⟨⟨rfl, Nat.le_succ _, hmem, fun x hx ↦ ?_⟩, rfl, le_rfl⟩
      rcases mem_append.mp hx.mem with hx' | hx'
      · exact .inl ⟨hx', hx.addressed, hx.live⟩
      · rw [mem_singleton.mp hx']
        exact .inr le_rfl
  | subscribe | unsubscribe =>
    cases hs
    exact ⟨h.waiting, h.once, h.ordered, h.holder.aside ⟨.of_eq rfl rfl rfl, rfl, le_rfl⟩ rfl he⟩
  | deliver i readFails =>
    obtain ⟨x, hx, hs⟩ := Option.bind_eq_some_iff.mp hs
    split at hs
    · rename_i hfree
      cases hs
      have hinv := h.holder
      rw [HolderInv, hfree] at hinv
      have hcalm : ∀ hd, Calm cfg s { s with waiting := s.waiting.eraseIdx i, holder := hd } :=
        fun hd ↦ .of_eq rfl rfl rfl
      refine ⟨fun y hy ↦ h.waiting y (mem_of_mem_eraseIdx hy), h.once, h.ordered, ?_⟩
      cases hgo : s.mayPublish cfg readFails x with
      | false => exact hinv.calm (hcalm _)
      | true =>
        obtain ⟨hmem, hadd⟩ := h.waiting x (mem_of_getElem? hx)
        obtain ⟨hfloor, hidle⟩ := mayPublish_spec hgo
        have hlt := (s.stream.bounds x hmem).2
        have hcut := hinv.advance hfloor (le_max_of_le_left hlt.le) hidle
        exact ⟨hmem, hadd, hfloor, hinv.calm (hcalm _), hcut.calm (hcalm _)⟩
    · cases hs
  | replay =>
    dsimp only [step] at hs
    split at hs
    · rename_i hfree
      cases hs
      have hinv := h.holder
      rw [HolderInv, hfree] at hinv
      -- below the commands in force nothing is live
      have hcut : Cut cfg s (max s.floor cfg.inForceFrom) := by
        refine hinv.advance (le_max_left _ _) (max_le hinv.le_next (le_max_right _ _)) ?_
        intro x hx hlt
        have := hx.le_inForce
        omega
      exact ⟨h.waiting, h.once, h.ordered, ⟨le_rfl, le_rfl⟩, le_max_left _ _,
        hinv.calm (.of_eq rfl rfl rfl), hcut.calm (.of_eq rfl rfl rfl)⟩
    · cases hs
  | proceed readFails => exact h.proceed hs

/-- At the start nothing is stored and nothing was published. -/
theorem Inv.start (cfg : Config) : Inv cfg {} where
  waiting _ hx := by cases hx
  once := List.Pairwise.nil
  ordered := List.Pairwise.nil
  holder :=
    { le_next := le_max_left _ _
      lt_next := fun _ ho ↦ by cases ho
      reached_lt := fun _ ho ↦ by cases ho
      passed := fun _ hx ↦ by cases hx.mem
      ordered := fun _ ho ↦ by cases ho }

theorem Answered.exists_cut (h : Answered cfg s x d) : ∃ p, s.floor ≤ p ∧ Cut cfg s p := by
  cases d with
  | true => exact ⟨_, Nat.le_succ_of_le h.floor_le, h.heard rfl⟩
  | false => exact ⟨_, le_rfl, (h.unheard rfl).1⟩

/-- The cut is never behind the cursor. -/
theorem HolderInv.exists_cut (h : HolderInv cfg s) : ∃ p, s.floor ≤ p ∧ Cut cfg s p := by
  unfold HolderInv at h
  split at h
  · exact ⟨_, le_rfl, h⟩
  · exact ⟨_, le_rfl, h.2.2.2.1⟩
  · exact Answered.exists_cut h
  · exact Answered.exists_cut h
  · exact ⟨_, le_rfl, h.2.2.1⟩
  · exact ⟨_, h.2.floor_le, h.2.cut⟩
  · exact ⟨_, h.2.1.floor_le, h.2.1.cut⟩

end Steps

/-- **Commands reach a machine once, in order**, in every state of every steady run. -/
theorem delivered_of_reach (cfg : Config) {s : State} (h : (system cfg).Reach (Steady cfg) s) :
    Delivered cfg s := by
  have hinv : Inv cfg s := h.invariant (Inv.start cfg) fun _ _ _ hi he hs ↦ hi.step he hs
  obtain ⟨p, hle, hcut⟩ := hinv.holder.exists_cut
  exact ⟨fun x hx hlt ↦ hcut.passed x hx (hlt.trans_le hle), hinv.once, hinv.ordered⟩

/-! ### Runs -/

instance (cfg : Config) (s : State) (e : Event) : Decidable (Steady cfg s e) := by
  cases e <;> unfold Steady <;> infer_instance

/-- A machine `m1` that subscribes to its command topics by name. -/
def press : Config where
  machine := "m1"
  covered := 1
  inForceFrom := 0
  deadline _ := none
  covers filter topic := decide (filter = topic)

/-- A command for it. -/
def setTemp : RecEnc where
  sourceLocalOnly := false
  topic := ["colca", "v1", "_CmdParam", "m1", "temp", "set"]
  payload := [1]
  ts := 0
  by_ := {}
  originOffset := 0
  door := "http"
  signalID := ""

/-- The lock holder takes `n` steps. -/
def proceeds (n : ℕ) : List Event := List.replicate n (.proceed false)

/-- The machine is away when the command is published. It subscribes, and the replay delivers it. -/
def awayRun : List Event :=
  [.append setTemp, .deliver 0 false] ++ proceeds 3 ++ [.subscribe setTemp.topic, .replay] ++ proceeds 5

/-- The machine subscribes between the publish and the question. -/
def subscribeBetweenRun : List Event :=
  [.append setTemp, .deliver 0 false, .proceed false, .subscribe setTemp.topic] ++ proceeds 2

/-- The machine drops its subscription between the publish and the question, and comes back. -/
def unsubscribeBetweenRun : List Event :=
  [.subscribe setTemp.topic, .append setTemp, .deliver 0 false, .proceed false,
    .unsubscribe setTemp.topic] ++ proceeds 2 ++ [.subscribe setTemp.topic, .replay] ++ proceeds 3

/-- The run of a machine that was away: the command reached it once, and the cursor has passed it. -/
theorem away_machine_delivered :
    ∃ s, (system press).Reach (Steady press) s ∧ s.reached = [1] ∧ s.floor = 2 ∧ Delivered press s := by
  obtain ⟨s, hs, hp⟩ := (system press).exists_reach (Steady press) awayRun
    (fun s ↦ s.reached = [1] ∧ s.floor = 2)
  exact ⟨s, hs, hp.1, hp.2, delivered_of_reach press hs⟩

/-- A subscription that appears between the publish and the question makes the cursor pass a command
that reached nobody. One that disappears there makes a command reach the machine twice. -/
theorem subscription_change_breaks_delivery :
    (¬ ∀ (cfg : Config) (s : State), (system cfg).Reachable s →
      ∀ x, s.Due cfg x → x.1 < s.floor → x.1 ∈ s.reached) ∧
    ¬ ∀ (cfg : Config) (s : State), (system cfg).Reachable s → s.reached.Pairwise (· < ·) := by
  constructor
  · intro h
    obtain ⟨s, hs, hmem, hfloor, hreached⟩ := (system press).exists_reachable subscribeBetweenRun
      (fun s ↦ (1, setTemp) ∈ s.stream.entries ∧ s.floor = 2 ∧ s.reached = [])
    have hdue : s.Due press (1, setTemp) := ⟨hmem, by decide +kernel, rfl⟩
    have := h press s hs _ hdue (by rw [hfloor]; exact Nat.one_lt_two)
    rw [hreached] at this
    cases this
  · intro h
    obtain ⟨s, hs, hp⟩ := (system press).exists_reachable unsubscribeBetweenRun (fun s ↦ s.reached = [1, 1])
    have := h press s hs
    rw [hp] at this
    exact absurd this (by decide)

end Colca.Delivery
