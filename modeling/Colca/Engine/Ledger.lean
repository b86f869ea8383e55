import Colca.Lib.StateMachine
import Mathlib.Data.List.Nodup
import Mathlib.Data.List.Sublists

/-!
# The command ledger

A door asks the ledger whether a command's correlation id is new. An entry is to live until it is forgotten, until
the window has passed, or until it is the oldest of a full ledger and another id is admitted (`Live.admitID`).

The code keeps its entries by id and a queue of keys, which `expire` takes from the front; a key whose entry is gone
may still be queued, so it takes an entry with it only if their times agree. `expire_spec` is that loop: it leaves
what is inside the window, less the oldest entry of a full ledger. And it runs before the id is looked up: a repeat
that finds the ledger full costs the oldest entry its place, and the oldest command is admitted a second time
(`full_ledger_readmits`). The two also differ where an id is forgotten at the very instant of its admission, and its
two keys are alike. In every other run the ledger answers as it should (`admits_once`).
-/

namespace Colca.Ledger

open List

/-- How long an entry lives, how many there are, and what `acked` keeps of a payload. -/
structure Config where
  ledgerWindow : ℕ
  ledgerLimit : ℕ
  withoutResult : String → String
  window_pos : 0 < ledgerWindow
  limit_pos : 0 < ledgerLimit

/-- The values of the code, times in nanoseconds. -/
def Config.node (withoutResult : String → String) : Config :=
  ⟨10 * 60 * 1000000000, 16384, withoutResult, by decide, by decide⟩

/-- `ledgerEntry` with its id; no ack is the empty one. -/
structure Entry where
  id : String
  actor : String
  at_ : ℕ
  ackTopic : String := ""
  ack : String := ""
  deriving DecidableEq, Repr

/-- The `ledgerKey` of an entry. -/
def Entry.key (e : Entry) : String × ℕ := (e.id, e.at_)

/-- `commandLedger`: the entries, in the order of their admission, and the queue for expiry. -/
structure CommandLedger where
  entries : List Entry := []
  order : List (String × ℕ) := []

/-- `ledgerVerdict`, a repeat with the stored ack. -/
inductive Verdict
  | new
  | repeated (ackTopic ack : String)
  | foreign
  deriving DecidableEq, Repr

/-- What is said of a command, by the entry held for its id. -/
def verdict (actor : String) : Option Entry → Verdict
  | some held => if held.actor ≠ actor then .foreign else .repeated held.ackTopic held.ack
  | none => .new

variable (c : Config)

/-- Of an entry that is acked the first ack stays. -/
def ackIn (id topic payload : String) (entries : List Entry) : List Entry :=
  entries.map fun e ↦ if e.id = id ∧ e.ack = "" then
    { e with ackTopic := topic, ack := c.withoutResult payload } else e

def forgetIn (id : String) (entries : List Entry) : List Entry := entries.filter (·.id ≠ id)

/-- `expire`: the entries and what remains of the queue. -/
def expire (now : ℕ) (entries : List Entry) : List (String × ℕ) → CommandLedger
  | [] => ⟨entries, []⟩
  | k :: order =>
    if now - k.2 < c.ledgerWindow ∧ entries.length < c.ledgerLimit then ⟨entries, k :: order⟩
    else expire now (entries.filter (·.key ≠ k)) order

/-- `commandLedger.admit`. -/
def CommandLedger.admitID (l : CommandLedger) (id actor : String) (now : ℕ) : Verdict × CommandLedger :=
  let l := expire c now l.entries l.order
  let held := l.entries.find? (·.id = id)
  (verdict actor held,
    if held.isSome then l else ⟨l.entries ++ [⟨id, actor, now, "", ""⟩], l.order ++ [(id, now)]⟩)

/-- The live entries at a time. -/
def live (now : ℕ) (entries : List Entry) : List Entry :=
  entries.filter fun e ↦ now - e.at_ < c.ledgerWindow

/-- **What admission should be**: only a new id takes the place of the oldest entry, in a full ledger. -/
def Live.admitID (entries : List Entry) (id actor : String) (now : ℕ) : Verdict × List Entry :=
  let l := live c now entries
  let held := l.find? (·.id = id)
  (verdict actor held, if held.isSome then l
    else (if l.length < c.ledgerLimit then l else l.tail) ++ [⟨id, actor, now, "", ""⟩])

/-! ### Runs -/

/-- A ledger and what should live in it, the time of the last admission, and both verdicts of each. -/
structure State where
  ledger : CommandLedger := {}
  live : List Entry := []
  now : ℕ := 0
  verdicts : List (Verdict × Verdict) := []

inductive Event
  | admitID (id actor : String) (now : ℕ)
  | forget (id : String)
  | acked (id topic payload : String)
  deriving DecidableEq, Repr

def step (s : State) : Event → Option State
  | .admitID id actor now =>
    let code := s.ledger.admitID c id actor now
    let spec := Live.admitID c s.live id actor now
    if s.now ≤ now then some ⟨code.2, spec.2, now, s.verdicts ++ [(code.1, spec.1)]⟩ else none
  | .forget id => some { s with
      ledger := { s.ledger with entries := forgetIn id s.ledger.entries }, live := forgetIn id s.live }
  | .acked id topic payload => some { s with
      ledger := { s.ledger with entries := ackIn c id topic payload s.ledger.entries }
      live := ackIn c id topic payload s.live }

def system : StateMachine State Event := ⟨{}, step c⟩

/-- **Every admission is answered as it should be**, and the ledger is not over its limit. -/
def AdmitsOnce (s : State) : Prop :=
  (∀ v ∈ s.verdicts, v.1 = v.2) ∧ s.ledger.entries.length ≤ c.ledgerLimit

/-- An admission that finds the ledger full is of an id without a live entry, and a new one finds no key of its id
and instant in the queue. -/
def Spares (s : State) : Event → Prop
  | .admitID id _ now =>
    if (live c now s.live).any (·.id = id) then (live c now s.live).length < c.ledgerLimit
    else (id, now) ∉ s.ledger.order
  | _ => True

instance (s : State) (e : Event) : Decidable (Spares c s e) :=
  match e with
  | .admitID _ _ _ => inferInstanceAs (Decidable (ite ..))
  | .forget _ | .acked _ _ _ => inferInstanceAs (Decidable True)

/-! ### The queue -/

/-- The entries are in the queue in their order, and the queue is in the order of time. -/
structure Queued (now : ℕ) (l : CommandLedger) : Prop where
  sub : (l.entries.map Entry.key).Sublist l.order
  nodup : l.order.Nodup
  sorted : l.order.Pairwise (·.2 ≤ ·.2)
  past : ∀ k ∈ l.order, k.2 ≤ now
  bounded : l.entries.length ≤ c.ledgerLimit

variable {c} {now : ℕ} {entries : List Entry} {order : List (String × ℕ)} {k : String × ℕ} {s s' : State}

/-- With the first key inside the window all entries are. -/
theorem Queued.live_eq (h : Queued c now ⟨entries, k :: order⟩) (hk : now - k.2 < c.ledgerWindow) :
    live c now entries = entries := by
  refine filter_eq_self.mpr fun e he ↦ decide_eq_true ?_
  have hle : k.2 ≤ e.at_ := by
    rcases mem_cons.mp (h.sub.subset (mem_map_of_mem he)) with rfl | hmem
    · exact le_rfl
    · exact (pairwise_cons.mp h.sorted).1 _ hmem
  omega

/-- The first key goes, with its entry if there is one: the oldest. -/
theorem Queued.pop (h : Queued c now ⟨entries, k :: order⟩) :
    ∃ es, entries.filter (·.key ≠ k) = es ∧ Queued c now ⟨es, order⟩ ∧
      (entries = es ∨ ∃ e, e.key = k ∧ entries = e :: es) := by
  obtain ⟨hnot, hnodup⟩ := nodup_cons.mp h.nodup
  have hrest : ∀ es : List Entry, (es.map Entry.key).Sublist order → es.length ≤ entries.length →
      es.filter (·.key ≠ k) = es ∧ Queued c now ⟨es, order⟩ := by
    intro es hes hle
    refine ⟨filter_eq_self.mpr fun e he ↦ decide_eq_true ?_, hes, hnodup,
      (pairwise_cons.mp h.sorted).2, fun k hk ↦ h.past k (mem_cons_of_mem _ hk), hle.trans h.bounded⟩
    rintro rfl
    exact hnot (hes.subset (mem_map_of_mem he))
  rcases sublist_cons_iff.mp h.sub with hsub | ⟨keys, hkeys, hsub⟩
  · obtain ⟨hkept, hq⟩ := hrest entries hsub le_rfl
    exact ⟨entries, hkept, hq, .inl rfl⟩
  · obtain ⟨e, es, rfl, hek, rfl⟩ := map_eq_cons_iff.mp hkeys
    obtain ⟨hkept, hq⟩ := hrest es hsub (Nat.le_succ _)
    refine ⟨es, ?_, hq, .inr ⟨e, hek, rfl⟩⟩
    rw [filter_cons_of_neg (by simp [hek]), hkept]

/-- **What `expire` leaves**: the entries inside the window, less the oldest of a full ledger. -/
theorem expire_spec (h : Queued c now ⟨entries, order⟩) :
    (expire c now entries order).entries = (if (live c now entries).length < c.ledgerLimit
      then live c now entries else (live c now entries).tail) ∧
      Queued c now (expire c now entries order) ∧ (expire c now entries order).order.Sublist order := by
  induction order generalizing entries with
  | nil =>
    obtain rfl : entries = [] := map_eq_nil_iff.mp (sublist_nil.mp h.sub)
    exact ⟨(ite_self _).symm, h, List.Sublist.refl _⟩
  | cons k order ih =>
    rw [expire]
    split
    · rename_i hstay
      rw [h.live_eq hstay.1, if_pos hstay.2]
      exact ⟨rfl, h, List.Sublist.refl _⟩
    · rename_i hgoes
      obtain ⟨es, hes, hpop, hcases⟩ := h.pop
      obtain ⟨hentries, hqueued, hsub⟩ := ih hpop
      rw [hes]
      refine ⟨?_, hqueued, hsub.cons k⟩
      rw [hentries]
      rcases hcases with rfl | ⟨e, hek, rfl⟩
      · rfl
      · by_cases hold : now - k.2 < c.ledgerWindow
        · -- the ledger is full: its oldest entry goes, and then there is room
          have hall := h.live_eq hold
          have hfull : ¬ (e :: es).length < c.ledgerLimit := fun hlt ↦ hgoes ⟨hold, hlt⟩
          have hroom : es.length < c.ledgerLimit := h.bounded
          have hes : live c now es = es := filter_eq_self.mpr fun x hx ↦
            filter_eq_self.mp hall x (mem_cons_of_mem _ hx)
          rw [hes, if_pos hroom, hall, if_neg hfull, tail_cons]
        · have hout : live c now (e :: es) = live c now es := by
            rw [← hek] at hold
            exact filter_cons_of_neg (by simpa [Entry.key] using hold)
          rw [hout]

/-! ### Steps -/

/-- The ledger holds what should live, and answered as it should. -/
structure Inv (c : Config) (s : State) : Prop where
  same : s.ledger.entries = s.live
  queued : Queued c s.now s.ledger
  agreed : ∀ v ∈ s.verdicts, v.1 = v.2

theorem Queued.later {l : CommandLedger} (h : Queued c now l) {t : ℕ} (hle : now ≤ t) : Queued c t l :=
  { h with past := fun k hk ↦ (h.past k hk).trans hle }

theorem Queued.concat {l : CommandLedger} (h : Queued c now l) {e : Entry} (he : e.at_ = now)
    (hnew : e.key ∉ l.order) (hroom : l.entries.length < c.ledgerLimit) :
    Queued c now ⟨l.entries ++ [e], l.order ++ [e.key]⟩ where
  sub := by
    rw [map_append]
    exact h.sub.append (List.Sublist.refl _)
  nodup := nodup_append.mpr ⟨h.nodup, nodup_singleton _, by
    rintro k hk _ hk' rfl
    exact hnew (mem_singleton.mp hk' ▸ hk)⟩
  sorted := pairwise_append.mpr ⟨h.sorted, pairwise_singleton _ _, fun k hk k' hk' ↦ by
    rw [mem_singleton.mp hk']
    exact (h.past k hk).trans he.ge⟩
  past := forall_mem_concat h.past he.le
  bounded := by
    rw [length_append]
    exact hroom

/-- **An admission that spares the others is answered as it should be.** -/
theorem Inv.admitID (h : Inv c s) {id actor : String} (hle : s.now ≤ now)
    (hspares : Spares c s (.admitID id actor now)) :
    (s.ledger.admitID c id actor now).1 = (Live.admitID c s.live id actor now).1 ∧
      (s.ledger.admitID c id actor now).2.entries = (Live.admitID c s.live id actor now).2 ∧
      Queued c now (s.ledger.admitID c id actor now).2 := by
  obtain ⟨hentries, hqueued, hsub⟩ := expire_spec (h.queued.later hle)
  rw [h.same] at hentries hqueued hsub
  simp only [CommandLedger.admitID, Live.admitID, h.same]
  simp only [Spares] at hspares
  cases hfind : (live c now s.live).find? (·.id = id) with
  | some held =>
    rw [if_pos (any_eq_true.mpr ⟨held, mem_of_find?_eq_some hfind, find?_some hfind⟩)] at hspares
    rw [if_pos hspares] at hentries
    rw [hentries, hfind]
    exact ⟨rfl, hentries, hqueued⟩
  | none =>
    have hnone := find?_eq_none.mp hfind
    rw [if_neg (by simpa using hnone)] at hspares
    have hgone : (expire c now s.live s.ledger.order).entries.find? (·.id = id) = none := by
      rw [hentries, find?_eq_none]
      split
      · exact hnone
      · exact fun e he ↦ hnone e (mem_of_mem_tail he)
    have hroom : (expire c now s.live s.ledger.order).entries.length < c.ledgerLimit := by
      have hbound : (live c now s.live).length ≤ c.ledgerLimit :=
        (length_filter_le _ _).trans (h.same ▸ h.queued.bounded)
      have hpos := c.limit_pos
      rw [hentries]
      split
      · assumption
      · rw [length_tail]
        omega
    rw [hgone]
    exact ⟨rfl, congrArg (· ++ _) hentries,
      hqueued.concat rfl (fun hmem ↦ hspares (hsub.subset hmem)) hroom⟩

theorem Inv.step {e : Event} (h : Inv c s) (hspares : Spares c s e) (hs : (system c).step s e = some s') :
    Inv c s' := by
  cases e with
  | admitID id actor now =>
    obtain ⟨hle, hs⟩ := Option.ite_none_right_eq_some.mp hs
    obtain rfl := Option.some.inj hs
    obtain ⟨hverdict, hsame, hqueued⟩ := h.admitID hle hspares
    exact ⟨hsame, hqueued, forall_mem_concat h.agreed hverdict⟩
  | forget id =>
    cases hs
    exact ⟨congrArg (forgetIn id) h.same, { h.queued with
      sub := (filter_sublist.map _).trans h.queued.sub
      bounded := (length_filter_le _ _).trans h.queued.bounded }, h.agreed⟩
  | acked id topic payload =>
    cases hs
    have hkeys : (ackIn c id topic payload s.ledger.entries).map Entry.key = s.ledger.entries.map Entry.key := by
      rw [ackIn, map_map]
      refine map_congr_left fun e _ ↦ ?_
      simp only [Function.comp_apply]
      split <;> rfl
    exact ⟨congrArg (ackIn c id topic payload) h.same, { h.queued with
      sub := hkeys ▸ h.queued.sub
      bounded := (length_map _).trans_le h.queued.bounded }, h.agreed⟩

theorem inv_of_reach (h : (system c).Reach (Spares c) s) : Inv c s :=
  h.invariant ⟨rfl, ⟨List.Sublist.refl _, nodup_nil, .nil, by simp [system], Nat.zero_le _⟩, by simp [system]⟩
    fun _ _ _ hi hC hs ↦ hi.step hC hs

/-- **In every run whose admissions spare the others**, an id is new exactly when no entry of it lives, a repeat
gets the first ack since, and the ledger stays within its limit. -/
theorem admits_once (c : Config) (s : State) (h : (system c).Reach (Spares c) s) : AdmitsOnce c s :=
  ⟨(inv_of_reach h).agreed, (inv_of_reach h).queued.bounded⟩

/-- A command that is admitted, answered and sent again. -/
theorem admits_once_repeat : ∃ s, (system (.node id)).Reach (Spares (.node id)) s ∧
    s.verdicts = [(.new, .new), (.repeated "ack" "ok", .repeated "ack" "ok")] ∧ AdmitsOnce (.node id) s := by
  obtain ⟨s, hs, hp⟩ := (system (.node id)).exists_reach (Spares (.node id))
    [.admitID "c1" "hmi" 0, .acked "c1" "ack" "ok", .admitID "c1" "hmi" 1]
    (fun s ↦ s.verdicts = [(.new, .new), (.repeated "ack" "ok", .repeated "ack" "ok")])
  exact ⟨s, hs, hp, admits_once _ s hs⟩

/-! ### A full ledger -/

/-- The entry of the `n`-th command. -/
def entryOf (n : ℕ) : Entry := ⟨String.ofList (List.replicate n 'c'), "hmi", n + 1, "", ""⟩

theorem entryOf_id_ne {m n : ℕ} (h : m ≠ n) : (entryOf m).id ≠ (entryOf n).id := fun heq ↦
  h (by simpa [entryOf] using congrArg (List.length ∘ String.toList) heq)

theorem live_eq_self (h : now < c.ledgerWindow) (entries : List Entry) : live c now entries = entries :=
  filter_eq_self.mpr fun e _ ↦ decide_eq_true (by omega)

theorem find?_entryOf {ns : List ℕ} {n : ℕ} (h : n ∉ ns) :
    (ns.map entryOf).find? (·.id = (entryOf n).id) = none := by
  refine find?_eq_none.mpr fun e he ↦ ?_
  obtain ⟨m, hm, rfl⟩ := mem_map.mp he
  have hne : m ≠ n := fun heq ↦ h (heq ▸ hm)
  simpa using entryOf_id_ne hne

/-- Commands come in until the ledger is full. -/
theorem exists_filled (hw : c.ledgerLimit < c.ledgerWindow) {n : ℕ} (hn : n ≤ c.ledgerLimit) :
    ∃ s, (system c).Reach (Spares c) s ∧ s.live = (List.range n).map entryOf ∧ s.now ≤ n := by
  induction n with
  | zero => exact ⟨_, .start, rfl, le_rfl⟩
  | succ n ih =>
    obtain ⟨s, hs, hlive, hnow⟩ := ih (Nat.le_of_succ_le hn)
    have hwindow : live c (n + 1) s.live = (List.range n).map entryOf := by
      rw [live_eq_self (by omega), hlive]
    have hnone : ((List.range n).map entryOf).find? (·.id = (entryOf n).id) = none := find?_entryOf (by simp)
    have hspares : Spares c s (.admitID (entryOf n).id "hmi" (n + 1)) := by
      have hnew := any_eq_false.mpr (find?_eq_none.mp hnone)
      simp only [Spares, hwindow, hnew]
      intro hmem
      have hpast : n + 1 ≤ s.now := (inv_of_reach hs).queued.past _ hmem
      omega
    refine ⟨_, hs.step hspares (if_pos (Nat.le_succ_of_le hnow)), ?_, le_rfl⟩
    have hroom : ((List.range n).map entryOf).length < c.ledgerLimit := by
      rwa [length_map, length_range]
    simp only [Live.admitID, hwindow, hnone, if_pos hroom, range_succ, map_append]
    rfl

/-- **A full ledger admits its oldest command again.** -/
theorem full_ledger_readmits : ¬ ∀ s, (system (.node id)).Reachable s → AdmitsOnce (.node id) s := by
  intro hall
  obtain ⟨s, hs, hlive, hnow⟩ := exists_filled (c := .node id) (n := 16384) (by decide) le_rfl
  have hreach : (system (.node id)).Reachable s :=
    hs.invariant (I := (system (.node id)).Reachable) .start fun _ _ _ h _ hstep ↦ h.step trivial hstep
  have hagree := (hall _ (hreach.step trivial (e := .admitID (entryOf 0).id "hmi" 16384) (if_pos hnow))).1 _
    (mem_append_right _ (mem_singleton_self _))
  have hwindow : live (.node id) 16384 s.live = entryOf 0 :: (List.range' 1 16383).map entryOf := by
    rw [live_eq_self (by decide), hlive, range_eq_range', range'_succ, map_cons]
  -- the first entry is gone before it is looked up
  obtain ⟨hentries, -, -⟩ := expire_spec ((inv_of_reach hs).queued.later hnow)
  have hfull : ¬ (entryOf 0 :: (List.range' 1 16383).map entryOf).length < (Config.node id).ledgerLimit := by
    rw [length_cons, length_map, length_range']
    exact lt_irrefl 16384
  rw [(inv_of_reach hs).same, hwindow, if_neg hfull, tail_cons] at hentries
  have hgone : (s.ledger.admitID (.node id) (entryOf 0).id "hmi" 16384).1 = .new := by
    simp only [CommandLedger.admitID, (inv_of_reach hs).same, hentries]
    rw [find?_entryOf (by simp)]
    rfl
  have hfound : (Live.admitID (.node id) s.live (entryOf 0).id "hmi" 16384).1 = .repeated "" "" := by
    simp [Live.admitID, hwindow, verdict, entryOf]
  rw [hgone, hfound] at hagree
  cases hagree

end Colca.Ledger
