import Colca.Engine.Delivery
import Colca.Store.Indexes
import Colca.Store.TargetPages

/-!
# Target reads and the replay that loops over them

`replayOwedCommands` reads the commands of a machine up to the head it found, delivers them, and goes on
from where the read leads. Nothing else bounds the loop: it ends because a read moves on.

A read moves on over every record of the stream (`TargetRead.lt_next`), so the loop ends in every state
whose last offset still holds its record, and in every state in which the target index covers the end of
the stream.
-/

namespace Colca.Delivery

open Uns
open StoreRun (sampleEnv)

/-- `ReadTarget` in a state of the store. -/
def targetPage (s : StoreRun.State) (st : Stream) (target : String) (keep : ℕ × RecEnc → Bool)
    (limit maxScan start upTo : ℕ) : PageOut :=
  readTarget limit maxScan keep s.store.disk st target (s.targetFrom st) (s.lwm st) (s.next st) start upTo

/-- The loop of `ReplayOwedCommands`: where it leaves the cursor, and how many commands it published.
The subscriptions of the machine are asked for each record. -/
def replayLoop (read : ℕ → PageOut) (listening : ℕ × RecEnc → Bool) (head : ℕ) :
    ℕ → ℕ → ℕ → Option (ℕ × ℕ)
  | 0, _, _ => none
  | fuel + 1, start, published =>
    if start < head ∧ published < replayCap then
      let p := read start
      let sent := (p.1.takeWhile listening).length
      match p.1.dropWhile listening with
      -- a record whose topic the machine is not listening on stays owed
      | x :: _ => some (x.1, published + sent)
      | [] => replayLoop read listening head fuel p.2 (published + sent)
    else some (start, published)

/-- What a read of commands in `[start, upTo)` returns, and where it leads. -/
structure TargetRead (s : StoreRun.State) (st : Stream) (target : String) (keep : ℕ × RecEnc → Bool)
    (limit maxScan start upTo : ℕ) : Prop where
  /-- The first `limit` of the target's commands, among the entries the budget lets it visit. -/
  first : (targetPage s st target keep limit maxScan start upTo).1 =
    PageScan.firstPicks (targetLimits limit maxScan) (pickEntry (forTarget target keep))
      (targetVisits s.store.disk st target (s.targetFrom st) (max start (s.lwm st)) upTo)
  sound : ∀ x ∈ (targetPage s st target keep limit maxScan start upTo).1,
    start ≤ x.1 ∧ x.1 < upTo ∧ recordAt s.store.disk st x.1 = some x.2 ∧
      commandTarget x.2.topic = some target ∧ keep x = true
  increasing : (targetPage s st target keep limit maxScan start upTo).1.Pairwise (·.1 < ·.1)
  /-- None is left out below where it leads. -/
  complete : ∀ o e, start ≤ o → o < (targetPage s st target keep limit maxScan start upTo).2 →
    recordAt s.store.disk st o = some e → commandTarget e.topic = some target → keep (o, e) = true →
    (o, e) ∈ (targetPage s st target keep limit maxScan start upTo).1
  next_le : (targetPage s st target keep limit maxScan start upTo).2 ≤ max upTo (s.lwm st)
  lt_next : (start < s.lwm st ∨ s.targetFrom st < upTo ∨
      ∃ o e, start ≤ o ∧ o < upTo ∧ recordAt s.store.disk st o = some e) →
    start < (targetPage s st target keep limit maxScan start upTo).2

/-- The end of the stream is covered by the index, holds its record, or was pruned. -/
def EndKnown (s : StoreRun.State) (st : Stream) : Prop :=
  s.targetFrom st < s.next st ∨ s.next st ≤ s.lwm st ∨
    (recordAt s.store.disk st (s.next st - 1)).isSome

variable {env : WriteEnv} {s : StoreRun.State} {st : Stream} {target : String}
  {keep : ℕ × RecEnc → Bool} {limit maxScan start upTo : ℕ}

theorem targetRead_of_inv (hi : StoreRun.Inv s) (hne : target ≠ "") (hlim : 1 ≤ limit)
    (hlt : start < upTo) (hup : upTo ≤ s.next st) :
    TargetRead s st target keep limit maxScan start upTo := by
  have hix : TargetIndexed s.store.disk st target (s.targetFrom st) := hi.layout.target.indexed hne
  have hmin : min upTo (s.next st) = upTo := min_eq_left hup
  have hreads : Reads (forTarget target keep) s.store.disk st (max start (s.lwm st))
      (min upTo (s.next st)) (targetPage s st target keep limit maxScan start upTo) := reads_target hix
  rw [hmin] at hreads
  have hfor : ∀ x, forTarget target keep x = true ↔
      commandTarget x.2.topic = some target ∧ keep x = true := fun x ↦ by
    rw [forTarget, Bool.and_eq_true_iff, decide_eq_true_iff, recordTarget_eq_iff hne]
  refine
    { first := (readTarget_out hix).trans (by rw [hmin])
      sound := fun x hx ↦ ?_
      increasing := hreads.increasing
      complete := fun o e hlo ho he ht hk ↦ ?_
      next_le := ?_
      lt_next := fun h ↦ ?_ }
  · obtain ⟨hlo, hhi, he, hacc⟩ := hreads.sound x hx
    have hnext := hreads.next_le
    exact ⟨(le_max_left _ _).trans hlo, by omega, he, (hfor x).mp hacc⟩
  · refine hreads.complete o e (max_le hlo (hi.layout.records.lwm_le st o e he)) ho he ?_
    exact (hfor (o, e)).mpr ⟨ht, hk⟩
  · have hnext := hreads.next_le
    omega
  · refine lt_readTarget_next hix hlim (hmin.symm ▸ hlt) ?_
    rw [hmin]
    refine h.imp_right (Or.imp_right ?_)
    rintro ⟨o, e, hlo, hhi, he⟩
    exact recordsIn_ne_nil hlo hhi he

/-- **The loop ends** when every read below the head moves on. -/
theorem replayLoop_isSome {read : ℕ → PageOut} {listening : ℕ × RecEnc → Bool} {head fuel published : ℕ}
    (h : ∀ pos, pos < head → pos < (read pos).2) (hfuel : head - start < fuel) :
    (replayLoop read listening head fuel start published).isSome := by
  induction fuel generalizing start published with
  | zero => exact absurd hfuel (Nat.not_lt_zero _)
  | succ fuel ih =>
    rw [replayLoop]
    split
    · rename_i hgo
      dsimp only
      split
      · rfl
      · have hnext := h start hgo.1
        exact ih (by omega)
    · rfl

/-- **Target reads progress and miss nothing**, and the replay that loops over them ends. -/
theorem target_reads_progress (env : WriteEnv) (f : Found) (s : StoreRun.State)
    (h : (StoreRun.system env f).Reachable s) (st : Stream) (target : String) (hne : target ≠ "")
    (keep : ℕ × RecEnc → Bool) :
    (∀ limit maxScan start upTo, 1 ≤ limit → start < upTo → upTo ≤ s.next st →
      TargetRead s st target keep limit maxScan start upTo) ∧
    (EndKnown s st → ∀ listening start, ∃ r,
      replayLoop (targetPage s st target keep replayBatch 0 · (s.next st)) listening (s.next st)
        (s.next st + 1) start 0 = some r) := by
  have hi := StoreRun.inv_of_reachable h
  refine ⟨fun limit maxScan start upTo hlim hlt hup ↦ targetRead_of_inv hi hne hlim hlt hup,
    fun hend listening start ↦ Option.isSome_iff_exists.mp (replayLoop_isSome (fun pos hpos ↦ ?_) ?_)⟩
  · refine (targetRead_of_inv hi hne (by decide) hpos le_rfl).lt_next ?_
    rcases hend with hcov | hlwm | hlast
    · exact .inr (.inl hcov)
    · exact .inl (hpos.trans_le hlwm)
    · obtain ⟨e, he⟩ := Option.isSome_iff_exists.mp hlast
      exact .inr (.inr ⟨_, e, by omega, by omega, he⟩)
  · omega

/-! ### A pruned stream -/

/-- A command for the machine, as it is appended. -/
def setTempRecord : Record :=
  { topic := ["colca", "v1", "_CmdParam", "m1", "temp", "set"], payload := [1], kvPath := [], kvNode := "" }

/-- Three commands, of which the first two are pruned. -/
def prunedCommands : List StoreRun.Event :=
  [.write (.append [⟨.commands, [setTempRecord, setTempRecord, setTempRecord]⟩]) true,
    .begin_ 0 .prune .commands, .readPrune 0 3, .commitPrune 0 4 []]

/-- Two of four offsets are gone, and the last record is there. -/
def prunedToThree (s : StoreRun.State) : Bool :=
  decide (s.next .commands = 4) && decide (s.lwm .commands = 3) &&
    (recordAt s.store.disk .commands 3).isSome

/-- A read of the whole stream, and the replay. -/
theorem target_reads_progress_pruned : ∃ s,
    (StoreRun.system sampleEnv .empty).Reachable s ∧ prunedToThree s = true ∧
    TargetRead s .commands "m1" (fun _ ↦ true) 1 0 1 4 ∧
    ∃ r, replayLoop (targetPage s .commands "m1" (fun _ ↦ true) replayBatch 0 · (s.next .commands))
      (fun _ ↦ true) (s.next .commands) (s.next .commands + 1) 1 0 = some r := by
  obtain ⟨s, hreach, hs⟩ := (StoreRun.system sampleEnv .empty).exists_reachable prunedCommands
    (prunedToThree ·)
  obtain ⟨⟨hnext, -⟩, hlast⟩ : (s.next .commands = 4 ∧ s.lwm .commands = 3) ∧
      (recordAt s.store.disk .commands 3).isSome := by
    simpa [prunedToThree] using hs
  have h := target_reads_progress sampleEnv .empty s hreach .commands "m1" (by decide)
    (fun _ ↦ true)
  refine ⟨s, hreach, hs, h.1 1 0 1 4 le_rfl (by decide) hnext.ge, h.2 (.inr (.inr ?_)) _ 1⟩
  rw [hnext]
  exact hlast

/-- **A read of a pruned range leads past it**, to the low-water mark. -/
theorem pruned_read_leads_past : ¬ ∀ s, (StoreRun.system sampleEnv .empty).Reachable s →
    ∀ start upTo, start < upTo → upTo ≤ s.next .commands →
      (targetPage s .commands "m1" (fun _ ↦ true) 1 0 start upTo).2 ≤ upTo := by
  intro hall
  obtain ⟨s, hreach, hs⟩ := (StoreRun.system sampleEnv .empty).exists_reachable prunedCommands
    (prunedToThree ·)
  obtain ⟨⟨hnext, hlwm⟩, -⟩ : (s.next .commands = 4 ∧ s.lwm .commands = 3) ∧
      (recordAt s.store.disk .commands 3).isSome := by
    simpa [prunedToThree] using hs
  have hle := hall s hreach 1 2 (by decide) (hnext.symm ▸ by decide)
  rw [targetPage, readTarget, hnext, hlwm] at hle
  dsimp only at hle
  rw [if_pos (by decide)] at hle
  exact absurd hle (by decide)

end Colca.Delivery
