import Colca.Http.FetchInformed
import Colca.Store.Pages
import Colca.Store.SignalRounds

/-!
# Signals, page by page

In every state of a store a reader that asks for signals page by page gets what a reader of the whole
stream gets under the same filter: the accepted records in order, none twice and none missing. The
filter has to reject the records of other signals, since the index does not meet them.

Two facts about the index carry this. A record from the coverage on has an entry under the signal it was
stored with (`indexed_of_signals`), and an offset has an entry under one signal only
(`oneSignal_of_inv`), without which the rounds of the read would return a record twice.
-/

namespace Colca.Fetch

open Uns StoreRun

variable {env : WriteEnv} {accepts : ℕ × RecEnc → Bool} {st : Stream} {signals : List String}
  {run : StoreRun.State}

theorem oneSignal_of_inv (hi : StoreRun.Inv run) (st : Stream) :
    OneSignal run.store.disk st (run.sigFrom st) := by
  intro o id id' hfrom hid hid'
  obtain ⟨e, he, rfl, -⟩ := (hi.layout.sig.exact_of_le st id o hfrom).mp hid
  exact hi.layout.sig.names st id' o e hid' he

theorem signalsStored_of_reachable {f : Found} (hf : SignalsStored env.codec (StoreRun.start f))
    (h : (StoreRun.system env f).Reachable run) : SignalsStored env.codec run := by
  have hinv : StoreRun.Inv run ∧ SignalsStored env.codec run :=
    StateMachine.Reachable.invariant (I := fun s ↦ StoreRun.Inv s ∧ SignalsStored env.codec s)
      ⟨StoreRun.inv_start f, hf⟩ (fun _ _ _ hi hs ↦
        ⟨(hi.1.does hs).inv hi.1, hi.2.does hi.1 (hi.1.does hs)⟩) h
  exact hinv.2

/-- `ReadSignals` in a state of the store. -/
def signalsPage (L : PageLimits RecEnc) (accepts : ℕ × RecEnc → Bool) (s : StoreRun.State) (st : Stream)
    (signals : List String) (pos : ℕ) : Option PageOut :=
  readSignalsByRounds L accepts s.store.disk st signals (s.sigFrom st) (s.lwm st) pos (s.next st)

/-- `ReadRecordsBounded` in a state of the store. -/
def recordsPage (L : PageLimits RecEnc) (accepts : ℕ × RecEnc → Bool) (s : StoreRun.State) (st : Stream)
    (pos : ℕ) : Option PageOut :=
  some (readRecordsBounded L accepts s.store.disk st pos (s.next st))

/-- What pages of signals from a position on hold and where they lead. -/
structure PagesAgree (L L' : PageLimits RecEnc) (accepts : ℕ × RecEnc → Bool) (s : StoreRun.State)
    (st : Stream) (signals : List String) (start : ℕ) : Prop where
  /-- However many pages are read, they hold the accepted records up to where they lead. -/
  pages : ∀ n, ∃ p, readPages (signalsPage L accepts s st signals) n start = some p ∧
    p.1 = (recordsIn s.store.disk st start p.2).filter accepts
  /-- Enough of them hold what enough pages of the whole stream hold. -/
  same : ∀ n m, s.next st - start < n → s.next st - start < m →
    ∃ p q, readPages (signalsPage L accepts s st signals) n start = some p ∧
      readPages (recordsPage L' accepts s st) m start = some q ∧ p.1 = q.1 ∧
      p.1 = (recordsIn s.store.disk st start (s.next st)).filter accepts
  /-- A page moves on as long as a record is left. -/
  lt_next : ∀ pos p, signalsPage L accepts s st signals pos = some p →
    ∀ o e, pos ≤ o → recordAt s.store.disk st o = some e → pos < p.2

/-- **Reading signals through the index is reading the stream.** -/
theorem signal_pages_agree (env : WriteEnv) (f : Found)
    (hf : SignalsStored env.codec (StoreRun.start f)) (s : StoreRun.State)
    (h : (StoreRun.system env f).Reachable s) (st : Stream) (signals : List String)
    (accepts : ℕ × RecEnc → Bool) (hacc : OfSignals env.codec signals accepts)
    (L L' : PageLimits RecEnc) (hlim : 1 ≤ L.limit) (hlim' : 1 ≤ L'.limit) (start : ℕ) :
    PagesAgree L L' accepts s st signals start := by
  have hi := StoreRun.inv_of_reachable h
  have hhead : ∀ o e, recordAt s.store.disk st o = some e → o < s.next st :=
    hi.layout.records.lt_next st
  have hread : signalsPage L accepts s st signals = fun pos ↦
      some (readSignals L accepts s.store.disk st signals (s.sigFrom st) (s.lwm st) pos (s.next st)) :=
    funext fun pos ↦ readSignalsByRounds_eq (oneSignal_of_inv hi st)
  have hsignals : Reader accepts s.store.disk st (s.next st) (signalsPage L accepts s st signals) :=
    hread ▸ reader_signals hlim hhead (indexed_of_signals hi (signalsStored_of_reachable hf h) hacc)
  have hrecords : Reader accepts s.store.disk st (s.next st) (recordsPage L' accepts s st) :=
    reader_recordsBounded hlim' hhead
  refine ⟨fun n ↦ ?_, fun n m hn hm ↦ ?_, hsignals.lt_next⟩
  · obtain ⟨p, hp, hreads⟩ := hsignals.pages n start
    exact ⟨p, hp, hreads.records_eq⟩
  · obtain ⟨p, hp, hall⟩ := hsignals.all hhead hn
    obtain ⟨q, hq, hall'⟩ := hrecords.all hhead hm
    exact ⟨p, q, hp, hq, hall.trans hall'.symm, hall⟩

/-- The samples of one signal, two of which are left after a prune, one record a page. -/
theorem signal_pages_agree_samplePrune : ∃ s, SignalsStored sampleEnv.codec (StoreRun.start .empty) ∧
    (StoreRun.system sampleEnv .empty).Reachable s ∧ sampleIndexed s = true ∧
    PagesAgree ⟨1, 0, 0, sampleEnv.codec.recSize⟩ ⟨5, 2, 0, sampleEnv.codec.recSize⟩
      (fun x ↦ decide (signalOf sampleEnv.codec x.2 = "flow")) s .metrics ["flow"] 1 := by
  obtain ⟨s, hreach, hs⟩ := (StoreRun.system sampleEnv .empty).exists_reachable
    samplePrune (sampleIndexed ·)
  have hf : SignalsStored sampleEnv.codec (StoreRun.start .empty) := by
    intro st o e _ he
    rw [start_recordAt] at he
    cases he
  have hacc : OfSignals sampleEnv.codec ["flow"]
      fun x ↦ decide (signalOf sampleEnv.codec x.2 = "flow") := by
    intro x hx
    rw [of_decide_eq_true hx]
    exact ⟨List.mem_singleton_self _, by decide⟩
  exact ⟨s, hf, hreach, hs, signal_pages_agree sampleEnv .empty hf s hreach .metrics ["flow"] _
    hacc _ _ (by decide) (by decide) 1⟩

end Colca.Fetch
