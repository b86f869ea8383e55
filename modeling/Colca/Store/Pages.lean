import Colca.Store.ReadPage
import Mathlib.Data.List.Sort

/-!
# Pages in a row

A reader goes from page to page, each from where the one before says. The bounds of a page cut it
anywhere, so readers are not compared with one another but with the accepted records of the stream: a
page holds all of them up to its `next` (`Reads`), pages in a row do so too (`Reads.append`), and as long
as a record is left the next page moves on (`Reader.lt_next`). Enough pages then hold every accepted
record, each once and in order (`Reader.all`).
-/

namespace Colca

open Uns PageScan

/-- Pages in a row, each from where the one before says. -/
def readPages (read : ℕ → Option PageOut) : ℕ → ℕ → Option PageOut
  | 0, start => some ([], start)
  | n + 1, start =>
    (read start).bind fun p ↦ (readPages read n p.2).map fun q ↦ (p.1 ++ q.1, q.2)

variable {L : PageLimits RecEnc} {accepts : ℕ × RecEnc → Bool} {d : Disk} {st : Stream}
  {signals : List String} {covered lwm head start n : ℕ} {p q : PageOut}
  {read : ℕ → Option PageOut}

instance : Std.Antisymm fun x y : ℕ × RecEnc ↦ x.1 < y.1 :=
  ⟨fun _ _ h h' ↦ absurd h (Nat.lt_asymm h')⟩

instance : Std.Irrefl fun x y : ℕ × RecEnc ↦ x.1 < y.1 := ⟨fun _ ↦ Nat.lt_irrefl _⟩

/-- Two pages, the second from where the first says, are one page. -/
theorem Reads.append (h : Reads accepts d st start head p) (h' : Reads accepts d st p.2 head q) :
    Reads accepts d st start head (p.1 ++ q.1, q.2) where
  complete o e hlo hlt he hacc := by
    refine List.mem_append.mpr ?_
    by_cases ho : o < p.2
    · exact .inl (h.complete o e hlo ho he hacc)
    · exact .inr (h'.complete o e (Nat.le_of_not_lt ho) hlt he hacc)
  sound x hx := by
    rcases List.mem_append.mp hx with hx | hx
    · obtain ⟨hlo, hlt, hrec⟩ := h.sound x hx
      exact ⟨hlo, hlt.trans_le h'.start_le, hrec⟩
    · obtain ⟨hlo, hlt, hrec⟩ := h'.sound x hx
      exact ⟨h.start_le.trans hlo, hlt, hrec⟩
  increasing := by
    refine List.pairwise_append.mpr ⟨h.increasing, h'.increasing, fun x hx y hy ↦ ?_⟩
    exact (h.sound x hx).2.1.trans_le (h'.sound y hy).1
  start_le := h.start_le.trans h'.start_le
  next_le := h'.next_le.trans (max_le h.next_le (le_max_right _ _))

/-- Nothing is read. -/
theorem Reads.nil (start : ℕ) : Reads accepts d st start head ([], start) where
  complete _ _ hlo hlt := absurd hlt (Nat.not_lt_of_le hlo)
  sound _ hx := nomatch hx
  increasing := List.Pairwise.nil
  start_le := le_rfl
  next_le := le_max_left _ _

/-- **What a page holds**, as a list. -/
theorem Reads.records_eq (h : Reads accepts d st start head p) :
    p.1 = (recordsIn d st start p.2).filter accepts := by
  refine h.increasing.eq_of_mem_iff ((recordsIn_increasing d st start p.2).filter _) fun x ↦ ?_
  rw [List.mem_filter, mem_recordsIn]
  constructor
  · intro hx
    obtain ⟨hlo, hlt, he, hacc⟩ := h.sound x hx
    exact ⟨⟨hlo, hlt, he⟩, hacc⟩
  · exact fun ⟨⟨hlo, hlt, he⟩, hacc⟩ ↦ h.complete x.1 x.2 hlo hlt he hacc

/-- A reader whose pages are complete and move on as long as a record is left. -/
structure Reader (accepts : ℕ × RecEnc → Bool) (d : Disk) (st : Stream) (head : ℕ)
    (read : ℕ → Option PageOut) : Prop where
  reads : ∀ pos, ∃ p, read pos = some p ∧ Reads accepts d st pos head p
  lt_next : ∀ pos p, read pos = some p → ∀ o e, pos ≤ o → recordAt d st o = some e → pos < p.2

theorem Reader.pages (h : Reader accepts d st head read) (n start : ℕ) :
    ∃ p, readPages read n start = some p ∧ Reads accepts d st start head p := by
  induction n generalizing start with
  | zero => exact ⟨_, rfl, .nil start⟩
  | succ n ih =>
    obtain ⟨p, hp, hreads⟩ := h.reads start
    obtain ⟨q, hq, hreads'⟩ := ih p.2
    refine ⟨_, ?_, hreads.append hreads'⟩
    rw [readPages, hp, Option.bind_some, hq]
    rfl

/-- Enough pages leave no record. -/
theorem Reader.pages_end (h : Reader accepts d st head read)
    (hhead : ∀ o e, recordAt d st o = some e → o < head) (hn : head - start < n)
    (hp : readPages read n start = some p) : ∀ o e, p.2 ≤ o → recordAt d st o ≠ some e := by
  induction n generalizing start p with
  | zero => exact absurd hn (Nat.not_lt_zero _)
  | succ n ih =>
    intro o e ho he
    obtain ⟨p₁, hp₁, hreads⟩ := h.reads start
    rw [readPages, hp₁, Option.bind_some] at hp
    obtain ⟨q, hq, rfl⟩ := Option.map_eq_some_iff.mp hp
    obtain ⟨q', hq', hreads'⟩ := h.pages n p₁.2
    obtain rfl : q' = q := Option.some.inj (hq'.symm.trans hq)
    -- a record that is left was left by the first page, which therefore moved on
    have hle : p₁.2 ≤ o := hreads'.start_le.trans ho
    have hlt : start < p₁.2 := h.lt_next start p₁ hp₁ o e (hreads.start_le.trans hle) he
    have hhi : o < head := hhead o e he
    exact ih (by omega) hq o e ho he

/-- **A reader that goes on gets every accepted record.** -/
theorem Reader.all (h : Reader accepts d st head read)
    (hhead : ∀ o e, recordAt d st o = some e → o < head) (hn : head - start < n) :
    ∃ p, readPages read n start = some p ∧ p.1 = (recordsIn d st start head).filter accepts := by
  obtain ⟨p, hp, hreads⟩ := h.pages n start
  refine ⟨p, hp, hreads.records_eq.trans (congrArg _ ?_)⟩
  refine (recordsIn_increasing d st start p.2).eq_of_mem_iff (recordsIn_increasing d st start head)
    fun x ↦ ?_
  rw [mem_recordsIn, mem_recordsIn]
  constructor
  · exact fun ⟨hlo, _, he⟩ ↦ ⟨hlo, hhead x.1 x.2 he, he⟩
  · refine fun ⟨hlo, _, he⟩ ↦ ⟨hlo, Nat.lt_of_not_le fun hle ↦ ?_, he⟩
    exact h.pages_end hhead hn hp x.1 x.2 hle he

/-! ### The two readers -/

/-- A page of a scan moves on if there is a record to scan. -/
theorem lt_scan_next (hlim : 1 ≤ L.limit) {hi : ℕ} (hne : recordsIn d st start hi ≠ []) : start <
    (run L (pickRecord accepts) { next := start } (recordsIn d st start hi)).next :=
  next_lt_run_next (ahead_recordsIn d st start hi)
    (full_eq_false.mpr ⟨hlim, Nat.eq_zero_or_pos _⟩) rfl hne

variable {s : PageScan RecEnc} {e : RecEnc}

theorem recordsIn_ne_nil {o hi : ℕ} (hlo : start ≤ o) (hhi : o < hi)
    (he : recordAt d st o = some e) : recordsIn d st start hi ≠ [] :=
  List.ne_nil_of_mem (a := (o, e)) (mem_recordsIn.mpr ⟨hlo, hhi, he⟩)

theorem reader_recordsBounded (hlim : 1 ≤ L.limit) (hhead : ∀ o e, recordAt d st o = some e → o < head) :
    Reader accepts d st head fun pos ↦ some (readRecordsBounded L accepts d st pos head) where
  reads pos := ⟨_, rfl, reads_recordsBounded L accepts d st pos head⟩
  lt_next pos p hp o e hlo he := by
    cases hp
    exact lt_scan_next hlim (recordsIn_ne_nil hlo (hhead o e he) he)

/-- The index half moves on from below the head. -/
theorem lt_readIndex_next (hs : s.Open) (hhead : s.next < head)
    (hfull : s.full L = false) (hout : s.out = []) :
    s.next < (readIndex L accepts d st signals lwm head s).2 := by
  have ha := ahead_sigEntries d st signals lwm head s
  have hlt : ∀ x ∈ sigEntries d st signals (max s.next lwm) head, x.1 < head :=
    fun x hx ↦ (mem_sigEntries.mp hx).2.1
  rw [readIndex, if_neg]
  · by_cases hnil : sigEntries d st signals (max s.next lwm) head = []
    · -- no entry is left before the head
      dsimp only
      rw [hnil, run, resume, hs.pending, hs.left]
      exact hhead
    · exact (next_lt_run_next ha hfull hout hnil).trans_le
        (next_le_resume hs ha hhead.le hlt).1
  · rintro (h | h)
    · exact Nat.not_lt_of_le h hhead
    · exact Bool.eq_false_iff.mp hfull h

theorem next_le_readIndex_next (hs : s.Open) (hhead : s.next ≤ head) :
    s.next ≤ (readIndex L accepts d st signals lwm head s).2 := by
  have ha := ahead_sigEntries d st signals lwm head s
  rw [readIndex]
  split
  · exact le_rfl
  · exact (le_run_next ha).trans (next_le_resume hs ha hhead
      fun x hx ↦ (mem_sigEntries.mp hx).2.1).1

theorem lt_readSignals_next (hlim : 1 ≤ L.limit) {o : ℕ} (hlo : start ≤ o) (hhi : o < head)
    (he : recordAt d st o = some e) :
    start < (readSignals L accepts d st signals covered lwm start head).2 := by
  rw [readSignals]
  split
  · rename_i hbelow
    dsimp only
    split
    · rename_i hstop
      by_cases hnil : recordsIn d st start (min covered head) = []
      · -- nothing was scanned, so it is the head that ends the page, and it lies past the record
        rw [hnil] at hstop
        have hcov : head ≤ covered := by
          rcases hstop with h | h | h
          · cases h
          · exact absurd h (Nat.not_le_of_lt hlim)
          · exact h
        exact absurd hnil (recordsIn_ne_nil hlo (lt_min (hhi.trans_le hcov) hhi) he)
      · exact lt_scan_next hlim hnil
    · rename_i hgo
      push Not at hgo
      have hleft := Bool.eq_false_of_not_eq_true hgo.1
      have hopen : ({ next := start } : PageScan RecEnc).Open := ⟨rfl, rfl⟩
      refine hbelow.trans_le ?_
      exact next_le_readIndex_next (s := { run L (pickRecord accepts) { next := start }
        (recordsIn d st start (min covered head)) with next := covered })
        ⟨(hopen.run hleft).pending, hleft⟩ hgo.2.2.le
  · have hfull : ({ next := start } : PageScan RecEnc).full L = false :=
      full_eq_false.mpr ⟨hlim, Nat.eq_zero_or_pos _⟩
    exact lt_readIndex_next ⟨rfl, rfl⟩ (hlo.trans_lt hhi) hfull rfl

theorem reader_signals (hlim : 1 ≤ L.limit) (hhead : ∀ o e, recordAt d st o = some e → o < head)
    (hix : Indexed accepts d st signals covered lwm) :
    Reader accepts d st head fun pos ↦ some (readSignals L accepts d st signals covered lwm pos head) where
  reads pos := ⟨_, rfl, reads_signals L hix pos head⟩
  lt_next pos p hp o e hlo he := by
    cases hp
    exact lt_readSignals_next hlim hlo (hhead o e he) he

end Colca
