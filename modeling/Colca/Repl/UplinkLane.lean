import Colca.Lib.StateMachine
import Colca.Repl.UplinkBatch
import Mathlib.Data.List.Sort

/-!
# One uplink lane of a child

The durable state of a lane: its stream, the uplink cursor, the highest offset the parent confirmed,
and the records set aside. `hist` is a ghost: every record the stream ever had, so that what the
parent holds can be compared with what the child wrote after retention took it away.

## The chain of custody

A record that rises is passed from the cursor to a page, from the page to a request, and from the
request to the parent. Each link says the same thing about the offsets **behind** it: a retained
record that rises and is not carried here was confirmed before (`≤ acked`) or set aside.

* `Lane.Behind lane n acked` is the statement for a position `n`;
* `Lane.Carried` is the statement for a batch that starts behind `n`.

All of it speaks about retained records below what the stream has handed out, so it survives
whatever the stream does next (`Lane.Evolves`).
-/

namespace Colca.Uplink

open Uns List

/-- The durable state of one uplink lane, with the ghost history of its stream. -/
structure Lane where
  log : OffsetLog RecEnc := .empty
  /-- Every record the stream ever had. -/
  hist : List (ℕ × RecEnc) := []
  /-- The uplink cursor, absent until it is seated. -/
  cursor : Option ℕ := none
  /-- The highest offset the parent confirmed. -/
  acked : ℕ := 0
  /-- The records set aside. -/
  setAside : List (ℕ × RecEnc) := []

/-- `CursorGet`: a cursor that was never moved stands at 1. -/
def Lane.pos (l : Lane) : ℕ := l.cursor.getD 1

/-- `CursorAck`: forward only. -/
def Lane.ack (l : Lane) (off : ℕ) : Lane := if l.pos < off then { l with cursor := some off } else l

/-- The offset of a record set aside. -/
def Lane.IsSetAside (l : Lane) (o : ℕ) : Prop := ∃ x ∈ l.setAside, x.1 = o

/-- The history is in offset order, holds what is retained and what was set aside, and nothing the
stream has not handed out. -/
structure Lane.HistInv (l : Lane) : Prop where
  increasing : l.hist.Pairwise (·.1 < ·.1)
  retained : ∀ x ∈ l.log.entries, x ∈ l.hist
  lt_next : ∀ x ∈ l.hist, x.1 < l.log.next

/-! ### What a lane can do -/

/-- A lane moves on: nothing comes back into its stream, the history grows at its end, and what was
set aside stays so. -/
structure Lane.Evolves (a b : Lane) : Prop where
  log : a.log.Evolves b.log
  hist : a.hist <+: b.hist
  setAside : ∀ o, a.IsSetAside o → b.IsSetAside o

theorem Lane.Evolves.refl (a : Lane) : a.Evolves a :=
  ⟨.refl _, prefix_refl _, fun _ h ↦ h⟩

/-- Append a record to the stream. -/
def Lane.append (l : Lane) (e : RecEnc) : Lane :=
  { l with log := l.log.append e, hist := l.hist ++ [(l.log.next, e)] }

/-- Retention removes a run at the old end. -/
def Lane.prune (l : Lane) (upTo : ℕ) : Lane := { l with log := l.log.prune upTo }

/-- Retention removes records anywhere. -/
def Lane.remove (l : Lane) (p : ℕ → Bool) : Lane := { l with log := l.log.remove p }

/-- Copy a record and move the cursor past it, in one batch; nothing when the cursor already stands
past it. -/
def Lane.setAsideUplink (l : Lane) (x : ℕ × RecEnc) : Lane :=
  if x.1 < l.pos then l
  else { l with cursor := some (x.1 + 1), setAside := l.setAside ++ [x] }

theorem Lane.evolves_append (l : Lane) (e : RecEnc) : l.Evolves (l.append e) :=
  ⟨l.log.evolves_append e, prefix_append _ _, fun _ h ↦ h⟩

theorem Lane.evolves_prune (l : Lane) (upTo : ℕ) : l.Evolves (l.prune upTo) :=
  ⟨l.log.evolves_prune upTo, prefix_refl _, fun _ h ↦ h⟩

theorem Lane.evolves_remove (l : Lane) (p : ℕ → Bool) : l.Evolves (l.remove p) :=
  ⟨l.log.evolves_remove p, prefix_refl _, fun _ h ↦ h⟩

/-- A lane moves its cursor, its confirmed mark or its set-aside records; the stream stays. -/
structure Lane.Moves (a b : Lane) : Prop where
  log : b.log = a.log
  hist : b.hist = a.hist
  setAside : ∀ o, a.IsSetAside o → b.IsSetAside o

theorem Lane.Moves.refl (a : Lane) : a.Moves a := ⟨rfl, rfl, fun _ h ↦ h⟩

theorem Lane.Moves.evolves {a b : Lane} (h : a.Moves b) : a.Evolves b :=
  ⟨h.log ▸ .refl _, h.hist ▸ prefix_refl _, h.setAside⟩

theorem Lane.moves_of_eq {a b : Lane} (hlog : b.log = a.log) (hhist : b.hist = a.hist)
    (hside : b.setAside = a.setAside) : a.Moves b := by
  refine ⟨hlog, hhist, fun o h ↦ ?_⟩
  rw [Lane.IsSetAside, hside]
  exact h

@[simp] theorem Lane.ack_log (l : Lane) (off : ℕ) : (l.ack off).log = l.log := by
  unfold Lane.ack; split <;> rfl

@[simp] theorem Lane.ack_hist (l : Lane) (off : ℕ) : (l.ack off).hist = l.hist := by
  unfold Lane.ack; split <;> rfl

@[simp] theorem Lane.ack_setAside (l : Lane) (off : ℕ) : (l.ack off).setAside = l.setAside := by
  unfold Lane.ack; split <;> rfl

@[simp] theorem Lane.ack_acked (l : Lane) (off : ℕ) : (l.ack off).acked = l.acked := by
  unfold Lane.ack; split <;> rfl

theorem Lane.ack_pos (l : Lane) (off : ℕ) : (l.ack off).pos = max l.pos off := by
  unfold Lane.ack
  split <;> rename_i h
  · exact (max_eq_right h.le).symm
  · exact (max_eq_left (not_lt.mp h)).symm

theorem Lane.moves_ack (l : Lane) (off : ℕ) : l.Moves (l.ack off) :=
  Lane.moves_of_eq (l.ack_log off) (l.ack_hist off) (l.ack_setAside off)

theorem Lane.moves_setAsideUplink (l : Lane) (x : ℕ × RecEnc) : l.Moves (l.setAsideUplink x) := by
  unfold Lane.setAsideUplink
  split
  · exact .refl l
  · refine ⟨rfl, rfl, fun o ⟨y, hy, heq⟩ ↦ ?_⟩
    exact ⟨y, mem_append_left _ hy, heq⟩

theorem Lane.HistInv.append {l : Lane} (h : l.HistInv) (e : RecEnc) : (l.append e).HistInv where
  increasing := by
    refine pairwise_append.mpr ⟨h.increasing, pairwise_singleton _ _, fun x hx y hy ↦ ?_⟩
    rw [mem_singleton.mp hy]
    exact h.lt_next x hx
  retained x hx := by
    rcases mem_append.mp hx with hx | hx
    · exact mem_append_left _ (h.retained x hx)
    · exact mem_append_right _ hx
  lt_next := forall_mem_concat (fun x hx ↦ Nat.lt_succ_of_lt (h.lt_next x hx)) (Nat.lt_succ_self _)

/-- Losing records, or moving anything but the stream, keeps the history right. -/
theorem Lane.HistInv.mono {a b : Lane} (h : a.HistInv) (hhist : b.hist = a.hist)
    (hnext : b.log.next = a.log.next) (hent : ∀ x ∈ b.log.entries, x ∈ a.log.entries) : b.HistInv where
  increasing := hhist ▸ h.increasing
  retained x hx := hhist ▸ h.retained x (hent x hx)
  lt_next x hx := hnext ▸ h.lt_next x (hhist ▸ hx)

/-! ### The chain of custody -/

section Custody

variable {cfg : Config} {st : Stream} {l l' : Lane} {batch fit : List ReplRecord} {n acked : ℕ}

/-- Behind `n`, every retained record that rises is in the batch, was confirmed, or is set aside. -/
def Lane.Carried (cfg : Config) (st : Stream) (l : Lane) (batch : List ReplRecord) (n acked : ℕ) :
    Prop :=
  ∀ x ∈ l.log.entries, cfg.rises st x.2 → x.1 < n →
    toRepl x ∈ batch ∨ x.1 ≤ acked ∨ l.IsSetAside x.1

/-- Behind `n`, every retained record that rises was confirmed or is set aside. -/
def Lane.Behind (cfg : Config) (st : Stream) (l : Lane) (n acked : ℕ) : Prop :=
  l.Carried cfg st [] n acked

theorem Lane.Behind.elim (h : l.Behind cfg st n acked) {x : ℕ × RecEnc} (hx : x ∈ l.log.entries)
    (hr : cfg.rises st x.2) (hlt : x.1 < n) : x.1 ≤ acked ∨ l.IsSetAside x.1 :=
  (h x hx hr hlt).resolve_left not_mem_nil

theorem Lane.Behind.intro
    (h : ∀ x ∈ l.log.entries, cfg.rises st x.2 → x.1 < n → x.1 ≤ acked ∨ l.IsSetAside x.1) :
    l.Behind cfg st n acked :=
  fun x hx hr hlt ↦ .inr (h x hx hr hlt)

/-- Custody below what the stream had handed out survives whatever the lane does. -/
theorem Lane.Carried.evolves (h : l.Carried cfg st batch n acked) (he : l.Evolves l')
    (hn : n ≤ l.log.next) : l'.Carried cfg st batch n acked := by
  intro x hx hr hlt
  rcases h x (he.log.mem_of_lt hx (hlt.trans_le hn)) hr hlt with hb | ha | hs
  · exact .inl hb
  · exact .inr (.inl ha)
  · exact .inr (.inr (he.setAside _ hs))

/-- A batch in hand: in offset order, below the position it moves the cursor to, made of records of
the stream, and with nothing left behind. -/
structure BatchInv (cfg : Config) (st : Stream) (l : Lane) (batch : List ReplRecord)
    (n acked : ℕ) : Prop where
  increasing : batch.Pairwise (·.childOffset < ·.childOffset)
  data : ∀ r ∈ batch, r.skipFrom = 0 → ∃ x ∈ l.hist, cfg.rises st x.2 ∧ r = toRepl x
  lt : ∀ r ∈ batch, r.childOffset < n
  le_next : n ≤ l.log.next
  carried : l.Carried cfg st batch n acked

theorem BatchInv.evolves (h : BatchInv cfg st l batch n acked) (he : l.Evolves l') :
    BatchInv cfg st l' batch n acked :=
  { h with
    data r hr hs := by
      obtain ⟨x, hx, hd⟩ := h.data r hr hs
      exact ⟨x, he.hist.subset hx, hd⟩
    le_next := h.le_next.trans he.log.next_le
    carried := h.carried.evolves he h.le_next }

/-- The records of a page that the lane may push. -/
def Config.pageRecords (cfg : Config) (st : Stream) (l : Lane) (start : ℕ) : List (ℕ × RecEnc) :=
  (l.log.page start replBatch).filter fun x ↦ cfg.mayPush st x.2.topic

/-- **Reading a page** at a position with nothing left behind. -/
theorem BatchInv.page (hh : l.HistInv) {start : ℕ} (hle : start ≤ l.log.next)
    (hb : l.Behind cfg st start acked) :
    BatchInv cfg st l (buildBatch st (cfg.pageRecords st l start))
      (l.log.pageNext start replBatch) acked := by
  have hpage : ∀ x ∈ cfg.pageRecords st l start,
      x ∈ l.log.page start replBatch ∧ cfg.mayPush st x.2.topic := fun x hx ↦
    mem_filter.mp hx
  have hspec : BatchOf st (cfg.pageRecords st l start)
      (buildBatch st (cfg.pageRecords st l start)) := by
    refine buildBatch_spec st ((l.log.page_increasing start replBatch).filter _) fun x hx ↦ ?_
    have := l.log.bounds x (OffsetLog.mem_of_mem_page (hpage x hx).1).1
    have := l.log.one_le_lwm
    omega
  refine ⟨hspec.increasing, fun r hr hs ↦ ?_, fun r hr ↦ ?_, OffsetLog.pageNext_le_next hle, ?_⟩
  · obtain ⟨x, hx, hl, rfl⟩ := hspec.data r hr hs
    obtain ⟨hxp, hmay⟩ := hpage x hx
    refine ⟨x, hh.retained x (OffsetLog.mem_of_mem_page hxp).1, ?_, rfl⟩
    simp [Config.rises, hmay, hl]
  · obtain ⟨x, hx, heq⟩ := hspec.offset r hr
    rw [← heq]
    exact OffsetLog.lt_pageNext (hpage x hx).1
  · intro x hx hr hlt
    rcases lt_or_ge x.1 start with hback | hfwd
    · exact .inr (hb.elim hx hr hback)
    · simp only [Config.rises, Bool.and_eq_true, Bool.not_eq_true'] at hr
      refine .inl (hspec.mem x (mem_filter.mpr ⟨?_, hr.1⟩) hr.2)
      exact OffsetLog.mem_page_of_lt hx hfwd hlt

/-- Where a batch cut to the prefix `fit` moves the cursor to. -/
def cutNext (batch fit : List ReplRecord) (next : ℕ) : ℕ :=
  if fit.length < batch.length then ((fit.getLast?.map ReplRecord.childOffset).getD 0) + 1 else next

/-- **Cutting a batch down** leaves nothing behind either: what was cut off lies ahead. -/
theorem BatchInv.cut (h : BatchInv cfg st l batch n acked) (hfit : fit <+: batch) (hne : fit ≠ []) :
    BatchInv cfg st l fit (cutNext batch fit n) acked := by
  obtain ⟨rest, rfl⟩ := hfit
  unfold cutNext
  split
  · -- the batch was cut behind its last record `r`
    obtain ⟨init, r, rfl⟩ : ∃ init r, fit = init ++ [r] :=
      ⟨_, _, (dropLast_append_getLast hne).symm⟩
    obtain ⟨hinc, -, hrest⟩ := pairwise_append.mp h.increasing
    have hle : ∀ r' ∈ init ++ [r], r'.childOffset < r.childOffset + 1 := by
      intro r' hr'
      rcases mem_append.mp hr' with hr' | hr'
      · exact Nat.lt_succ_of_lt ((pairwise_append.mp hinc).2.2 r' hr' r (by simp))
      · rw [mem_singleton.mp hr']
        exact Nat.lt_succ_self _
    have hrn : r.childOffset < n := h.lt r (by simp)
    simp only [getLast?_concat, Option.map_some, Option.getD_some]
    refine ⟨hinc, fun r' hr' ↦ h.data r' (mem_append_left _ hr'), hle,
      (Nat.succ_le_of_lt hrn).trans h.le_next, fun x hx hr hlt ↦ ?_⟩
    rcases h.carried x hx hr (by omega) with hb | hrest'
    · rcases mem_append.mp hb with hb | hb
      · exact .inl hb
      · have := hrest r (by simp) _ hb
        rw [toRepl_childOffset] at this
        omega
    · exact .inr hrest'
  · rename_i hlen
    have hnil : rest = [] := by
      rw [length_append] at hlen
      exact length_eq_zero_iff.mp (by omega)
    rw [hnil, append_nil] at h
    exact h

/-- **Confirming a batch**: behind its end everything is now confirmed. -/
theorem BatchInv.behind (h : BatchInv cfg st l batch n acked) {hwm : ℕ} (hacked : acked ≤ hwm)
    (hend : ∀ r ∈ batch, r.childOffset ≤ hwm) : l.Behind cfg st n hwm := by
  refine .intro fun x hx hr hlt ↦ ?_
  rcases h.carried x hx hr hlt with hb | ha | hs
  · exact .inl (hend _ hb)
  · exact .inl (ha.trans hacked)
  · exact .inr hs

end Custody

end Colca.Uplink
