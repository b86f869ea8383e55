import Colca.Store.OpenStore

/-!
# What holds of a store in operation

`Does` says what a step can do to a store: it writes a draft of additions, it moves scans, it commits a
removal, or it opens the store again. Every invariant is derived from that.

Offsets are never used twice, so what a scan has read of an offset is what stands there, or nothing
does (`Later.kept`). As long as neither the low-water mark nor the count of holes has moved, it is what
stands there (`Later.same`): this is why a prune and a compaction may go on with what they read, and an
eviction, which looks at the low-water mark only, may find that some of it is gone.
-/

namespace Colca.StoreRun

open Uns List Function Option WriteOp

variable {env : WriteEnv} {s s' : State} {st : Stream} {e : Event}

/-! ### What a scan has read -/

/-- Records read from a stream: at offsets the stream has handed out, each of them as it stands unless
it is gone. -/
structure Read (s : State) (st : Stream) (recs : List (ℕ × RecEnc)) : Prop where
  nodup : (recs.map Prod.fst).Nodup
  lt_next : ∀ x ∈ recs, x.1 < s.next st
  same : ∀ x ∈ recs, ∀ e, recordAt s.store.disk st x.1 = some e → e = x.2

/-- The scan knows no more than it may. -/
def Scan.Valid (s : State) : Scan → Prop
  | .prune st lwm holes read => lwm ≤ s.lwm st ∧ holes ≤ s.holes st ∧
    ∀ upTo recs, read = some (upTo, recs) → lwm < upTo ∧ upTo ≤ s.next st ∧
      (s.lwm st = lwm → s.holes st = holes → recs = recordsIn s.store.disk st lwm upTo)
  | .compact st next lwm holes read => lwm ≤ s.lwm st ∧ holes ≤ s.holes st ∧ next ≤ s.next st ∧
    ∀ recs, read = some recs →
      s.lwm st = lwm → s.holes st = holes → recs = recordsIn s.store.disk st lwm next
  | .evict st next _ read => next ≤ s.next st ∧ ∀ recs, read = some recs → Read s st recs
  | .signals st next _ iter visited found => next ≤ s.next st ∧
    (∀ d, iter = some d → ∀ id o e, (d (.sig st id o)).isSome → o < next →
      recordAt s.store.disk st o = some e → e.signalID = id) ∧
    (∀ x ∈ found, (x.1, x.2.1) ∈ visited ∧ x.2.2.signalID = x.1) ∧ Read s st (found.map Prod.snd)

/-- The store has gone on: offsets were handed out, records were removed, and nothing else. -/
structure Later (s s' : State) : Prop where
  next_le : ∀ st, s.next st ≤ s'.next st
  lwm_le : ∀ st, s.lwm st ≤ s'.lwm st
  holes_le : ∀ st, s.holes st ≤ s'.holes st
  kept : ∀ st o e, o < s.next st → recordAt s'.store.disk st o = some e →
    recordAt s.store.disk st o = some e
  same : ∀ st, s'.lwm st = s.lwm st → s'.holes st = s.holes st → ∀ o, o < s.next st →
    recordAt s'.store.disk st o = recordAt s.store.disk st o

/-- Scans do not bear on the store. -/
theorem Later.of_scans (s : State) (scans : ℕ → Option Scan) : Later s { s with scans := scans } :=
  ⟨fun _ ↦ le_rfl, fun _ ↦ le_rfl, fun _ ↦ le_rfl, fun _ _ _ _ h ↦ h, fun _ _ _ _ _ ↦ rfl⟩

theorem Read.later {recs : List (ℕ × RecEnc)} (h : Read s st recs) (hl : Later s s') : Read s' st recs where
  nodup := h.nodup
  lt_next x hx := (h.lt_next x hx).trans_le (hl.next_le st)
  same x hx e he := h.same x hx e (hl.kept st x.1 e (h.lt_next x hx) he)

/-- If neither mark has moved, what was read of a range is what stands there. -/
theorem Later.recordsIn_eq (hl : Later s s') {lwm holes lo hi : ℕ} {recs : List (ℕ × RecEnc)}
    (hlwm : lwm ≤ s.lwm st) (hholes : holes ≤ s.holes st) (hhi : hi ≤ s.next st)
    (h : s.lwm st = lwm → s.holes st = holes → recs = recordsIn s.store.disk st lo hi)
    (hlwm' : s'.lwm st = lwm) (hholes' : s'.holes st = holes) :
    recs = recordsIn s'.store.disk st lo hi := by
  have hl₁ : s.lwm st = lwm := le_antisymm (hlwm' ▸ hl.lwm_le st) hlwm
  have hl₂ : s.holes st = holes := le_antisymm (hholes' ▸ hl.holes_le st) hholes
  rw [h hl₁ hl₂]
  refine (recordsIn_congr fun o _ ho ↦ ?_).symm
  exact hl.same st (hlwm'.trans hl₁.symm) (hholes'.trans hl₂.symm) o (ho.trans_le hhi)

/-- What a scan knows stays true. -/
theorem Scan.Valid.later {x : Scan} (h : x.Valid s) (hl : Later s s') : x.Valid s' := by
  cases x with
  | prune st lwm holes read =>
    obtain ⟨hlwm, hholes, hread⟩ := h
    refine ⟨hlwm.trans (hl.lwm_le st), hholes.trans (hl.holes_le st), fun upTo recs heq ↦ ?_⟩
    obtain ⟨hlt, hle, hrecs⟩ := hread upTo recs heq
    exact ⟨hlt, hle.trans (hl.next_le st), hl.recordsIn_eq hlwm hholes hle hrecs⟩
  | compact st next lwm holes read =>
    obtain ⟨hlwm, hholes, hnext, hread⟩ := h
    exact ⟨hlwm.trans (hl.lwm_le st), hholes.trans (hl.holes_le st), hnext.trans (hl.next_le st),
      fun recs heq ↦ hl.recordsIn_eq hlwm hholes hnext (hread recs heq)⟩
  | evict st next lwm read =>
    obtain ⟨hnext, hread⟩ := h
    exact ⟨hnext.trans (hl.next_le st), fun recs heq ↦ (hread recs heq).later hl⟩
  | signals st next lwm iter visited found =>
    obtain ⟨hnext, hiter, hfound, hread⟩ := h
    refine ⟨hnext.trans (hl.next_le st), fun d hd id o e hkey ho he ↦ ?_, hfound, hread.later hl⟩
    exact hiter d hd id o e hkey ho (hl.kept st o e (ho.trans_le hnext) he)

/-! ### The invariant -/

/-- Every index entry is where it belongs, the marks of the indexes are up to date, and the scans in
flight know what they may. -/
structure Inv (s : State) : Prop where
  layout : Layout s.lwm s.sigFrom s.targetFrom s.next s.store.disk
  lwm_le : ∀ st, s.lwm st ≤ s.next st
  marked : ∀ st, st.isFixed → s.store.disk (.indexed st) = some (.num (s.next st))
  scans : ∀ i x, s.scans i = some x → x.Valid s

/-! ### Removals -/

/-- The removal an event commits, with the gap markers that go with it. -/
def removalOf (env : WriteEnv) (s : State) : Event → Option (Removal × List Record)
  | .commitPrune i floor gaps =>
    match s.scans i with
    | some (.prune st lwm holes (some (upTo, recs))) =>
      (pruneScanned env s st lwm holes upTo floor recs).map (·, gaps)
    | _ => none
  | .commitCompact i floor =>
    match s.scans i with
    | some (.compact st _ lwm holes (some recs)) =>
      (compactScanned env s st lwm holes floor recs).map (·, [])
    | _ => none
  | .commitEvict i =>
    match s.scans i with
    | some (.evict st _ lwm (some recs)) => (evictScanned env s st lwm recs).map (·, [])
    | _ => none
  | .flushSignals i floor doomed gaps =>
    match s.scans i with
    | some (.signals st _ _ _ _ found) =>
      (signalsScanned env s st floor (found.filter fun x ↦ doomed x.2.1)).map (·, gaps)
    | _ => none
  | _ => none

/-- A removal takes whole records, and what remains is at or above the mark it leaves. -/
structure Removal.Sound (s : State) (x : Removal) : Prop where
  whole : Gone.Whole s.store.disk x.stream x.gone
  lwm_le : s.lwm x.stream ≤ x.lwm
  le_next : x.lwm ≤ s.next x.stream
  above : ∀ o e, recordAt s.store.disk x.stream o = some e → .record o ∉ x.gone → x.lwm ≤ o
  /-- It is a prefix, or it is counted. -/
  moves : x.holes = false → s.lwm x.stream < x.lwm

section Sound

variable {recs : List (ℕ × RecEnc)} {lwm holes upTo floor o : ℕ} {id node : String} {x : Removal}

theorem mem_pruneGone_record : .record o ∈ pruneGone lwm upTo recs ↔ lwm ≤ o ∧ o < upTo := by
  have hrange : o ∈ List.range' lwm (upTo - lwm) ↔ lwm ≤ o ∧ o < upTo := by
    rw [mem_range'_1]
    omega
  rw [pruneGone, mem_append, List.mem_map]
  constructor
  · rintro (⟨o', ho', heq⟩ | hmem)
    · cases heq
      exact hrange.mp ho'
    · obtain ⟨y, -, hy⟩ := mem_flatMap.mp hmem
      rcases mem_append.mp hy with hy | hy <;> split at hy <;> simp at hy
  · exact fun h ↦ .inl ⟨o, hrange.mpr h, rfl⟩

theorem mem_pruneGone_sig :
    .sig id o ∈ pruneGone lwm upTo recs ↔ ∃ e, (o, e) ∈ recs ∧ e.signalID = id ∧ id ≠ "" := by
  rw [pruneGone, mem_append, List.mem_map]
  constructor
  · rintro (⟨_, -, heq⟩ | hmem)
    · cases heq
    · obtain ⟨y, hy, hsig⟩ := mem_flatMap.mp hmem
      rcases mem_append.mp hsig with hsig | hsig
      · split at hsig
        · cases hsig
        · rename_i hne
          cases mem_singleton.mp hsig
          exact ⟨y.2, hy, rfl, hne⟩
      · split at hsig <;> simp at hsig
  · rintro ⟨e, he, rfl, hne⟩
    refine .inr (mem_flatMap.mpr ⟨(o, e), he, mem_append_left _ ?_⟩)
    rw [if_neg hne]
    exact mem_singleton_self _

theorem mem_of_mem_pruneGone_target (h : .target node o ∈ pruneGone lwm upTo recs) :
    ∃ e, (o, e) ∈ recs := by
  rcases mem_append.mp h with h | h
  · obtain ⟨_, -, heq⟩ := List.mem_map.mp h
    cases heq
  · obtain ⟨y, hy, hmem⟩ := mem_flatMap.mp h
    rcases mem_append.mp hmem with hmem | hmem
    · split at hmem <;> simp at hmem
    · split at hmem
      · cases mem_singleton.mp hmem
        exact ⟨y.2, hy⟩
      · cases hmem

/-- What a prune commits describes the records that stand in the range it takes. -/
theorem pruneScanned_eq (hread : s.lwm st = lwm → s.holes st = holes →
      recs = recordsIn s.store.disk st lwm upTo)
    (h : pruneScanned env s st lwm holes upTo floor recs = some x) :
    s.lwm st = lwm ∧ min upTo floor ≤ s.next st ∧ lwm < min upTo floor ∧
      x = ⟨st, pruneGone lwm (min upTo floor) (recordsIn s.store.disk st lwm (min upTo floor)),
        shedOf env.codec st (recordsIn s.store.disk st lwm (min upTo floor)), min upTo floor, false⟩ := by
  unfold pruneScanned at h
  split at h
  · cases h
  · rename_i hsame
    push Not at hsame
    split at h
    · cases h
    · rename_i hlt
      refine ⟨hsame.1, (min_le_left _ _).trans hsame.2, Nat.lt_of_not_le hlt, ?_⟩
      rw [← some.inj h]
      by_cases hagain : min upTo floor ≠ upTo ∨ s.holes st ≠ holes
      · simp only [if_pos hagain]
      · simp only [if_neg hagain]
        push Not at hagain
        rw [hagain.1, hread hsame.1 hagain.2]

theorem pruneScanned_sound (hread : s.lwm st = lwm → s.holes st = holes →
      recs = recordsIn s.store.disk st lwm upTo) (hr : RecordsWithin s.lwm s.next s.store.disk)
    (h : pruneScanned env s st lwm holes upTo floor recs = some x) : x.Sound s := by
  obtain ⟨rfl, hnext, hlt, rfl⟩ := pruneScanned_eq hread h
  refine ⟨⟨fun o e ho he hne ↦ ?_, fun id o ho ↦ ?_, fun node o ho ↦ ?_⟩, hlt.le, hnext,
    fun o e he ho ↦ ?_, fun _ ↦ hlt⟩
  · obtain ⟨hlo, hhi⟩ := mem_pruneGone_record.mp ho
    exact mem_pruneGone_sig.mpr ⟨e, mem_recordsIn.mpr ⟨hlo, hhi, he⟩, rfl, hne⟩
  · obtain ⟨e, he, -⟩ := mem_pruneGone_sig.mp ho
    obtain ⟨hlo, hhi, -⟩ := mem_recordsIn.mp he
    exact mem_pruneGone_record.mpr ⟨hlo, hhi⟩
  · obtain ⟨e, he⟩ := mem_of_mem_pruneGone_target ho
    obtain ⟨hlo, hhi, -⟩ := mem_recordsIn.mp he
    exact mem_pruneGone_record.mpr ⟨hlo, hhi⟩
  · refine Nat.le_of_not_lt fun hhi ↦ ho (mem_pruneGone_record.mpr ⟨?_, hhi⟩)
    exact hr.lwm_le st o e he

theorem mem_goneOf_record : .record o ∈ recs.flatMap goneOf ↔ ∃ e, (o, e) ∈ recs := by
  rw [mem_flatMap]
  constructor
  · rintro ⟨y, hy, hmem⟩
    rcases mem_cons.mp hmem with heq | hmem
    · cases heq
      exact ⟨y.2, hy⟩
    · split at hmem <;> simp at hmem
  · rintro ⟨e, he⟩
    exact ⟨(o, e), he, mem_cons_self⟩

theorem mem_goneOf_sig :
    .sig id o ∈ recs.flatMap goneOf ↔ ∃ e, (o, e) ∈ recs ∧ e.signalID = id ∧ id ≠ "" := by
  rw [mem_flatMap]
  constructor
  · rintro ⟨y, hy, hmem⟩
    rcases mem_cons.mp hmem with heq | hmem
    · cases heq
    · split at hmem
      · cases hmem
      · rename_i hne
        cases mem_singleton.mp hmem
        exact ⟨y.2, hy, rfl, hne⟩
  · rintro ⟨e, he, rfl, hne⟩
    refine ⟨(o, e), he, mem_cons_of_mem _ ?_⟩
    rw [if_neg hne]
    exact mem_singleton_self _

theorem not_target_mem_goneOf : .target node o ∉ recs.flatMap goneOf := by
  intro h
  obtain ⟨y, -, hmem⟩ := mem_flatMap.mp h
  rcases mem_cons.mp hmem with heq | hmem
  · cases heq
  · split at hmem <;> simp at hmem

/-- Records go with their signal index entries. -/
theorem Read.whole (h : Read s st recs) : Gone.Whole s.store.disk st (recs.flatMap goneOf) where
  sig_of_record o e ho he hne := by
    obtain ⟨e', he'⟩ := mem_goneOf_record.mp ho
    obtain rfl : e = e' := h.same _ he' e he
    exact mem_goneOf_sig.mpr ⟨e, he', rfl, hne⟩
  record_of_sig id o ho := by
    obtain ⟨e, he, -⟩ := mem_goneOf_sig.mp ho
    exact mem_goneOf_record.mpr ⟨e, he⟩
  record_of_target node o ho := absurd ho not_target_mem_goneOf

theorem Read.sublist {recs' : List (ℕ × RecEnc)} (h : Read s st recs) (hs : recs'.Sublist recs) :
    Read s st recs' where
  nodup := h.nodup.sublist (hs.map _)
  lt_next x hx := h.lt_next x (hs.subset hx)
  same x hx := h.same x (hs.subset hx)

theorem read_recordsIn {lo hi : ℕ} (h : hi ≤ s.next st) : Read s st (recordsIn s.store.disk st lo hi) where
  nodup := by
    refine List.Pairwise.map _ (fun a b hab ↦ ?_) (recordsIn_increasing s.store.disk st lo hi)
    exact hab.ne
  lt_next x hx := (mem_recordsIn.mp hx).2.1.trans_le h
  same x hx e he := some.inj (he.symm.trans (mem_recordsIn.mp hx).2.2)

/-- A removal that leaves the low-water mark. -/
theorem Removal.Sound.of_holes {gone : List Gone} {shed : ℕ} (hi : Inv s)
    (hw : Gone.Whole s.store.disk st gone) : Removal.Sound s ⟨st, gone, shed, s.lwm st, true⟩ where
  whole := hw
  lwm_le := le_rfl
  le_next := hi.lwm_le st
  above o e he _ := hi.layout.records.lwm_le st o e he
  moves := nofun

theorem compactScanned_eq (h : compactScanned env s st lwm holes floor recs = some x) :
    s.lwm st = lwm ∧ s.holes st = holes ∧
      x = ⟨st, (recs.filter (KeyedLog.drops RecEnc.topic isRetraction recs floor)).flatMap goneOf,
        shedOf env.codec st (recs.filter (KeyedLog.drops RecEnc.topic isRetraction recs floor)), lwm,
        true⟩ := by
  unfold compactScanned at h
  split at h
  · cases h
  · rename_i hsame
    push Not at hsame
    simp only at h
    split at h
    · cases h
    · exact ⟨hsame.1, hsame.2, (some.inj h).symm⟩

theorem evictScanned_eq (h : evictScanned env s st lwm recs = some x) :
    s.lwm st = lwm ∧ x = ⟨st, recs.flatMap goneOf, shedOf env.codec st recs, lwm, true⟩ := by
  unfold evictScanned at h
  split at h
  · cases h
  · rename_i hsame
    push Not at hsame
    exact ⟨hsame.1, (some.inj h).symm⟩

theorem signalsScanned_eq {doomed : List (String × ℕ × RecEnc)}
    (h : signalsScanned env s st floor doomed = some x) :
    x = ⟨st, (flushed s st floor doomed).flatMap fun y ↦ [.record y.2.1, .sig y.1 y.2.1],
      shedOf env.codec st ((flushed s st floor doomed).map Prod.snd), s.lwm st, true⟩ := by
  unfold signalsScanned at h
  split at h
  · cases h
  · exact (some.inj h).symm

/-- The records per-signal retention deletes go with the index entries it found them under. -/
theorem Read.whole_signals {found : List (String × ℕ × RecEnc)} (h : Read s st (found.map Prod.snd))
    (hid : ∀ x ∈ found, x.2.2.signalID = x.1) :
    Gone.Whole s.store.disk st (found.flatMap fun y ↦ [.record y.2.1, .sig y.1 y.2.1]) where
  sig_of_record o e ho he _ := by
    obtain ⟨y, hy, hmem⟩ := mem_flatMap.mp ho
    obtain rfl : o = y.2.1 := by simpa using hmem
    obtain rfl : e = y.2.2 := h.same _ (mem_map_of_mem hy) e he
    exact mem_flatMap.mpr ⟨y, hy, by simp [hid y hy]⟩
  record_of_sig id o ho := by
    obtain ⟨y, hy, hmem⟩ := mem_flatMap.mp ho
    obtain ⟨-, rfl⟩ : id = y.1 ∧ o = y.2.1 := by simpa using hmem
    exact mem_flatMap.mpr ⟨y, hy, mem_cons_self⟩
  record_of_target node o ho := by
    obtain ⟨y, -, hmem⟩ := mem_flatMap.mp ho
    simp at hmem

theorem flushed_sublist (s : State) (st : Stream) (floor : ℕ) (doomed : List (String × ℕ × RecEnc)) :
    (flushed s st floor doomed).Sublist doomed := filter_sublist

/-- Where a removal comes from. -/
theorem removalOf_cases {gaps : List Record} (h : removalOf env s e = some (x, gaps)) :
    (∃ i floor st lwm holes upTo recs, e = .commitPrune i floor gaps ∧
      s.scans i = some (.prune st lwm holes (some (upTo, recs))) ∧
      pruneScanned env s st lwm holes upTo floor recs = some x) ∨
    (∃ i floor st next lwm holes recs, e = .commitCompact i floor ∧ gaps = [] ∧
      s.scans i = some (.compact st next lwm holes (some recs)) ∧
      compactScanned env s st lwm holes floor recs = some x) ∨
    (∃ i st next lwm recs, e = .commitEvict i ∧ gaps = [] ∧
      s.scans i = some (.evict st next lwm (some recs)) ∧ evictScanned env s st lwm recs = some x) ∨
    (∃ i floor doomed st next lwm iter visited found, e = .flushSignals i floor doomed gaps ∧
      s.scans i = some (.signals st next lwm iter visited found) ∧
      signalsScanned env s st floor (found.filter fun y ↦ doomed y.2.1) = some x) := by
  cases e with
  | commitPrune i floor gaps' =>
    simp only [removalOf] at h
    split at h
    · rename_i hscan
      obtain ⟨y, hy, heq⟩ := map_eq_some_iff.mp h
      cases heq
      exact .inl ⟨i, floor, _, _, _, _, _, rfl, hscan, hy⟩
    · cases h
  | commitCompact i floor =>
    simp only [removalOf] at h
    split at h
    · rename_i hscan
      obtain ⟨y, hy, heq⟩ := map_eq_some_iff.mp h
      cases heq
      exact .inr (.inl ⟨i, floor, _, _, _, _, _, rfl, rfl, hscan, hy⟩)
    · cases h
  | commitEvict i =>
    simp only [removalOf] at h
    split at h
    · rename_i hscan
      obtain ⟨y, hy, heq⟩ := map_eq_some_iff.mp h
      cases heq
      exact .inr (.inr (.inl ⟨i, _, _, _, _, rfl, rfl, hscan, hy⟩))
    · cases h
  | flushSignals i floor doomed gaps' =>
    simp only [removalOf] at h
    split at h
    · rename_i hscan
      obtain ⟨y, hy, heq⟩ := map_eq_some_iff.mp h
      cases heq
      exact .inr (.inr (.inr ⟨i, floor, doomed, _, _, _, _, _, _, rfl, hscan, hy⟩))
    · cases h
  | _ => cases h

/-- **Whatever an event removes, it removes whole.** -/
theorem Inv.sound {gaps : List Record} (hi : Inv s) (h : removalOf env s e = some (x, gaps)) :
    x.Sound s := by
  obtain ⟨i, floor, st, lwm, holes, upTo, recs, -, hscan, hx⟩ |
    ⟨i, floor, st, next, lwm, holes, recs, -, -, hscan, hx⟩ |
    ⟨i, st, next, lwm, recs, -, -, hscan, hx⟩ |
    ⟨i, floor, doomed, st, next, lwm, iter, visited, found, -, hscan, hx⟩ := removalOf_cases h
  · obtain ⟨-, -, hread⟩ := hi.scans i _ hscan
    exact pruneScanned_sound (hread upTo recs rfl).2.2 hi.layout.records hx
  · obtain ⟨rfl, hholes, rfl⟩ := compactScanned_eq hx
    obtain ⟨-, -, hnext, hread⟩ := hi.scans i _ hscan
    have hrecs : Read s st recs := hread recs rfl rfl hholes ▸ read_recordsIn hnext
    exact .of_holes hi (hrecs.sublist filter_sublist).whole
  · obtain ⟨rfl, rfl⟩ := evictScanned_eq hx
    exact .of_holes hi ((hi.scans i _ hscan).2 recs rfl).whole
  · rw [signalsScanned_eq hx]
    obtain ⟨-, -, hfound, hread⟩ := hi.scans i _ hscan
    have hsub := (flushed_sublist s st floor (found.filter fun y ↦ doomed y.2.1)).trans
      filter_sublist
    exact .of_holes hi ((hread.sublist (hsub.map _)).whole_signals
      fun y hy ↦ (hfound y (hsub.subset hy)).2)

end Sound

/-! ### What a step does -/

/-- What a step does to a store. The scans it leaves were valid before it. -/
inductive Does (env : WriteEnv) (s : State) (e : Event) : State → Prop
  | wrote {store : Store} {b : Draft} : s.store.draft.Adds env.codec b → s.store.Wrote store b →
    Does env s e (s.wrote store b)
  | scanned {scans : ℕ → Option Scan} : (∀ i x, scans i = some x → x.Valid s) →
    Does env s e { s with scans := scans }
  | removed {scans : ℕ → Option Scan} {x : Removal} {gaps : List Record} :
    removalOf env s e = some (x, gaps) → (∀ i x, scans i = some x → x.Valid s) →
    Does env s e { s.remove env x gaps with scans := scans }
  | reopened : e = .reopen → Does env s e s.reopen

section Writes

variable {st : Store} {b : Draft} {op : WriteOp}

theorem appendLocked_adds {stream : Stream} {recs : List Record}
    (h : appendLocked env st stream recs = some b) : st.draft.Adds env.codec b := by
  unfold appendLocked at h
  split at h
  · obtain ⟨recs', -, rfl⟩ := map_eq_some_iff.mp h
    exact Draft.adds_addAll _ _
  · cases h

/-- Every write path adds records and retires entries. -/
theorem WriteOp.draft_adds (h : op.draft env st = some b) : st.draft.Adds env.codec b := by
  cases op with
  | append group =>
    simp only [draft, commitAppendBatch] at h
    split at h
    · cases h
    · cases h
      exact Draft.adds_addAll _ _
  | appendAdvancing stream recs => exact appendLocked_adds h
  | applyReplicated group =>
    cases h
    exact Draft.adds_addAll _ _
  | appendIfKVUnchanged stream r off =>
    simp only [draft, Colca.appendIfKVUnchanged] at h
    split at h
    · cases h
    · split at h
      · split at h
        · exact appendLocked_adds h
        · cases h
      · cases h
  | moveRetained stream moves tomb =>
    simp only [draft, Colca.moveRetained] at h
    split at h
    · cases h
    · exact appendLocked_adds h
  | registryPut stream r =>
    simp only [draft, Colca.registryPut] at h
    split at h
    · cases h
      exact Draft.adds_addAll _ _
    · cases h
  | registryDelete stream r also =>
    simp only [draft, Colca.registryDelete] at h
    split at h
    · cases h
      exact (Draft.adds_addAll _ _).trans (Draft.adds_retireOf _ _)
    · cases h
  | registryRetire stream r also chosen ts child =>
    simp only [draft, Colca.registryRetire] at h
    split at h
    · split at h
      · cases h
        exact (Draft.adds_addAll _ _).trans (Draft.adds_retireOf _ _)
      · cases h
    · cases h

/-- Every write path commits its draft. -/
theorem WriteOp.commit_wrote (h : op.draft env st = some b) : st.Wrote (op.commit env st b) b := by
  cases op with
  | applyReplicated group =>
    cases h
    exact commitReplicated_wrote env.codec st group
  | registryRetire _ _ _ _ _ child => exact (st.commit_wrote b).dropMarks child
  | _ => exact st.commit_wrote b

theorem evictKVDraft_adds (st : Store) (keys : List KVKey) :
    st.draft.Adds env.codec (evictKVDraft st keys) := by
  have hfold : ∀ b : Draft, b.Adds env.codec (keys.foldl Draft.evict b) := by
    induction keys with
    | nil => exact fun b ↦ .refl
    | cons k keys ih => exact fun b ↦ (Draft.Adds.refl.evict k).trans (ih _)
  exact hfold _

end Writes

section Steps

/-- Putting a valid scan among valid ones. -/
theorem Inv.put (hi : Inv s) {i : ℕ} {x : Scan} (hx : x.Valid s) :
    ∀ j y, update s.scans i (some x) j = some y → y.Valid s := by
  intro j y hy
  by_cases hj : j = i
  · subst hj
    rw [update_self] at hy
    exact some.inj hy ▸ hx
  · rw [update_of_ne hj] at hy
    exact hi.scans j y hy

theorem Inv.drop (hi : Inv s) (i : ℕ) : ∀ j y, update s.scans i none j = some y → y.Valid s := by
  intro j y hy
  by_cases hj : j = i
  · subst hj
    rw [update_self] at hy
    cases hy
  · rw [update_of_ne hj] at hy
    exact hi.scans j y hy

theorem Scan.begin_valid (s : State) (st : Stream) (kind : Kind) : (Scan.begin_ s st kind).Valid s := by
  cases kind with
  | prune => exact ⟨le_rfl, le_rfl, nofun⟩
  | compact => exact ⟨le_rfl, le_rfl, le_rfl, nofun⟩
  | evict => exact ⟨le_rfl, nofun⟩
  | signals => exact ⟨le_rfl, nofun, nofun, ⟨nodup_nil, nofun, nofun⟩⟩

theorem State.removeOr_scans (s : State) (x : Option Removal) (gaps : List Record) :
    (s.removeOr env x gaps).scans = s.scans := by
  cases x <;> rfl

/-- The commit of a removal, or of nothing, with the scans it leaves. -/
theorem Does.removeOr {scans : ℕ → Option Scan} {x : Option Removal} {gaps : List Record}
    (hscans : ∀ i y, scans i = some y → y.Valid s)
    (hx : ∀ y, x = some y → removalOf env s e = some (y, gaps)) :
    Does env s e { s.removeOr env x gaps with scans := scans } := by
  cases x with
  | none => exact .scanned hscans
  | some y => exact .removed (hx y rfl) hscans

/-- A visit of per-signal retention: the same offset is not found twice. -/
theorem Scan.Valid.visit {st : Stream} {next lwm off : ℕ} {d : Disk} {visited : List (String × ℕ)}
    {found : List (String × ℕ × RecEnc)} {signalID : String}
    (h : (Scan.signals st next lwm (some d) visited found).Valid s)
    (hkey : (d (.sig st signalID off)).isSome) (hlt : off < next) (hnew : (signalID, off) ∉ visited) :
    (Scan.signals st next lwm (some d) ((signalID, off) :: visited) (match recordAt s.store.disk st off with
        | some e => (signalID, off, e) :: found
        | none => found)).Valid s := by
  obtain ⟨hnext, hiter, hfound, hread⟩ := h
  have hold : ∀ x ∈ found, (x.1, x.2.1) ∈ (signalID, off) :: visited ∧ x.2.2.signalID = x.1 :=
    fun x hx ↦ ⟨mem_cons_of_mem _ (hfound x hx).1, (hfound x hx).2⟩
  refine ⟨hnext, hiter, ?_, ?_⟩
  · split
    · rename_i e he
      intro x hx
      rcases mem_cons.mp hx with rfl | hx
      · exact ⟨mem_cons_self, hiter d rfl signalID off e hkey hlt he⟩
      · exact hold x hx
    · exact hold
  · split
    · rename_i e he
      refine ⟨nodup_cons.mpr ⟨fun hmem ↦ ?_, hread.nodup⟩, fun x hx ↦ ?_, fun x hx ↦ ?_⟩
      · -- found before at this offset: the same record, so under the same signal
        rw [List.map_map] at hmem
        obtain ⟨y, hy, hoff⟩ := List.mem_map.mp hmem
        have hoff : y.2.1 = off := hoff
        have hey : e = y.2.2 := hread.same y.2 (mem_map_of_mem hy) e (hoff ▸ he)
        have hid : y.1 = signalID := by
          rw [← (hfound y hy).2, ← hey]
          exact hiter d rfl signalID off e hkey hlt he
        refine hnew ?_
        rw [← hid, ← hoff]
        exact (hfound y hy).1
      · rcases mem_cons.mp hx with rfl | hx
        · exact hlt.trans_le hnext
        · exact hread.lt_next x hx
      · rcases mem_cons.mp hx with rfl | hx
        · exact fun e' he' ↦ some.inj (he'.symm.trans he)
        · exact hread.same x hx
    · exact hread

/-- **What a step can do.** -/
theorem Inv.does (hi : Inv s) (h : step env s e = some s') : Does env s e s' := by
  have hstay : Does env s e s := .scanned hi.scans
  cases e with
  | write op ok =>
    simp only [step] at h
    split at h
    · rename_i b hb
      cases h
      split
      · exact .wrote (draft_adds hb) (commit_wrote hb)
      · exact hstay
    · cases h
      exact hstay
  | adoptChildStore child =>
    have hw : s.store.Wrote s.store s.store.draft :=
      ⟨rfl, rfl, fun _ _ ↦ rfl, fun _ _ ↦ (if_pos rfl).symm⟩
    have heq : s' = s.wrote (s.store.dropMarks child) s.store.draft := by
      rw [State.wrote, show s.store.draft.changes = [] from rfl, append_nil]
      exact (some.inj h).symm
    rw [heq]
    exact .wrote .refl (hw.dropMarks child)
  | evictKV keys =>
    cases h
    exact .wrote (evictKVDraft_adds _ _) (Store.commit_wrote _ _)
  | begin_ i kind st =>
    simp only [step] at h
    split at h
    · cases h
      exact .scanned (hi.put (Scan.begin_valid s st kind))
    · cases h
  | readPrune i upTo =>
    simp only [step] at h
    split at h
    · rename_i st lwm holes hscan
      split at h
      · rename_i hguard
        cases h
        obtain ⟨hlwm, hholes, -⟩ := hi.scans i _ hscan
        refine .scanned (hi.put ⟨hlwm, hholes, fun upTo' recs heq ↦ ?_⟩)
        cases heq
        exact ⟨hguard.1, hguard.2, fun _ _ ↦ rfl⟩
      · cases h
    · cases h
  | readCompact i =>
    simp only [step] at h
    split at h
    · rename_i st next lwm holes hscan
      cases h
      obtain ⟨hlwm, hholes, hnext, -⟩ := hi.scans i _ hscan
      refine .scanned (hi.put ⟨hlwm, hholes, hnext, fun recs heq _ _ ↦ ?_⟩)
      cases heq
      rfl
    · cases h
  | readEvict i start maxScan doomed =>
    simp only [step] at h
    split at h
    · rename_i st next lwm hscan
      cases h
      have hnext := (hi.scans i _ hscan).1
      refine .scanned (hi.put ⟨hnext, fun recs heq ↦ ?_⟩)
      cases heq
      exact (read_recordsIn hnext).sublist (filter_sublist.trans (take_sublist _ _))
    · cases h
  | openIter i =>
    simp only [step] at h
    split at h
    · rename_i st next lwm visited found hscan
      cases h
      obtain ⟨hnext, -, hfound, hread⟩ := hi.scans i _ hscan
      refine .scanned (hi.put ⟨hnext, fun d hd id o e hkey _ he ↦ ?_, hfound, hread⟩)
      cases hd
      exact hi.layout.sig.names st id o e hkey he
    · cases h
  | visit i signalID off =>
    simp only [step] at h
    split at h
    · rename_i st next lwm d visited found hscan
      split at h
      · rename_i hguard
        cases h
        obtain ⟨hkey, -, hlt, hnew⟩ := hguard
        exact .scanned (hi.put ((hi.scans i _ hscan).visit hkey hlt hnew))
      · cases h
    · cases h
  | commitPrune i _ _ | commitCompact i _ | commitEvict i =>
    simp only [step] at h
    split at h
    · rename_i hscan
      cases h
      rw [State.drop, State.removeOr_scans]
      refine Does.removeOr (hi.drop i) fun y hy ↦ ?_
      simp [removalOf, hscan, hy]
    · cases h
  | flushSignals i floor doomed gaps =>
    simp only [step] at h
    split at h
    · rename_i st next lwm iter visited found hscan
      cases h
      obtain ⟨hnext, hiter, hfound, hread⟩ := hi.scans i _ hscan
      have hsub : (found.filter fun x ↦ !doomed x.2.1).Sublist found := filter_sublist
      have hrest : (Scan.signals st next lwm iter visited (found.filter fun x ↦ !doomed x.2.1)).Valid s :=
        ⟨hnext, hiter, fun x hx ↦ hfound x (hsub.subset hx), hread.sublist (hsub.map _)⟩
      rw [State.put, State.removeOr_scans]
      refine Does.removeOr (hi.put hrest) fun y hy ↦ ?_
      simp [removalOf, hscan, hy]
    · cases h
  | abandon i =>
    cases h
    exact .scanned (hi.drop i)
  | reopen =>
    cases h
    exact .reopened rfl

end Steps

end Colca.StoreRun
