import Colca.Lib.Smallest
import Colca.Store.ReadPage

/-!
# The rounds of a read through the signal index

`ReadSignals` does not merge the index ranges of its signals. It goes through them one after the other
and keeps the smallest offsets, `want` of them and one more, visits the records at these offsets, and
starts another round with a larger `want` if the page is not full and an entry is left.

None of this shows in the page: a round visits the entries in the order in which one scan over all of
them would, and stops where that scan stops (`signalRounds_eq`). This rests on an offset having an entry
under one signal only: the heap would hold it twice, and the read would return its record twice.
-/

namespace Colca

open Uns List PageScan

/-- The index entries of a signal in `[lo, hi)`. -/
def sigOffsets (d : Disk) (st : Stream) (lo hi : ℕ) (id : String) : List ℕ :=
  (List.range' lo (hi - lo)).filter fun o ↦ (d (.sig st id o)).isSome

/-- The heap of `smallestSigOffsets`, signal by signal. -/
def collectOffsets (d : Disk) (st : Stream) (lo head n : ℕ) : List ℕ → List String → List ℕ
  | top, [] => top
  | top, id :: ids =>
    if top.length = n then
      -- the offsets are `lo .. lo + n - 1`: none smaller is left
      if top.headD head - lo < n then top
      else collectOffsets d st lo head n
        (heapOffer n top (sigOffsets d st lo (top.headD head) id)) ids
    else collectOffsets d st lo head n (heapOffer n top (sigOffsets d st lo head id)) ids

/-- `smallestSigOffsets`: the `n` smallest offsets in `[lo, head)` that the index holds for any of the
signals, in increasing order. -/
def smallestSigOffsets (d : Disk) (st : Stream) (signals : List String) (lo head n : ℕ) : List ℕ :=
  (collectOffsets d st lo head n [] signals).reverse

/-- How the visits of a round end. -/
inductive Visited
  /-- At a record that does not fit. -/
  | bytes (out : List (ℕ × RecEnc)) (off : ℕ)
  /-- With the page full, or with the round; some of its offsets may be left. -/
  | done (s : PageScan RecEnc) (left : Bool)

/-- Visit the records at the offsets of a round. -/
def visitOffsets (L : PageLimits RecEnc) (accepts : ℕ × RecEnc → Bool) (d : Disk) (st : Stream) :
    PageScan RecEnc → List ℕ → Visited
  | s, [] => .done s false
  | s, o :: os =>
    match pickEntry accepts (o, recordAt d st o) with
    | none => visitOffsets L accepts d st (s.pass o) os
    | some e =>
      if s.fits L e then
        if (s.take L o e).out.length = L.limit then .done (s.take L o e) (!os.isEmpty)
        else visitOffsets L accepts d st (s.take L o e) os
      else .bytes s.out o

/-- The most offsets a round holds. -/
def maxSigRound : ℕ := 65536

/-- How many entries the next round may visit. -/
def roundBudget (L : PageLimits RecEnc) (s : PageScan RecEnc) : ℕ :=
  if 0 < L.maxScan then min maxSigRound (L.maxScan - s.scanned) else maxSigRound

/-- How many entries the next round visits. -/
def roundWant (L : PageLimits RecEnc) (want : ℕ) (s : PageScan RecEnc) : ℕ :=
  min (max want (L.limit - s.out.length)) (roundBudget L s)

/-- The rounds of `ReadSignals`. -/
def signalRounds (L : PageLimits RecEnc) (accepts : ℕ × RecEnc → Bool) (d : Disk) (st : Stream)
    (signals : List String) (lwm head : ℕ) : ℕ → ℕ → PageScan RecEnc → Option PageOut
  | 0, _, _ => none
  | fuel + 1, want, s =>
    if s.full L then some (s.out, s.next)
    else
      let want := roundWant L want s
      let offs := smallestSigOffsets d st signals (max s.next lwm) head (want + 1)
      match visitOffsets L accepts d st s (offs.take want) with
      | .bytes out off => some (out, off)
      | .done s left =>
        if want < offs.length ∨ left then
          signalRounds L accepts d st signals lwm head fuel (want * 4) s
        else some (s.out, head)

/-- The signals in the order of their keys, each once. -/
def wantedSignals (signals : List String) : List String := (signals.insertionSort (· ≤ ·)).dedup

/-- The part of `ReadSignals` that goes through the index. -/
def readRounds (L : PageLimits RecEnc) (accepts : ℕ × RecEnc → Bool) (d : Disk) (st : Stream)
    (signals : List String) (lwm head : ℕ) (s : PageScan RecEnc) : Option PageOut :=
  if head ≤ s.next then some (s.out, s.next)
  else signalRounds L accepts d st (wantedSignals signals) lwm head (head + 1)
    (L.limit - s.out.length) s

/-- `ReadSignals`, with its rounds. -/
def readSignalsByRounds (L : PageLimits RecEnc) (accepts : ℕ × RecEnc → Bool) (d : Disk) (st : Stream)
    (signals : List String) (covered lwm start head : ℕ) : Option PageOut :=
  if start < covered then
    let r := PageScan.run L (pickRecord accepts) { next := start }
      (recordsIn d st start (min covered head))
    if r.left ∨ L.limit ≤ r.out.length ∨ head ≤ covered then some (r.out, r.next)
    else readRounds L accepts d st signals lwm head { r with next := covered }
  else readRounds L accepts d st signals lwm head { next := start }

/-! ### The offsets of a round -/

variable {L : PageLimits RecEnc} {accepts : ℕ × RecEnc → Bool} {d : Disk} {st : Stream}
  {signals : List String} {lo hi lwm head n : ℕ} {s s' : PageScan RecEnc}

variable {fuel want : ℕ} {top : List ℕ} {id : String} {o : ℕ}

theorem mem_sigOffsets : o ∈ sigOffsets d st lo hi id ↔ lo ≤ o ∧ o < hi ∧ (d (.sig st id o)).isSome := by
  rw [sigOffsets, mem_filter, mem_range'_1]
  constructor
  · rintro ⟨⟨hlo, hhi⟩, hsome⟩
    exact ⟨hlo, by omega, hsome⟩
  · rintro ⟨hlo, hhi, hsome⟩
    exact ⟨⟨hlo, by omega⟩, hsome⟩

theorem sigOffsets_increasing (id : String) : (sigOffsets d st lo hi id).Pairwise (· < ·) :=
  (pairwise_lt_range' (s := lo) (n := hi - lo)).filter _

/-- From `lo` on, an offset has an entry under one signal at most. -/
def OneSignal (d : Disk) (st : Stream) (lo : ℕ) : Prop :=
  ∀ o id id', lo ≤ o → (d (.sig st id o)).isSome → (d (.sig st id' o)).isSome → id = id'

theorem OneSignal.mono (h : OneSignal d st lo) (hle : lo ≤ hi) : OneSignal d st hi :=
  fun o id id' ho ↦ h o id id' (hle.trans ho)

/-- `n` different numbers from `lo` on that do not reach `lo + n` are all of these. -/
theorem mem_of_dense (hnodup : top.Nodup) (hlo : ∀ a ∈ top, lo ≤ a)
    (hhi : ∀ a ∈ top, a < lo + top.length) (ho : lo ≤ o) (hlt : o < lo + top.length) : o ∈ top := by
  have hsub : top ⊆ List.range' lo top.length := fun a ha ↦
    mem_range'_1.mpr ⟨hlo a ha, hhi a ha⟩
  have hperm : top.Perm (List.range' lo top.length) :=
    (subperm_of_subset hnodup hsub).perm_of_length_le (by rw [length_range'])
  exact hperm.mem_iff.mpr (mem_range'_1.mpr ⟨ho, hlt⟩)

/-- **The heap holds the smallest offsets.** -/
theorem isSmallest_collectOffsets {A : ℕ → Prop} {ids : List String}
    (hone : OneSignal d st lo) (hnodup : ids.Nodup) (h : IsSmallest n A top)
    (hA : ∀ o, A o → lo ≤ o ∧ o < head) (hnew : ∀ id ∈ ids, ∀ o ∈ sigOffsets d st lo head id, ¬ A o) :
    IsSmallest n (fun o ↦ A o ∨ ∃ id ∈ ids, o ∈ sigOffsets d st lo head id)
      (collectOffsets d st lo head n top ids) := by
  induction ids generalizing A top with
  | nil => exact h.congr fun o ↦ by simp
  | cons id ids ih =>
    obtain ⟨hid, hnodup⟩ := nodup_cons.mp hnodup
    -- once the offsets of this signal are in, those of the others are still new
    have hnew' : ∀ id' ∈ ids, ∀ o ∈ sigOffsets d st lo head id',
        ¬ (A o ∨ o ∈ sigOffsets d st lo head id) := by
      rintro id' hid' o ho (hao | hoid)
      · exact hnew id' (mem_cons_of_mem _ hid') o ho hao
      · obtain ⟨hle, -, hsome⟩ := mem_sigOffsets.mp ho
        have heq : id = id' := hone o id id' hle (mem_sigOffsets.mp hoid).2.2 hsome
        exact hid (heq ▸ hid')
    have hA' : ∀ o, (A o ∨ o ∈ sigOffsets d st lo head id) → lo ≤ o ∧ o < head := fun o ho ↦
      ho.elim (hA o) fun ho ↦ ⟨(mem_sigOffsets.mp ho).1, (mem_sigOffsets.mp ho).2.1⟩
    have hset : ∀ o, (A o ∨ ∃ id' ∈ id :: ids, o ∈ sigOffsets d st lo head id') ↔
        ((A o ∨ o ∈ sigOffsets d st lo head id) ∨ ∃ id' ∈ ids, o ∈ sigOffsets d st lo head id') := by
      intro o
      rw [exists_mem_cons_iff, or_assoc]
    have hthis : ∀ o ∈ sigOffsets d st lo head id, ¬ A o := hnew id mem_cons_self
    rw [collectOffsets]
    split
    · rename_i hfull
      -- a new offset past the top leaves the heap as it is
      have hpast : ∀ o, ¬ A o → top.headD head ≤ o → ∀ a ∈ top, a < o := fun o ho hle a ha ↦
        lt_of_le_of_ne ((h.le_headD head a ha).trans hle) fun heq ↦ ho (heq ▸ h.mem a ha)
      split
      · rename_i hdense
        refine h.skip hfull ?_
        rintro o ⟨id', hid', ho⟩
        have hno : ¬ A o := hnew id' hid' o ho
        have hle : ∀ b ∈ top, lo ≤ b := fun b hb ↦ (hA b (h.mem b hb)).1
        have hnot : ¬ o < lo + top.length := by
          intro hlt
          refine hno (h.mem o ?_)
          refine mem_of_dense (h.decreasing.imp ne_of_gt) hle (fun b hb ↦ ?_) (mem_sigOffsets.mp ho).1 hlt
          have := h.le_headD head b hb
          have := hle b hb
          omega
        exact hpast o hno (by omega)
      · -- the entries that are not looked at lie past the top
        have hskip := h.skip (B := fun o ↦ o ∈ sigOffsets d st lo head id ∧ top.headD head ≤ o) hfull
          fun o ho ↦ hpast o (hthis o ho.1) ho.2
        have hmem : ∀ o, o ∈ sigOffsets d st lo (top.headD head) id ↔
            o ∈ sigOffsets d st lo head id ∧ o < top.headD head := by
          have hle : top.headD head ≤ head := h.headD_le fun a ha ↦ (hA a ha).2.le
          intro o
          rw [mem_sigOffsets, mem_sigOffsets]
          constructor
          · exact fun ⟨hlo, hlt, hsome⟩ ↦ ⟨⟨hlo, hlt.trans_le hle, hsome⟩, hlt⟩
          · exact fun ⟨⟨hlo, _, hsome⟩, hlt⟩ ↦ ⟨hlo, hlt, hsome⟩
        have hinc : (sigOffsets d st lo (top.headD head) id).Pairwise (· < ·) := sigOffsets_increasing id
        have hoffer := hskip.offer hinc fun o ho hold ↦
          hold.elim (hthis o ((hmem o).mp ho).1) fun hold ↦ hold.2.not_gt ((hmem o).mp ho).2
        refine (ih hnodup (hoffer.congr fun o ↦ ?_) hA' hnew').congr hset
        rw [hmem, or_assoc, ← and_or_left, and_iff_left (le_or_gt _ _)]
    · exact (ih hnodup (h.offer (sigOffsets_increasing id) hthis) hA' hnew').congr hset

/-- **The offsets of a round** are the first of the index entries. -/
theorem smallestSigOffsets_eq (hone : OneSignal d st lo) (hnodup : signals.Nodup) :
    smallestSigOffsets d st signals lo head n =
      ((sigEntries d st signals lo head).map Prod.fst).take n := by
  have h : IsSmallest n (fun o ↦ False ∨ ∃ id ∈ signals, o ∈ sigOffsets d st lo head id)
      (collectOffsets d st lo head n [] signals) :=
    isSmallest_collectOffsets hone hnodup (IsSmallest.nil n) (fun _ h ↦ h.elim) fun _ _ _ _ h ↦ h
  refine h.reverse_eq_take ?_ fun o ↦ ?_
  · exact pairwise_map.mpr (sigEntries_increasing d st signals lo head)
  · rw [mem_map, false_or]
    constructor
    · rintro ⟨⟨o', a⟩, ho, rfl⟩
      obtain ⟨hlo, hhi, ⟨id, hid, hsome⟩, -⟩ := mem_sigEntries.mp ho
      exact ⟨id, hid, mem_sigOffsets.mpr ⟨hlo, hhi, hsome⟩⟩
    · rintro ⟨id, hid, ho⟩
      obtain ⟨hlo, hhi, hsome⟩ := mem_sigOffsets.mp ho
      exact ⟨(o, recordAt d st o), mem_sigEntries.mpr ⟨hlo, hhi, ⟨id, hid, hsome⟩, rfl⟩, rfl⟩

/-! ### The visits of a round -/

/-- What the visits of a round leave of its entries, and how the scan over all of them goes on. -/
structure VisitsTo (L : PageLimits RecEnc) (accepts : ℕ × RecEnc → Bool) (s : PageScan RecEnc)
    (xs : List (ℕ × Option RecEnc)) (s' : PageScan RecEnc) (rest : List (ℕ × Option RecEnc)) : Prop where
  run : ∀ ys, PageScan.run L (pickEntry accepts) s (xs ++ ys) =
    PageScan.run L (pickEntry accepts) s' (rest ++ ys)
  opened : s.Open → s'.Open
  /-- Only a full page leaves some of them. -/
  full : rest ≠ [] → s'.full L = true
  next_le : s.Ahead xs → s.next ≤ s'.next
  passed : s.Ahead xs → rest = [] → ∀ x ∈ xs, x.1 < s'.next
  ahead : ∀ ys, s.Ahead (xs ++ ys) → s'.Ahead (rest ++ ys)

variable {xs rest : List (ℕ × Option RecEnc)} {x : ℕ × Option RecEnc} {t : PageScan RecEnc}
  {out : List (ℕ × RecEnc)} {off : ℕ} {left : Bool}

theorem VisitsTo.refl (s : PageScan RecEnc) (hfull : xs ≠ [] → s.full L = true) :
    VisitsTo L accepts s xs s xs where
  run _ := rfl
  opened h := h
  full := hfull
  next_le _ := le_rfl
  passed _ hnil _ hx := absurd hx (hnil ▸ not_mem_nil)
  ahead _ h := h

/-- One more entry in front, which the scan goes past. -/
theorem VisitsTo.cons (h : VisitsTo L accepts t xs s' rest)
    (hrun : ∀ ys, PageScan.run L (pickEntry accepts) s (x :: ys) =
      PageScan.run L (pickEntry accepts) t ys)
    (hopen : s.Open → t.Open) (hnext : t.next = x.1 + 1) : VisitsTo L accepts s (x :: xs) s' rest := by
  -- the entries after the first lie past it
  have hstep : ∀ ys, s.Ahead (x :: ys) → t.Ahead ys := fun ys ha ↦
    ⟨ha.increasing.of_cons, fun y hy ↦ hnext.trans_le ((pairwise_cons.mp ha.increasing).1 y hy)⟩
  have hlt : s.Ahead (x :: xs) → x.1 < s'.next := fun ha ↦ hnext.symm.trans_le (h.next_le (hstep xs ha))
  refine ⟨fun ys ↦ (hrun _).trans (h.run ys), fun ho ↦ h.opened (hopen ho), h.full, fun ha ↦ ?_,
    fun ha hnil y hy ↦ ?_, fun ys ha ↦ h.ahead ys (hstep _ ha)⟩
  · exact (ha.next_le x mem_cons_self).trans (hlt ha).le
  · rcases mem_cons.mp hy with rfl | hy
    · exact hlt ha
    · exact h.passed (hstep xs ha) hnil y hy

/-- What the visits of a round say of the scan over its entries and all that follow. -/
def Visited.Describes (L : PageLimits RecEnc) (accepts : ℕ × RecEnc → Bool) (s : PageScan RecEnc)
    (xs : List (ℕ × Option RecEnc)) : Visited → Prop
  | .bytes out off => ∀ ys, (PageScan.run L (pickEntry accepts) s (xs ++ ys)).out = out ∧
    (PageScan.run L (pickEntry accepts) s (xs ++ ys)).pending = some off
  | .done s' left => ∃ rest, VisitsTo L accepts s xs s' rest ∧ (left = true ↔ rest ≠ [])

theorem Visited.Describes.cons {v : Visited} (h : v.Describes L accepts t xs)
    (hrun : ∀ ys, PageScan.run L (pickEntry accepts) s (x :: ys) =
      PageScan.run L (pickEntry accepts) t ys)
    (hopen : s.Open → t.Open) (hnext : t.next = x.1 + 1) : v.Describes L accepts s (x :: xs) := by
  cases v with
  | bytes out off =>
    intro ys
    rw [cons_append, hrun]
    exact h ys
  | done s' left =>
    obtain ⟨rest, hv, hleft⟩ := h
    exact ⟨rest, hv.cons hrun hopen hnext, hleft⟩

/-- **A round visits its entries as one scan would.** -/
theorem visitOffsets_describes (accepts : ℕ × RecEnc → Bool) (hxs : ∀ x ∈ xs, x.2 = recordAt d st x.1)
    (hlim : s.out.length < L.limit) (hscan : L.maxScan = 0 ∨ s.scanned + xs.length ≤ L.maxScan) :
    (visitOffsets L accepts d st s (xs.map Prod.fst)).Describes L accepts s xs := by
  induction xs generalizing s with
  | nil => exact ⟨[], .refl s fun h ↦ absurd rfl h, by simp⟩
  | cons x xs ih =>
    have hscan' : L.maxScan = 0 ∨ s.scanned + 1 + xs.length ≤ L.maxScan := hscan.imp_right fun h ↦ by
      rw [length_cons] at h
      omega
    have hfull : s.full L = false :=
      full_eq_false.mpr ⟨hlim, hscan'.imp_right fun h ↦ by omega⟩
    have hx : x = (x.1, recordAt d st x.1) := Prod.ext rfl (hxs x mem_cons_self)
    have hxs' : ∀ y ∈ xs, y.2 = recordAt d st y.1 := fun y hy ↦ hxs y (mem_cons_of_mem _ hy)
    rw [map_cons, visitOffsets, ← hx]
    split
    · rename_i hpick
      exact (ih (s := s.pass x.1) hxs' hlim hscan').cons (fun ys ↦ run_cons_pass hfull hpick)
        (fun ho ↦ ⟨ho.pending, ho.left⟩) rfl
    · rename_i e hpick
      split
      · rename_i hfits
        have hrun : ∀ ys, PageScan.run L (pickEntry accepts) s (x :: ys) =
            PageScan.run L (pickEntry accepts) (s.take L x.1 e) ys :=
          fun ys ↦ run_cons_take hfull hpick hfits
        have hopen : s.Open → (s.take L x.1 e).Open := fun ho ↦ ⟨ho.pending, ho.left⟩
        split
        · -- the page is full
          rename_i hlast
          have hfull' : (s.take L x.1 e).full L = true :=
            Bool.or_eq_true_iff.mpr (.inl (decide_eq_true hlast.ge))
          refine ⟨xs, (VisitsTo.refl _ fun _ ↦ hfull').cons hrun hopen rfl, ?_⟩
          cases xs <;> simp
        · rename_i hmore
          have hlen : (s.take L x.1 e).out.length = s.out.length + 1 := length_append
          exact (ih (s := s.take L x.1 e) hxs' (by omega) hscan').cons hrun hopen rfl
      · rename_i hfits
        intro ys
        rw [cons_append, run_cons_stop hfull hpick hfits]
        exact ⟨rfl, rfl⟩

/-! ### The rounds -/

/-- The entries from a later offset on. -/
theorem sigEntries_eq_drop {lo lo' k : ℕ} (hlo : lo ≤ lo')
    (hpast : ∀ x ∈ (sigEntries d st signals lo head).take k, x.1 < lo')
    (hahead : ∀ x ∈ (sigEntries d st signals lo head).drop k, lo' ≤ x.1) :
    sigEntries d st signals lo' head = (sigEntries d st signals lo head).drop k := by
  have : Std.Antisymm fun x y : ℕ × Option RecEnc ↦ x.1 < y.1 :=
    ⟨fun _ _ h h' ↦ absurd h (Nat.lt_asymm h')⟩
  have : Std.Irrefl fun x y : ℕ × Option RecEnc ↦ x.1 < y.1 := ⟨fun _ ↦ Nat.lt_irrefl _⟩
  refine (sigEntries_increasing d st signals lo' head).eq_of_mem_iff
    ((sigEntries_increasing d st signals lo head).sublist (drop_sublist _ _)) fun x ↦ ?_
  have hsplit : x ∈ sigEntries d st signals lo head ↔ x ∈ (sigEntries d st signals lo head).take k ∨
      x ∈ (sigEntries d st signals lo head).drop k := by
    rw [← mem_append, take_append_drop]
  constructor
  · intro hx
    obtain ⟨hle, hhi, hkey, ha⟩ := mem_sigEntries.mp hx
    refine (hsplit.mp (mem_sigEntries.mpr ⟨hlo.trans hle, hhi, hkey, ha⟩)).resolve_left fun hx' ↦ ?_
    exact hle.not_gt (hpast x hx')
  · intro hx
    obtain ⟨-, hhi, hkey, ha⟩ := mem_sigEntries.mp (hsplit.mpr (.inr hx))
    exact mem_sigEntries.mpr ⟨hahead x hx, hhi, hkey, ha⟩

theorem roundWant_pos (hfull : s.full L = false) (want : ℕ) : 0 < roundWant L want s := by
  obtain ⟨hlim, hscan⟩ := full_eq_false.mp hfull
  rw [roundWant, roundBudget, maxSigRound]
  split <;> omega

theorem roundWant_le (hpos : 0 < L.maxScan) (want : ℕ) : roundWant L want s ≤ L.maxScan - s.scanned := by
  rw [roundWant, roundBudget, if_pos hpos]
  omega

/-- The page of one scan over all entries. -/
def indexPage (L : PageLimits RecEnc) (accepts : ℕ × RecEnc → Bool) (d : Disk) (st : Stream)
    (signals : List String) (lwm head : ℕ) (s : PageScan RecEnc) : PageOut :=
  if s.full L then (s.out, s.next)
  else
    let r := PageScan.run L (pickEntry accepts) s (sigEntries d st signals (max s.next lwm) head)
    (r.out, r.resume head)

theorem signalRounds_of_full (hfuel : 0 < fuel) (hfull : s.full L = true) :
    signalRounds L accepts d st signals lwm head fuel want s = some (s.out, s.next) := by
  obtain ⟨fuel, rfl⟩ := Nat.exists_eq_add_one_of_ne_zero hfuel.ne'
  rw [signalRounds, if_pos hfull]

/-- Past a full page there is nothing to scan. -/
theorem resume_of_full (accepts : ℕ × RecEnc → Bool) (head : ℕ) (hfull : s.full L = true) (hs : s.Open) (hxs : xs ≠ []) :
    (PageScan.run L (pickEntry accepts) s xs).out = s.out ∧
      (PageScan.run L (pickEntry accepts) s xs).resume head = s.next := by
  rw [run_of_full hfull hxs, resume, hs.pending]
  exact ⟨rfl, rfl⟩

theorem indexPage_eq_run (hs : s.Open) (hne : sigEntries d st signals (max s.next lwm) head ≠ []) :
    indexPage L accepts d st signals lwm head s =
      ((PageScan.run L (pickEntry accepts) s (sigEntries d st signals (max s.next lwm) head)).out,
        (PageScan.run L (pickEntry accepts) s (sigEntries d st signals (max s.next lwm) head)).resume
          head) := by
  rw [indexPage]
  split
  · rename_i hfull
    obtain ⟨hout, hres⟩ := resume_of_full accepts head hfull hs hne
    rw [hout, hres]
  · rfl

/-- The next round starts past the entries of the one before. -/
theorem VisitsTo.entries_eq {k : ℕ} (hxs : xs = sigEntries d st signals (max s.next lwm) head)
    (h : VisitsTo L accepts s (xs.take k) s' []) :
    sigEntries d st signals (max s'.next lwm) head = xs.drop k := by
  subst hxs
  have ha := ahead_sigEntries d st signals lwm head s
  have ha' : s'.Ahead ((sigEntries d st signals (max s.next lwm) head).drop k) :=
    h.ahead _ ((take_append_drop _ _).symm ▸ ha)
  have htake : s.Ahead ((sigEntries d st signals (max s.next lwm) head).take k) :=
    ⟨ha.increasing.sublist (take_sublist _ _), fun x hx ↦ ha.next_le x (mem_of_mem_take hx)⟩
  refine sigEntries_eq_drop (max_le_max (h.next_le htake) le_rfl) (fun x hx ↦ ?_) fun x hx ↦ ?_
  · exact (h.passed htake rfl x hx).trans_le (le_max_left _ _)
  · refine max_le (ha'.next_le x hx) ?_
    exact (le_max_right _ _).trans (mem_sigEntries.mp (mem_of_mem_drop hx)).1

/-- **The rounds read the page of one scan.** Every round but the last goes past an entry, so there are
no more of them than offsets. -/
theorem signalRounds_eq (hnodup : signals.Nodup) (hfuel : head - s.next < fuel)
    (hs : s.Open) (hone : OneSignal d st (max s.next lwm)) :
    signalRounds L accepts d st signals lwm head fuel want s =
      some (indexPage L accepts d st signals lwm head s) := by
  induction fuel generalizing s want with
  | zero => exact absurd hfuel (Nat.not_lt_zero _)
  | succ fuel ih =>
    rw [signalRounds, indexPage]
    split
    · rfl
    · rename_i hfull
      have hfull : s.full L = false := Bool.eq_false_of_not_eq_true hfull
      obtain ⟨hlim, hscan⟩ := full_eq_false.mp hfull
      obtain ⟨k, hk⟩ : ∃ k, k = roundWant L want s := ⟨_, rfl⟩
      obtain ⟨xs, hxs⟩ : ∃ xs, xs = sigEntries d st signals (max s.next lwm) head := ⟨_, rfl⟩
      have hkpos : 0 < k := hk ▸ roundWant_pos hfull want
      have hoffs : smallestSigOffsets d st signals (max s.next lwm) head (k + 1) =
          (xs.map Prod.fst).take (k + 1) := hxs ▸ smallestSigOffsets_eq hone hnodup
      have htake : ((xs.map Prod.fst).take (k + 1)).take k = (xs.take k).map Prod.fst := by
        rw [take_take, min_eq_left (Nat.le_succ k), map_take]
      have hmore : k < ((xs.map Prod.fst).take (k + 1)).length ↔ xs.drop k ≠ [] := by
        rw [length_take, length_map, ne_eq, drop_eq_nil_iff]
        omega
      have hsplit : xs.take k ++ xs.drop k = xs := take_append_drop k xs
      have hkey : ∀ x ∈ xs, x.1 < head ∧ x.2 = recordAt d st x.1 := fun x hx ↦ by
        rw [hxs] at hx
        exact ⟨(mem_sigEntries.mp hx).2.1, (mem_sigEntries.mp hx).2.2.2⟩
      have hbudget : L.maxScan = 0 ∨ s.scanned + (xs.take k).length ≤ L.maxScan := by
        refine (Nat.eq_zero_or_pos L.maxScan).imp_right fun hpos ↦ ?_
        have hle : k ≤ L.maxScan - s.scanned := hk ▸ roundWant_le hpos want
        have hlen : (xs.take k).length ≤ k := length_take_le k xs
        omega
      have hvisit := visitOffsets_describes accepts
        (fun x hx ↦ (hkey x (mem_of_mem_take hx)).2) hlim hbudget
      have ha : s.Ahead (xs.take k ++ xs.drop k) := hsplit.symm ▸ hxs ▸ ahead_sigEntries d st signals lwm head s
      rw [← hk, ← hxs]
      dsimp only
      rw [hoffs, htake]
      split
      · rename_i out off hv
        rw [hv] at hvisit
        obtain ⟨hout, hpend⟩ := hvisit (xs.drop k)
        rw [hsplit] at hout hpend
        rw [resume, hout, hpend]
      · rename_i s' left hv
        rw [hv] at hvisit
        obtain ⟨rest, hto, hleft⟩ := hvisit
        have hrun := hto.run (xs.drop k)
        rw [hsplit] at hrun
        have hs' : s'.Open := hto.opened hs
        -- a round that is not the last has an entry to visit
        have hfirst : xs ≠ [] → ∃ x ∈ xs.take k, s.next ≤ x.1 ∧ x.1 < head := by
          intro hne
          obtain ⟨x, xs, rfl⟩ := exists_cons_of_ne_nil hne
          have hx : x ∈ (x :: xs).take k := by
            rw [take_cons hkpos]
            exact mem_cons_self
          have hmem := mem_of_mem_take hx
          exact ⟨x, hx, ha.next_le x (hsplit.symm ▸ hmem), (hkey x hmem).1⟩
        have htakeA : s.Ahead (xs.take k) := ⟨(pairwise_append.mp ha.increasing).1,
          fun x hx ↦ ha.next_le x (mem_append_left _ hx)⟩
        rw [hrun]
        by_cases hrest : rest = []
        · subst hrest
          have hleft : ¬ left = true := fun h ↦ hleft.mp h rfl
          rw [nil_append, ← hto.entries_eq hxs]
          split
          · -- another round, which starts past the entries of this one
            rename_i hagain
            have hdrop' : xs.drop k ≠ [] := hmore.mp (hagain.resolve_right hleft)
            rw [← indexPage_eq_run hs' ((hto.entries_eq hxs).symm ▸ hdrop')]
            refine ih ?_ hs' (hone.mono (max_le_max (hto.next_le htakeA) le_rfl))
            obtain ⟨x, hx, hle, hlt⟩ := hfirst fun hnil ↦ hdrop' (by rw [hnil, drop_nil])
            have := hto.passed htakeA rfl x hx
            omega
          · rename_i hend
            have hdrop : xs.drop k = [] := by_contra fun h ↦ hend (.inl (hmore.mpr h))
            rw [hto.entries_eq hxs, hdrop, PageScan.run, resume, hs'.pending, hs'.left]
            rfl
        · -- the page is full, and entries are left
          have hfull' : s'.full L = true := hto.full hrest
          obtain ⟨hout, hres⟩ := resume_of_full accepts head hfull' hs'
            (append_ne_nil_of_left_ne_nil hrest (xs.drop k))
          rw [if_pos (.inr (hleft.mpr hrest)), hout, hres]
          refine signalRounds_of_full ?_ hfull'
          obtain ⟨x, -, hle, hlt⟩ := hfirst fun hnil ↦ by
            subst hnil
            rw [take_nil] at hv
            cases hv
            cases hleft.mpr hrest
          omega

/-! ### The read -/

theorem mem_wantedSignals : id ∈ wantedSignals signals ↔ id ∈ signals := by
  rw [wantedSignals, mem_dedup, mem_insertionSort]

theorem sigEntries_wantedSignals (d : Disk) (st : Stream) (signals : List String) (lo hi : ℕ) :
    sigEntries d st (wantedSignals signals) lo hi = sigEntries d st signals lo hi := by
  refine filterMap_congr fun o _ ↦ ?_
  have hany : ((wantedSignals signals).any fun id ↦ (d (.sig st id o)).isSome) =
      signals.any fun id ↦ (d (.sig st id o)).isSome := by
    rw [Bool.eq_iff_iff, any_eq_true, any_eq_true]
    simp only [mem_wantedSignals]
  rw [hany]

theorem readRounds_eq (hs : s.Open) (hone : OneSignal d st s.next) :
    readRounds L accepts d st signals lwm head s =
      some (readIndex L accepts d st signals lwm head s) := by
  rw [readRounds, readIndex]
  by_cases hhead : head ≤ s.next
  · rw [if_pos hhead, if_pos (.inl hhead)]
  · have hnodup : (wantedSignals signals).Nodup := nodup_dedup _
    have hfuel : head - s.next < head + 1 := Nat.lt_succ_of_le (Nat.sub_le _ _)
    rw [if_neg hhead, signalRounds_eq hnodup hfuel hs (hone.mono (le_max_left _ _)), indexPage,
      sigEntries_wantedSignals]
    simp only [hhead, false_or]

/-- **Reading in rounds.** From the coverage of the index on an offset has one signal, so `ReadSignals`
returns the page that one scan over its entries fills. -/
theorem readSignalsByRounds_eq {covered start : ℕ} (hone : OneSignal d st covered) :
    readSignalsByRounds L accepts d st signals covered lwm start head =
      some (readSignals L accepts d st signals covered lwm start head) := by
  rw [readSignalsByRounds, readSignals]
  split
  · dsimp only
    split
    · rfl
    · rename_i hgo
      push Not at hgo
      have hleft := Bool.eq_false_of_not_eq_true hgo.1
      have hopen : ({ next := start } : PageScan RecEnc).Open := ⟨rfl, rfl⟩
      exact readRounds_eq ⟨(hopen.run hleft).pending, hleft⟩ hone
  · rename_i hcov
    exact readRounds_eq ⟨rfl, rfl⟩ (hone.mono (Nat.le_of_not_lt hcov))

end Colca
