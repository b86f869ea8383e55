import Colca.Repl.Drain

/-!
# A drained child leaves nothing undelivered

When no command that passed the check before the child was marked overtakes the evaluation that retires it,
everything below the child's mount was fetched, expired or removed by then (`drained_settled`).

Two facts meet in it. While a child is draining, what is admitted below its mount was admitted before it was
marked (`Inv.closed`), because the doors refuse the rest. And what an evaluation has scanned without finding
anything pending stays fetched or expired (`Covers`), because cursors move forward only and later commands
lie behind the head it read.

The check of a door and the append are two steps, and so are the scan and the retirement. In `slippedRun` a
command is checked before the child is marked and stored after it is retired.
-/

namespace Colca.Drain

open Uns Downlink List Function Option State

variable {cfg : Config} {s s' : State}

/-! ### What an evaluation has established -/

/-- Below `upTo`, every command of the child that the stream holds is fetched or expired. -/
def Covers (cfg : Config) (s : State) (ev : Evaluation) (now : ℤ) (upTo : ℕ) : Prop :=
  ∀ x ∈ s.commands.entries, cfg.forChild ev.mount x.2 → x.1 < upTo →
    x.1 < s.cursor ev.ulid ∨ cfg.stillLive x.2 now = false

/-- What an evaluation of an enrolled child knows at each stage. -/
def Knows (cfg : Config) (s : State) (ev : Evaluation) : Stage → Prop
  | .begun => True
  | .floor c => c ≤ s.cursor ev.ulid
  | .ranged pos _ => pos ≤ max (s.cursor ev.ulid) s.commands.lwm
  | .scanning scan => scan.head ≤ s.commands.next ∧
      (scan.pending = 0 → Covers cfg s ev scan.now (min scan.pos scan.head))
  | .scanned scan => scan.head ≤ s.commands.next ∧
      (scan.pending = 0 → Covers cfg s ev scan.now scan.head)

/-- What the stream and the cursors do while the child stays enrolled: nothing comes back, and the cursor
does not move back. -/
structure Moves (s s' : State) (ulid : String) : Prop extends s.commands.Evolves s'.commands where
  lwm_le : s.commands.lwm ≤ s'.commands.lwm
  cursor_le : s.cursor ulid ≤ s'.cursor ulid

variable {ulid : String}

theorem Moves.of_eq (hcmd : s'.commands = s.commands) (hcur : s.cursor ulid ≤ s'.cursor ulid) :
    Moves s s' ulid where
  toEvolves := by
    rw [hcmd]
    exact .refl _
  lwm_le := by rw [hcmd]
  cursor_le := hcur

variable {ev : Evaluation}

theorem Covers.moves {now : ℤ} {upTo : ℕ} (h : Covers cfg s ev now upTo) (hm : Moves s s' ev.ulid)
    (hle : upTo ≤ s.commands.next) : Covers cfg s' ev now upTo := by
  intro x hx hfor hlt
  exact (h x (hm.mem_of_lt hx (hlt.trans_le hle)) hfor hlt).imp_left fun h ↦ h.trans_le hm.cursor_le

theorem Knows.moves {stage : Stage} (h : Knows cfg s ev stage) (hm : Moves s s' ev.ulid) :
    Knows cfg s' ev stage := by
  cases stage with
  | begun => trivial
  | floor c => exact h.trans hm.cursor_le
  | ranged pos g => exact h.trans (max_le_max hm.cursor_le hm.lwm_le)
  | scanning scan =>
    exact ⟨h.1.trans hm.next_le, fun hp ↦ (h.2 hp).moves hm ((min_le_right _ _).trans h.1)⟩
  | scanned scan => exact ⟨h.1.trans hm.next_le, fun hp ↦ (h.2 hp).moves hm h.1⟩

/-- Where the scan starts, everything before is fetched or gone. -/
theorem Knows.readHead {pos : ℕ} {gapped : Bool} (h : Knows cfg s ev (.ranged pos gapped))
    (now : ℤ) : Knows cfg s ev (.scanning { pos, head := s.commands.next, now, gapped }) := by
  refine ⟨le_rfl, fun _ x hx _ hlt ↦ .inl ?_⟩
  have hpos : x.1 < max (s.cursor ev.ulid) s.commands.lwm := (lt_min_iff.mp hlt).1.trans_le h
  exact (lt_max_iff.mp hpos).resolve_right (s.commands.bounds x hx).1.not_gt

variable {scan : DrainScan}

/-- **One page**: what it passes is fetched or expired, unless it counts something as pending. -/
theorem Knows.readPage (h : Knows cfg s ev (.scanning scan)) :
    Knows cfg s ev (scan.readPage cfg ev.mount s.commands) := by
  obtain ⟨hhead, hcovers⟩ := h
  unfold DrainScan.readPage
  split
  · rename_i hlt
    dsimp only
    -- nothing that the page read is live
    have hpage : scan.pending + ((s.commands.read scan.pos drainScanBatch fun x ↦
        cfg.forChild ev.mount x.2).1.countP fun x ↦ cfg.stillLive x.2 scan.now) = 0 →
        Covers cfg s ev scan.now (min (s.commands.read scan.pos drainScanBatch fun x ↦
          cfg.forChild ev.mount x.2).2 scan.head) := by
      intro hp x hx hfor hxlt
      obtain ⟨hxnext, hxhead⟩ := lt_min_iff.mp hxlt
      rcases lt_or_ge x.1 scan.pos with hbefore | hafter
      · exact hcovers (by omega) x hx hfor (lt_min hbefore hxhead)
      · refine .inr (Bool.eq_false_iff.mpr fun hlive ↦ ?_)
        have hread := OffsetLog.mem_read.mpr ⟨hx, hafter, hxnext, hfor⟩
        have hcount := (countP_pos_iff (p := fun y : ℕ × RecEnc ↦
          cfg.stillLive y.2 scan.now)).mpr ⟨x, hread, hlive⟩
        omega
    split
    · rename_i hstuck
      -- a read that makes no progress found nothing to visit
      refine ⟨hhead, fun hp x hx hfor hxlt ↦ ?_⟩
      rcases lt_or_ge x.1 scan.pos with hbefore | hafter
      · exact hcovers (Nat.eq_zero_of_add_eq_zero_right hp) x hx hfor (lt_min hbefore hxlt)
      · exact absurd hstuck (OffsetLog.lt_read_next hx hafter (by decide)).not_ge
    · exact ⟨hhead, hpage⟩
  · rename_i hend
    refine ⟨hhead, fun hp ↦ ?_⟩
    rw [← min_eq_right (not_lt.mp hend)]
    exact hcovers hp

/-! ### The invariant -/

structure Inv (cfg : Config) (s : State) : Prop where
  /-- Only the children of the start are ever enrolled. -/
  listed : ∀ ulid e, s.registry ulid = some e → ∃ c ∈ cfg.children, c.1 = ulid
  admissions : ∀ a ∈ s.admissions, a.ticket < s.tickets
  marks : ∀ ulid e, s.registry ulid = some e → e.mark ≤ s.tickets
  written : ∀ w ∈ s.written, w.ticket < s.tickets ∧ w.off < s.commands.next ∧
    (w.off < s.commands.lwm ∨ (w.off, w.command) ∈ s.commands.entries)
  /-- What was admitted below the mount of a draining child was admitted before it was marked. -/
  closed : ∀ ulid e m, s.registry ulid = some e → e.draining = true → e.mount = some m →
    (∀ a ∈ s.admissions, cfg.forChild m a.command → a.ticket < e.mark) ∧
    ∀ w ∈ s.written, cfg.forChild m w.command → w.ticket < e.mark
  evaluations : ∀ ev ∈ s.evaluations, ∀ e, s.registry ev.ulid = some e →
    e.draining = true ∧ e.mount = some ev.mount ∧ Knows cfg s ev ev.stage
  retired : ∀ r ∈ s.retired, r.Settled cfg s
  /-- What could still be stored after a retirement, and had passed the check before it, is expired. -/
  late : ∀ r ∈ s.retired, r.commands.next ≤ s.commands.next ∧ r.mark ≤ s.tickets ∧
    ∀ a ∈ s.admissions, cfg.forChild r.mount a.command → a.ticket < r.mark →
      cfg.stillLive a.command r.now = false

/-- A step in which nothing is checked, stored, marked or retired. -/
theorem Inv.still (h : Inv cfg s) (hreg : s'.registry = s.registry)
    (hadm : ∀ a ∈ s'.admissions, a ∈ s.admissions) (htick : s'.tickets = s.tickets)
    (hwritten : s'.written = s.written) (hret : s'.retired = s.retired) (hmoves : ∀ ulid, Moves s s' ulid)
    (hkept : ∀ x ∈ s.commands.entries, x.1 < s'.commands.lwm ∨ x ∈ s'.commands.entries)
    (hevs : ∀ ev ∈ s'.evaluations, ev ∈ s.evaluations ∨ ∀ e, s.registry ev.ulid = some e →
      e.draining = true ∧ e.mount = some ev.mount ∧ Knows cfg s' ev ev.stage) : Inv cfg s' where
  listed := hreg ▸ h.listed
  admissions a ha := htick ▸ h.admissions a (hadm a ha)
  marks := hreg ▸ htick ▸ h.marks
  written w hw := by
    obtain ⟨ht, hlt, hin⟩ := h.written w (hwritten ▸ hw)
    refine ⟨htick ▸ ht, hlt.trans_le (hmoves "").next_le, ?_⟩
    rcases hin with hlwm | hin
    · exact .inl (hlwm.trans_le (hmoves "").lwm_le)
    · exact hkept _ hin
  closed ulid e m he hd hm := by
    obtain ⟨ha, hw⟩ := h.closed ulid e m (hreg ▸ he) hd hm
    exact ⟨fun a hmem ↦ ha a (hadm a hmem), hwritten ▸ hw⟩
  evaluations ev hev e he := by
    rw [hreg] at he
    rcases hevs ev hev with hold | hnew
    · obtain ⟨hd, hm, hk⟩ := h.evaluations ev hold e he
      exact ⟨hd, hm, hk.moves (hmoves _)⟩
    · exact hnew e he
  retired r hr w hw := h.retired r (hret ▸ hr) w (hwritten ▸ hw)
  late r hr := by
    obtain ⟨hnext, hmark, ha⟩ := h.late r (hret ▸ hr)
    exact ⟨hnext.trans (hmoves "").next_le, htick ▸ hmark, fun a hmem ↦ ha a (hadm a hmem)⟩

/-! ### Doors -/

/-- What a door admits lies below the mount of no draining child. -/
theorem not_forChild_of_admits (h : Inv cfg s) {e : RecEnc} (hadm : s.admits cfg e = true)
    {entry : Entry} {m : Path} (he : s.registry ulid = some entry) (hd : entry.draining = true)
    (hm : entry.mount = some m) : cfg.forChild m e = false := by
  obtain ⟨c, hc, rfl⟩ := h.listed ulid entry he
  unfold admits at hadm
  split at hadm
  · cases hadm
  · rename_i p hp
    unfold Config.forChild Downlink.forChild
    rw [hp]
    rw [Bool.and_eq_true, Bool.not_eq_true', drainingMount, List.any_eq_false] at hadm
    have hnone := hadm.2 c hc
    rw [he] at hnone
    simp only [any_some, hd, hm, Bool.true_and, Bool.not_eq_true] at hnone
    show ((cfg.classOf p.contract).isCommand && underMount p.path m) = false
    rw [hnone, Bool.and_false]

theorem Inv.check (h : Inv cfg s) {e : RecEnc} (hadm : s.admits cfg e = true) :
    Inv cfg { s with admissions := s.admissions ++ [⟨s.tickets, e⟩], tickets := s.tickets + 1 } where
  listed := h.listed
  admissions := forall_mem_concat (fun a ha ↦ Nat.lt_succ_of_lt (h.admissions a ha)) (Nat.lt_succ_self _)
  marks ulid entry he := Nat.le_succ_of_le (h.marks ulid entry he)
  written w hw := (h.written w hw).imp_left Nat.lt_succ_of_lt
  closed ulid entry m he hd hm := by
    obtain ⟨hold, hw⟩ := h.closed ulid entry m he hd hm
    refine ⟨forall_mem_concat hold fun hfor ↦ ?_, hw⟩
    rw [not_forChild_of_admits h hadm he hd hm] at hfor
    cases hfor
  evaluations ev hev entry he := by
    obtain ⟨hd, hm, hk⟩ := h.evaluations ev hev entry he
    exact ⟨hd, hm, hk.moves (.of_eq rfl le_rfl)⟩
  retired := h.retired
  late r hr := by
    obtain ⟨hnext, hmark, hold⟩ := h.late r hr
    -- a later check has a later ticket
    exact ⟨hnext, Nat.le_succ_of_le hmark, forall_mem_concat hold fun _ hlt ↦
      absurd hlt hmark.not_gt⟩

theorem moves_append (e : RecEnc) (ulid : String) :
    Moves s { s with commands := s.commands.append e } ulid :=
  ⟨OffsetLog.evolves_append _ e, le_rfl, le_rfl⟩

variable {i : ℕ}

theorem Inv.append (h : Inv cfg s) {a : Admission} (ha : s.admissions[i]? = some a) :
    Inv cfg { s.store a with admissions := s.admissions.eraseIdx i } := by
  have hmem := mem_of_getElem? ha
  have hsub : ∀ b ∈ s.admissions.eraseIdx i, b ∈ s.admissions := fun b hb ↦ mem_of_mem_eraseIdx hb
  exact { h with
    admissions := fun b hb ↦ h.admissions b (hsub b hb)
    written := by
      refine forall_mem_concat (fun w hw ↦ ?_) ⟨h.admissions a hmem, Nat.lt_succ_self _,
        .inr (mem_append_right _ (mem_singleton_self _))⟩
      obtain ⟨ht, hlt, hin⟩ := h.written w hw
      exact ⟨ht, Nat.lt_succ_of_lt hlt, hin.imp_right (mem_append_left _)⟩
    closed := fun ulid entry m he hd hm ↦ by
      obtain ⟨hold, hw⟩ := h.closed ulid entry m he hd hm
      exact ⟨fun b hb ↦ hold b (hsub b hb), forall_mem_concat hw (hold a hmem)⟩
    evaluations := fun ev hev entry he ↦ by
      obtain ⟨hd, hm, hk⟩ := h.evaluations ev hev entry he
      exact ⟨hd, hm, hk.moves ⟨OffsetLog.evolves_append _ _, le_rfl, le_rfl⟩⟩
    retired := fun r hr ↦ forall_mem_concat (h.retired r hr) fun hfor hor ↦ by
      -- stored after the retirement: it had passed the check before, so it is expired
      obtain ⟨hnext, -, hlate⟩ := h.late r hr
      exact .inr (.inl (hlate a hmem hfor (hor.resolve_left hnext.not_gt)))
    late := fun r hr ↦ by
      obtain ⟨hnext, hmark, hlate⟩ := h.late r hr
      exact ⟨Nat.le_succ_of_le hnext, hmark, fun b hb ↦ hlate b (hsub b hb)⟩ }

/-! ### The registry -/

variable {e : Entry}

theorem Inv.drain (h : Inv cfg s) (he : s.registry ulid = some e) (hactive : e.draining = false) :
    Inv cfg (s.drain ulid e) := by
  -- an entry after the step is the marked one, or an old one of another child
  have hentry : ∀ u entry, (s.drain ulid e).registry u = some entry →
      (u = ulid ∧ entry = e.markDraining s.tickets) ∨ (u ≠ ulid ∧ s.registry u = some entry) := by
    intro u entry hu
    rcases eq_or_ne u ulid with rfl | hne
    · have hself : (s.drain u e).registry u = some (e.markDraining s.tickets) := update_self ..
      rw [hself] at hu
      exact .inl ⟨rfl, (some.inj hu).symm⟩
    · exact .inr ⟨hne, (update_of_ne hne ..).symm.trans hu⟩
  exact { h with
    listed := fun u entry hu ↦ by
      rcases hentry u entry hu with ⟨rfl, -⟩ | ⟨-, hu⟩
      · exact h.listed u e he
      · exact h.listed u entry hu
    marks := fun u entry hu ↦ by
      rcases hentry u entry hu with ⟨-, rfl⟩ | ⟨-, hu⟩
      · exact le_rfl
      · exact h.marks u entry hu
    closed := fun u entry m hu hd hm ↦ by
      rcases hentry u entry hu with ⟨-, rfl⟩ | ⟨-, hu⟩
      · exact ⟨fun a ha _ ↦ h.admissions a ha, fun w hw _ ↦ (h.written w hw).1⟩
      · exact h.closed u entry m hu hd hm
    evaluations := fun ev hev entry hu ↦ by
      rcases hentry ev.ulid entry hu with ⟨hsame, -⟩ | ⟨-, hu⟩
      · -- only draining children are evaluated
        have hd := (h.evaluations ev hev e (hsame ▸ he)).1
        rw [hactive] at hd
        cases hd
      · obtain ⟨hd, hm, hk⟩ := h.evaluations ev hev entry hu
        exact ⟨hd, hm, hk.moves (.of_eq rfl le_rfl)⟩ }

/-- **The retirement**: the scanned part is covered, and the rest did not overtake the evaluation. -/
theorem Inv.settled_of_scanned (h : Inv cfg s) (hev : ev ∈ s.evaluations)
    (he : s.registry ev.ulid = some e) (hstage : ev.stage = .scanned scan) (hp : scan.pending = 0)
    (hC : Overtaken cfg s ev e scan) {w : Written} (hw : w ∈ s.written)
    (hfor : cfg.forChild ev.mount w.command) :
    w.off < s.cursor ev.ulid ∨ cfg.stillLive w.command scan.now = false ∨ w.off < s.commands.lwm := by
  obtain ⟨hd, hm, hk⟩ := h.evaluations ev hev e he
  rw [hstage] at hk
  have hbefore := (h.closed ev.ulid e ev.mount he hd hm).2 w hw hfor
  rcases (h.written w hw).2.2 with hlwm | hin
  · exact .inr (.inr hlwm)
  · have hsettled : w.off < s.cursor ev.ulid ∨ cfg.stillLive w.command scan.now = false := by
      rcases lt_or_ge w.off scan.head with hscanned | hlater
      · exact hk.2 hp (w.off, w.command) hin hfor hscanned
      · exact hC.1 w hw hfor hbefore hlater
    exact hsettled.imp_right .inl

theorem Inv.retire (h : Inv cfg s) (hev : ev ∈ s.evaluations) (he : s.registry ev.ulid = some e)
    (hstage : ev.stage = .scanned scan) (hp : scan.pending = 0) (hC : Overtaken cfg s ev e scan) :
    Inv cfg { s.retire ev e scan with evaluations := s.evaluations.eraseIdx i } := by
  have hentry : ∀ u entry, (s.retire ev e scan).registry u = some entry →
      u ≠ ev.ulid ∧ s.registry u = some entry := by
    intro u entry hu
    rcases eq_or_ne u ev.ulid with rfl | hne
    · have hnone : (s.retire ev e scan).registry ev.ulid = none := update_self ..
      rw [hnone] at hu
      cases hu
    · exact ⟨hne, (update_of_ne hne ..).symm.trans hu⟩
  have hcursor : ∀ u ≠ ev.ulid, (s.retire ev e scan).cursor u = s.cursor u := fun u hne ↦
    congrArg (fun c : Option ℕ ↦ c.getD 1) (update_of_ne hne ..)
  exact { h with
    listed := fun u entry hu ↦ h.listed u entry (hentry u entry hu).2
    marks := fun u entry hu ↦ h.marks u entry (hentry u entry hu).2
    closed := fun u entry m hu ↦ h.closed u entry m (hentry u entry hu).2
    evaluations := fun ev' hev' entry hu ↦ by
      obtain ⟨hne, hu⟩ := hentry ev'.ulid entry hu
      obtain ⟨hd, hm, hk⟩ := h.evaluations ev' (mem_of_mem_eraseIdx hev') entry hu
      exact ⟨hd, hm, hk.moves (.of_eq rfl (hcursor ev'.ulid hne).ge)⟩
    retired := forall_mem_concat h.retired fun w hw hfor _ ↦
      h.settled_of_scanned hev he hstage hp hC hw hfor
    late := forall_mem_concat h.late
      ⟨le_rfl, h.marks _ e he, fun a ha hfor hlt ↦ hC.2 a ha hfor hlt⟩ }

/-! ### Every step -/

theorem cursor_le_cursorAck (ulid u : String) (pos : ℕ) : s.cursor u ≤ (s.cursorAck ulid pos).cursor u := by
  unfold cursorAck
  split
  · rename_i hlt
    rcases eq_or_ne u ulid with rfl | hne
    · simp only [cursor, update_self, getD_some] at hlt ⊢
      exact hlt.le
    · simp [cursor, update_of_ne hne]
  · exact le_rfl

theorem cursor_le_cursorSetIfAbsent (ulid u : String) {pos : ℕ} (hpos : 1 ≤ pos) :
    s.cursor u ≤ (s.cursorSetIfAbsent ulid pos).cursor u := by
  unfold cursorSetIfAbsent
  split
  · exact le_rfl
  · rename_i hnone
    rcases eq_or_ne u ulid with rfl | hne
    · simpa [cursor, hnone] using hpos
    · simp [cursor, update_of_ne hne]

/-- Only cursors move, and forward. -/
theorem Inv.cursors (h : Inv cfg s) {cursors : String → Option ℕ}
    (hcur : ∀ u, s.cursor u ≤ ({ s with cursors } : State).cursor u) : Inv cfg { s with cursors } :=
  h.still rfl (fun _ h ↦ h) rfl rfl rfl (fun u ↦ .of_eq rfl (hcur u)) (fun _ hx ↦ .inr hx) fun _ ↦ .inl

/-- An evaluation goes on with what it read. -/
theorem Inv.goOn (h : Inv cfg s) (hev : s.evaluations[i]? = some ev) {stage : Stage}
    (hk : Knows cfg s ev ev.stage → Knows cfg s ev stage) : Inv cfg (s.goOn i ev stage) := by
  refine h.still rfl (fun _ h ↦ h) rfl rfl rfl (fun _ ↦ .of_eq rfl le_rfl) (fun _ hx ↦ .inr hx) ?_
  intro ev' hev'
  rcases mem_or_eq_of_mem_set hev' with hold | rfl
  · exact .inl hold
  · refine .inr fun e he ↦ ?_
    obtain ⟨hd, hm, hknows⟩ := h.evaluations ev (mem_of_getElem? hev) e he
    have hstage : Knows cfg (s.goOn i ev stage) ev stage := (hk hknows).moves (.of_eq rfl le_rfl)
    refine ⟨hd, hm, ?_⟩
    cases stage <;> exact hstage

theorem Inv.step (h : Inv cfg s) {e : Event} (hC : NoneOvertaken cfg s e)
    (hs : (system cfg).step s e = some s') : Inv cfg s' := by
  change Drain.step cfg s e = some s' at hs
  cases e with
  | check e =>
    simp only [Drain.step] at hs
    split at hs <;> cases hs
    rename_i hadm
    exact h.check hadm
  | append i =>
    obtain ⟨a, ha, rfl⟩ := map_eq_some_iff.mp hs
    exact h.append ha
  | refuse i =>
    cases hs
    exact h.still rfl (fun _ ha ↦ mem_of_mem_eraseIdx ha) rfl rfl rfl
      (fun _ ↦ .of_eq rfl le_rfl) (fun _ hx ↦ .inr hx) fun _ ↦ .inl
  | other e =>
    simp only [Drain.step] at hs
    split at hs
    · cases hs
    · split at hs <;> cases hs
      exact h.still rfl (fun _ h ↦ h) rfl rfl rfl (fun u ↦ moves_append e u)
        (fun _ hx ↦ .inr (mem_append_left _ hx)) fun _ ↦ .inl
  | prune upTo =>
    cases hs
    have hm := parentMoves_prune s.commands upTo
    exact h.still rfl (fun _ h ↦ h) rfl rfl rfl (fun u ↦ ⟨hm.toEvolves, hm.lwm_le, le_rfl⟩) hm.kept
      fun _ ↦ .inl
  | drain ulid =>
    obtain ⟨e, he, hs⟩ := bind_eq_some_iff.mp hs
    split at hs <;> cases hs
    rename_i hactive
    rw [Bool.or_eq_true, not_or, Bool.not_eq_true] at hactive
    exact h.drain he hactive.1
  | hello ulid =>
    obtain ⟨e, -, rfl⟩ := map_eq_some_iff.mp hs
    have hcur := fun u ↦ cursor_le_cursorSetIfAbsent (s := s) ulid u
      (s.commands.one_le_lwm.trans s.commands.lwm_le_next)
    unfold cursorSetIfAbsent at hcur ⊢
    split
    · exact h
    · rename_i hnone
      simp only [hnone] at hcur
      exact h.cursors hcur
  | poll ulid after =>
    obtain ⟨e, -, rfl⟩ := map_eq_some_iff.mp hs
    have hcur := fun u ↦ cursor_le_cursorAck (s := s) ulid u after
    unfold cursorAck at hcur ⊢
    split
    · rename_i hlt
      simp only [hlt, if_true] at hcur
      exact h.cursors hcur
    · exact h
  | evaluate ulid =>
    obtain ⟨e, he, hs⟩ := bind_eq_some_iff.mp hs
    split at hs
    · cases hs
    · rename_i hd
      obtain ⟨m, hm, rfl⟩ := map_eq_some_iff.mp hs
      refine h.still rfl (fun _ h ↦ h) rfl rfl rfl (fun _ ↦ .of_eq rfl le_rfl) (fun _ hx ↦ .inr hx)
        (forall_mem_concat (fun _ ↦ .inl) (.inr fun e' he' ↦ ?_))
      rw [he] at he'
      obtain rfl := some.inj he'
      exact ⟨by simpa using hd, hm, trivial⟩
  | readFloor i =>
    obtain ⟨ev, hev, hs⟩ := bind_eq_some_iff.mp hs
    split at hs <;> cases hs
    exact h.goOn hev fun _ ↦ le_rfl
  | readRange i =>
    obtain ⟨ev, hev, hs⟩ := bind_eq_some_iff.mp hs
    split at hs <;> cases hs
    rename_i c hstage
    refine h.goOn hev fun hk ↦ ?_
    rw [hstage] at hk
    exact max_le_max_right _ hk
  | readHead i now =>
    obtain ⟨ev, hev, hs⟩ := bind_eq_some_iff.mp hs
    split at hs <;> cases hs
    rename_i hstage
    refine h.goOn hev fun hk ↦ ?_
    rw [hstage] at hk
    exact hk.readHead now
  | readPage i =>
    obtain ⟨ev, hev, hs⟩ := bind_eq_some_iff.mp hs
    split at hs <;> cases hs
    rename_i hstage
    refine h.goOn hev fun hk ↦ ?_
    rw [hstage] at hk
    exact hk.readPage
  | giveUp i =>
    cases hs
    exact h.still rfl (fun _ h ↦ h) rfl rfl rfl (fun _ ↦ .of_eq rfl le_rfl) (fun _ hx ↦ .inr hx)
      fun _ hev ↦ .inl (mem_of_mem_eraseIdx hev)
  | retire i =>
    obtain ⟨ev, hev, hs⟩ := bind_eq_some_iff.mp hs
    split at hs
    · rename_i scan hstage
      split at hs <;> cases hs
      rename_i hp
      split
      · rename_i entry he
        have hresult : scan ∈ ev.result := by simp [Evaluation.result, hstage]
        exact h.retire (mem_of_getElem? hev) he hstage hp (hC i rfl ev hev entry he scan hresult)
      · exact h.still rfl (fun _ h ↦ h) rfl rfl rfl (fun _ ↦ .of_eq rfl le_rfl) (fun _ hx ↦ .inr hx)
          fun _ hev ↦ .inl (mem_of_mem_eraseIdx hev)
    · cases hs
  | restart =>
    cases hs
    refine h.still rfl (fun _ ha ↦ ?_) rfl rfl rfl (fun _ ↦ .of_eq rfl le_rfl) (fun _ hx ↦ .inr hx)
      fun _ hev ↦ ?_
    · cases ha
    · cases hev

theorem inv_start (cfg : Config) : Inv cfg (system cfg).start := by
  have hentry : ∀ u e, (system cfg).start.registry u = some e → e.draining = false := by
    intro u e he
    obtain ⟨c, -, rfl⟩ := map_eq_some_iff.mp he
    rfl
  exact {
    listed := fun u e he ↦ by
      obtain ⟨c, hc, -⟩ := map_eq_some_iff.mp he
      exact ⟨c, mem_of_find?_eq_some hc, by simpa using find?_some hc⟩
    admissions := fun _ h ↦ by cases h
    marks := fun u e he ↦ by
      obtain ⟨c, -, rfl⟩ := map_eq_some_iff.mp he
      exact Nat.zero_le _
    written := fun w hw ↦ by
      obtain ⟨x, hx, rfl⟩ := mem_map.mp hw
      exact ⟨Nat.zero_lt_one, (cfg.stored.bounds x hx).2, .inr hx⟩
    closed := fun u e m he hd ↦ by
      rw [hentry u e he] at hd
      cases hd
    evaluations := fun _ h ↦ by cases h
    retired := fun _ h ↦ by cases h
    late := fun _ h ↦ by cases h }

/-- **In every run whose retirements meet the condition** a retired child leaves nothing undelivered. -/
theorem drained_settled (h : (system cfg).Reach (NoneOvertaken cfg) s) : ∀ r ∈ s.retired, r.Settled cfg s :=
  (h.invariant (inv_start cfg) fun _ _ _ hi hC hs ↦ hi.step hC hs).retired

/-! ### Runs -/

/-- A command for a machine below the mount of the only child. -/
def command : RecEnc where
  sourceLocalOnly := false
  topic := ["colca", "v1", "_CmdParam", "m1", "line1", "speed", "set"]
  payload := [1]
  ts := 0
  by_ := {}
  originOffset := 0
  door := ""
  signalID := ""

/-- One child, at the line; commands do not expire. -/
def oneChild : Config where
  classOf := classOf
  deadline _ := none
  children := [("n1", some ["line1"])]
  cursors _ := none
  stored := .empty

/-- `evaluateDrain` up to its decision, when the cursor is at the head. -/
def evaluation : List Event :=
  [.evaluate "n1", .readFloor 0, .readRange 0, .readHead 0 0, .readPage 0]

/-- The command is stored and fetched before the child is retired. -/
def fetchedRun : List Event :=
  [.hello "n1", .check command, .append 0, .drain "n1", .poll "n1" 2] ++ evaluation ++ [.retire 0]

/-- A child was retired, and a command is stored. -/
def retiredOne (s : State) : Bool := s.retired.length == 1 && s.written.length == 1

theorem fetched_command_settled : ∃ s, (system oneChild).Reach (NoneOvertaken oneChild) s ∧
    retiredOne s = true ∧ ∀ r ∈ s.retired, r.Settled oneChild s := by
  obtain ⟨s, hs, hp⟩ := (system oneChild).exists_reach (NoneOvertaken oneChild) fetchedRun (retiredOne ·)
  exact ⟨s, hs, hp, drained_settled hs⟩

/-- The command passes the check, and is stored after the child was marked, scanned and retired. -/
def slippedRun : List Event :=
  [.hello "n1", .check command, .drain "n1"] ++ evaluation ++ [.retire 0, .append 0]

/-- **A command slips through the drain**: it was admitted, and nobody will ever fetch it. -/
theorem admitted_command_slips :
    ¬ ∀ s, (system oneChild).Reachable s → ∀ r ∈ s.retired, r.Settled oneChild s := by
  intro h
  -- the stored command is below the mount, passed the check in time, and none of the ways out applies
  obtain ⟨s, hs, r, hr, w, hw, hfor, hlt, hcursor, hlive, hlwm⟩ :=
    (system oneChild).exists_reachable slippedRun fun s ↦ ∃ r ∈ s.retired, ∃ w ∈ s.written,
      oneChild.forChild r.mount w.command ∧ w.ticket < r.mark ∧ ¬ w.off < r.cursor ∧
      oneChild.stillLive w.command r.now ∧ ¬ w.off < r.commands.lwm
  rcases h s hs r hr w hw hfor (.inr hlt) with hc | hdead | hgone
  · exact hcursor hc
  · rw [hlive] at hdead
    cases hdead
  · exact hlwm hgone

end Colca.Drain
