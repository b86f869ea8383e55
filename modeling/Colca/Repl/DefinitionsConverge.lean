import Colca.Repl.Definitions

/-!
# Definitions converge, unless a retraction was dropped too early

A child that has read up to its parent's head holds the parent's definitions, provided that no retraction
was compacted away that it needed. Compaction takes its floor from the cursor the child's polls leave, and
that cursor is never past the child's own position, so a retraction the child has not read stays. But a
hello hands definitions without leaving a cursor, and so does a poll from the first position: with no
cursor there is no floor, and `retraction_lost` is a run in which a child keeps a retracted definition for
good. `converges_of_reach` excludes just this: the last record of a topic is dropped by a compaction that
found no cursor of the child, after the child was handed a record of that topic.
-/

namespace Colca.Definitions

open Uns List Function Option LatestStream OffsetLog KeyedLog

/-- The child agrees with the parent on a topic, unless it refused something. -/
def Agrees (stream : LatestStream) (child : Child) (t : Topic) : Prop :=
  child.refused = false → child.view t = stream.current t

/-- **What the child needs of a page** of definitions up to `n`: what the topics changed to from its
position on is in it, or known. -/
structure PageInv (stream : LatestStream) (responses : List Response) (child : Child)
    (rows : List (ℕ × RecEnc)) (n : ℕ) : Prop where
  increasing : rows.Pairwise (·.1 < ·.1)
  written : ∀ r ∈ rows, child.cursor ≤ r.1 ∧ r.1 < n ∧
    ∃ y, stream.keyed.last r.2.topic = some y ∧ r.1 ≤ y.1
  carried : ∀ r ∈ rows, Carried responses r.2.topic
  le_next : n ≤ stream.log.next
  covers : ∀ t y, stream.keyed.last t = some y → child.cursor ≤ y.1 → y.1 < n →
    y ∈ rows ∨ (Agrees stream child t ∧ ∀ r ∈ rows, r.2.topic ≠ t)

/-- The pages the child has, or may still receive. -/
def Phase.Holds (responses : List Response) (rows : List (ℕ × RecEnc)) (n : ℕ) : Phase → Prop
  | .idle => False
  | .asked id page => ∃ r, (r ∈ responses ∧ r.id = id ∨ page = some r) ∧
      r.definitions = rows ∧ r.defNext = n
  | .applying rest advanceTo => rest = rows ∧ advanceTo = n

/-- The invariant of a parent and a child. -/
structure Inv (s : State) : Prop where
  stream : s.stream.Inv
  scans : ∀ c ∈ s.scans, s.stream.ScanValid c
  locked : ∀ l ∈ s.locked, l.scan ∈ s.scans ∧ (l.seated → l.floor ≤ s.child.cursor)
  one_le : 1 ≤ s.child.cursor
  le_next : s.child.cursor ≤ s.stream.log.next
  defCursor : ∀ c ∈ s.defCursor, c ≤ s.child.cursor
  requests : ∀ r ∈ s.requests, 1 ≤ r.defAfter ∧ r.defAfter ≤ s.child.cursor
  handlers : ∀ h ∈ s.handlers, 1 ≤ h.limit ∧ (∀ o ∈ h.head, o ≤ s.stream.log.next) ∧
    ∃ r, s.requests[h.id]? = some r ∧ r.defAfter = h.defAfter
  responses : ∀ r ∈ s.responses, r.id < s.requests.length
  asked : ∀ id page, s.phase = .asked id page →
    ∃ r, s.requests[id]? = some r ∧ r.defAfter = s.child.cursor
  read : ∀ t y, s.stream.keyed.last t = some y → y.1 < s.child.cursor → Agrees s.stream s.child t
  unwritten : ∀ t, s.stream.keyed.last t = none → Agrees s.stream s.child t
  /-- The last record of a topic stays until the child is past it, if it was ever told of the topic. -/
  kept : ∀ t y, s.stream.keyed.last t = some y →
    y ∈ s.stream.log.entries ∨ y.1 < s.child.cursor ∨ ¬ Carried s.responses t
  carried : ∀ t, s.child.view t ≠ none → Carried s.responses t
  pages : ∀ rows n, s.phase.Holds s.responses rows n →
    PageInv s.stream s.responses s.child rows n

theorem inv_start : Inv system.start where
  stream := inv_empty
  scans _ h := by cases h
  locked _ h := by cases h
  one_le := le_rfl
  le_next := le_rfl
  defCursor _ h := by cases h
  requests _ h := by cases h
  handlers _ h := by cases h
  responses _ h := by cases h
  asked _ _ h := by cases h
  read _ _ h := by cases h
  unwritten _ _ _ := rfl
  kept _ _ h := by cases h
  carried _ h := absurd rfl h
  pages _ _ h := h.elim

variable {s : State} {stream : LatestStream} {responses : List Response} {child : Child}
  {rows : List (ℕ × RecEnc)} {n : ℕ} {t : Topic}

/-! ### The parent's stream -/

theorem Agrees.write (h : Agrees stream child t) {e : RecEnc} (hne : t ≠ e.topic) :
    Agrees (stream.write e) child t := fun hr ↦
  (h hr).trans (current_write_of_ne hne).symm

theorem PageInv.write (h : PageInv stream responses child rows n) (hi : stream.Inv) (e : RecEnc) :
    PageInv (stream.write e) responses child rows n where
  increasing := h.increasing
  written r hr := by
    obtain ⟨hle, hlt, y, hy, hry⟩ := h.written r hr
    refine ⟨hle, hlt, ?_⟩
    rcases eq_or_ne r.2.topic e.topic with heq | hne
    · refine ⟨(stream.log.next, e), ?_, hry.trans (hi.last_key _ y hy).2.le⟩
      rw [heq]
      exact update_self _ _ _
    · exact ⟨y, (write_last_of_ne e hne).trans hy, hry⟩
  carried := h.carried
  le_next := Nat.le_succ_of_le h.le_next
  covers t y hy hle hlt := by
    rcases last_write hy with ⟨-, rfl⟩ | ⟨hne, hy⟩
    · exact absurd hlt h.le_next.not_gt
    · exact (h.covers t y hy hle hlt).imp_right fun ⟨ha, hno⟩ ↦ ⟨ha.write hne, hno⟩

theorem Inv.write (h : Inv s) (e : RecEnc) : Inv { s with stream := s.stream.write e } :=
  { h with
    stream := h.stream.write e
    scans := fun c hc ↦ (h.scans c hc).write e
    le_next := Nat.le_succ_of_le h.le_next
    handlers := fun x hx ↦ by
      obtain ⟨hlimit, hhead, hr⟩ := h.handlers x hx
      exact ⟨hlimit, fun o ho ↦ Nat.le_succ_of_le (hhead o ho), hr⟩
    read := fun t y hy hlt ↦ by
      rcases last_write hy with ⟨-, rfl⟩ | ⟨hne, hy⟩
      · exact absurd hlt h.le_next.not_gt
      · exact (h.read t y hy hlt).write hne
    unwritten := fun t hnone ↦ by
      have hne : t ≠ e.topic := by
        rintro rfl
        rw [show (s.stream.write e).keyed.last e.topic = some (s.stream.log.next, e) from
          update_self _ _ _] at hnone
        cases hnone
      exact (h.unwritten t ((write_last_of_ne e hne).symm.trans hnone)).write hne
    kept := fun t y hy ↦ by
      rcases last_write hy with ⟨-, rfl⟩ | ⟨-, hy⟩
      · exact .inl (mem_append_right _ (mem_singleton_self _))
      · exact (h.kept t y hy).imp_left fun hm ↦ mem_append_left _ hm
    pages := fun rows n hp ↦ (h.pages rows n hp).write h.stream e }

theorem Inv.scan (h : Inv s) : Inv { s with scans := s.scans ++ [s.stream.scan] } :=
  { h with
    scans := forall_mem_concat h.scans s.stream.scan_valid
    locked := fun l hl ↦ (h.locked l hl).imp_left (mem_append_left _) }

variable {c : CompactScan} {stream' : LatestStream} {i : ℕ} {r : Response} {floor : ℕ} {head : ℕ}

theorem Inv.look (h : Inv s) (hi : s.scans[i]? = some c) (others : List ℕ) :
    Inv { s with locked := some ⟨c, s.floor others, s.defCursor.isSome⟩ } :=
  { h with
    locked := fun l hl ↦ by
      cases hl
      refine ⟨mem_of_getElem? hi, fun hsome ↦ ?_⟩
      obtain ⟨d, hd⟩ := isSome_iff_exists.mp hsome
      have hfloor : s.floor others ≤ d := cursorFloor_le (by simp [hd])
      exact hfloor.trans (h.defCursor d hd) }

/-- The retractions a compaction drops that are the last record of their topic. -/
def State.droppedRetractions (s : State) (l : Locked) : List (ℕ × RecEnc) :=
  l.scan.records.filter fun x ↦ l.scan.holes = s.stream.holes ∧ s.stream.keyed.last x.2.topic = some x ∧
    isRetraction x.2 ∧ x.1 < l.floor

/-- **The condition**: a compaction that drops the retraction a topic ends with found a cursor of the
child when it took its floor, or the child was never handed a record of the topic. -/
def CursorSeated (s : State) : Event → Prop
  | .commit => ∀ l ∈ s.locked, ∀ x ∈ s.droppedRetractions l, l.seated ∨ ¬ Carried s.responses x.2.topic
  | _ => True

instance (s : State) : ∀ e, Decidable (CursorSeated s e)
  | .commit => inferInstanceAs (Decidable (∀ l ∈ s.locked, ∀ x ∈ s.droppedRetractions l, _))
  | .write _ | .scan | .look .. | .ask .. | .arrive _ | .capture _ | .respond .. | .receive _ | .confirm ..
  | .keep | .apply _ | .ack | .stop => isTrue trivial

theorem Agrees.compacted (h : Agrees stream child t) (hc : Compacted stream stream' c floor) :
    Agrees stream' child t := fun hr ↦ by
  rw [h hr, current, current, hc.last]

theorem PageInv.compacted (h : PageInv stream responses child rows n)
    (hc : Compacted stream stream' c floor) : PageInv stream' responses child rows n :=
  { h with
    written := hc.last ▸ h.written
    le_next := hc.next ▸ h.le_next
    covers t y hy hle hlt := by
      rw [hc.last] at hy
      exact (h.covers t y hy hle hlt).imp_right fun ⟨ha, hno⟩ ↦ ⟨ha.compacted hc, hno⟩ }

theorem Inv.commit (h : Inv s) {l : Locked} (hl : s.locked = some l) (hseat : CursorSeated s .commit) :
    Inv { s with stream := s.stream.commit l.scan l.floor, locked := none } := by
  obtain ⟨hscan, hfloor⟩ := h.locked l hl
  have hc : Compacted s.stream (s.stream.commit l.scan l.floor) l.scan l.floor :=
    commit_compacted h.stream (h.scans _ hscan)
  exact { h with
    stream := hc.inv
    locked := fun _ hl ↦ by cases hl
    scans := fun d hd ↦ (h.scans d hd).compacted hc
    le_next := hc.next ▸ h.le_next
    handlers := hc.next ▸ h.handlers
    read := fun t y hy hlt ↦ (h.read t y (hc.last ▸ hy) hlt).compacted hc
    unwritten := fun t hnone ↦ (h.unwritten t (hc.last ▸ hnone)).compacted hc
    kept := fun t y hy ↦ by
      replace hy : s.stream.keyed.last t = some y := hc.last ▸ hy
      by_cases hgone : y ∈ (s.stream.commit l.scan l.floor).log.entries
      · exact .inl hgone
      · rcases h.kept t y hy with hmem | hrest
        · -- dropped now: below the child's cursor, or the child does not know the topic
          obtain ⟨hholes, hrec, hdead, hlt⟩ := hc.dropped t y hy hmem hgone
          obtain ⟨rfl, -⟩ := h.stream.last_key t y hy
          have hin : y ∈ s.droppedRetractions l :=
            mem_filter.mpr ⟨hrec, by simp [hholes, hy, hdead, hlt]⟩
          exact .inr ((hseat l hl y hin).imp_left fun hsome ↦ hlt.trans_le (hfloor hsome))
        · exact .inr hrest
    pages := fun rows n hp ↦ (h.pages rows n hp).compacted hc }

/-! ### Requests and answers -/

theorem pageLimit_pos (max : ℕ) : 1 ≤ pageLimit max := by
  unfold pageLimit defaultDownlinkMax
  split <;> omega

theorem cursorAck_le {c : Option ℕ} {off bound d : ℕ} (hc : ∀ d ∈ c, d ≤ bound) (hoff : off ≤ bound)
    (hd : d ∈ cursorAck c off) : d ≤ bound := by
  unfold cursorAck at hd
  split at hd
  · rw [← some.inj hd]
    exact hoff
  · exact hc d hd

theorem Inv.send (h : Inv s) (hello : Bool) (max : ℕ) {page : Option Response} (hpage : ∀ r, page = some r →
      PageInv s.stream s.responses s.child r.definitions r.defNext) : Inv (s.send hello max page) :=
  { h with
    requests := forall_mem_concat h.requests ⟨h.one_le, le_rfl⟩
    handlers := fun x hx ↦ by
      obtain ⟨hlimit, hhead, r, hr, heq⟩ := h.handlers x hx
      exact ⟨hlimit, hhead, r, getElem?_append_left
        (List.getElem?_eq_some_iff.mp hr).1 ▸ hr, heq⟩
    responses := fun r hr ↦ by
      have hlt := h.responses r hr
      simp only [State.send, length_append, length_singleton]
      omega
    asked := fun id p hp ↦ by
      cases hp
      exact ⟨_, getElem?_concat_length, rfl⟩
    pages := fun rows n hp ↦ by
      obtain ⟨r, ⟨hr, hid⟩ | hr, rfl, rfl⟩ := hp
      · -- nobody has answered a request that is only now made
        exact absurd (h.responses r hr) (hid ▸ Nat.lt_irrefl _)
      · exact hpage r hr }

theorem Inv.handle (h : Inv s) {id : ℕ} {r : Request} (hr : s.requests[id]? = some r) :
    Inv (s.handle id r) := by
  obtain ⟨hone, hle⟩ := h.requests r (mem_of_getElem? hr)
  have hafter : (if r.defAfter = 0 then 1 else r.defAfter) = r.defAfter := if_neg (by omega)
  exact { h with
    defCursor := fun c hc ↦ by
      simp only [State.handle, hafter] at hc
      split at hc
      · exact h.defCursor c hc
      · exact cursorAck_le h.defCursor hle hc
    handlers := forall_mem_concat h.handlers ⟨pageLimit_pos _, by simp, r, hr, hafter.symm⟩ }

theorem Inv.capture (h : Inv s) {x : Handler} (hx : s.handlers[i]? = some x) :
    Inv { s with handlers := s.handlers.set i { x with head := some s.stream.log.next } } :=
  { h with
    handlers := fun y hy ↦ by
      rcases mem_or_eq_of_mem_set hy with hy | rfl
      · exact h.handlers y hy
      · obtain ⟨hlimit, -, hr⟩ := h.handlers x (mem_of_getElem? hx)
        exact ⟨hlimit, fun o ho ↦ (some.inj ho).ge, hr⟩ }

theorem Carried.append (h : Carried responses t) (r : Response) : Carried (responses ++ [r]) t := by
  obtain ⟨r', hr', hx⟩ := h
  exact ⟨r', mem_append_left _ hr', hx⟩

theorem PageInv.append (h : PageInv stream responses child rows n) (r : Response) :
    PageInv stream (responses ++ [r]) child rows n :=
  { h with carried := fun x hx ↦ (h.carried x hx).append r }

/-- **A page read from the child's position** is what the child needs. -/
theorem Inv.read_page (h : Inv s) {limit head : ℕ} (hlimit : 1 ≤ limit)
    (hhead : head ≤ s.stream.log.next) (responses : List Response)
    (hcarried : ∀ x ∈ s.stream.log.page s.child.cursor limit, Carried responses x.2.topic) :
    PageInv s.stream responses s.child
      (readDefinitions s.stream.log head s.child.cursor limit).1
      (readDefinitions s.stream.log head s.child.cursor limit).2 := by
  have hpage : s.stream.log.pageNext s.child.cursor limit ≤
      (readDefinitions s.stream.log head s.child.cursor limit).2 := by
    unfold readDefinitions
    dsimp only
    split <;> omega
  refine ⟨page_increasing _ _ _, fun r hr ↦ ?_, hcarried, ?_, fun t y hy hle hlt ↦ ?_⟩
  · obtain ⟨hmem, hle⟩ := mem_of_mem_page hr
    exact ⟨hle, (lt_pageNext hr).trans_le hpage, h.stream.le_last r hmem⟩
  · have hle : s.stream.log.pageNext s.child.cursor limit ≤ s.stream.log.next :=
      pageNext_le_next h.le_next
    unfold readDefinitions
    dsimp only
    split <;> omega
  · by_cases hmem : y ∈ s.stream.log.entries
    · -- there is something to read, so the head was not used
      have hmoved := lt_pageNext_of_mem hmem hle hlimit
      unfold readDefinitions at hlt
      dsimp only at hlt
      rw [if_neg (by omega)] at hlt
      exact .inl (mem_page_of_lt hmem hle hlt)
    · -- a retraction that is gone is one of a topic the child has not heard of
      right
      have hno : ¬ Carried s.responses t :=
        ((h.kept t y hy).resolve_left hmem).resolve_left hle.not_gt
      have hview : s.child.view t = none := by
        by_contra hsome
        exact hno (h.carried t hsome)
      refine ⟨fun _ ↦ hview.trans (current_of_gone h.stream hy hmem).symm,
        fun r hr ↦ h.stream.last_gone t y hy hmem r (mem_of_mem_page hr).1⟩

theorem PageInv.nothing (stream : LatestStream) (responses : List Response) (child : Child) :
    PageInv stream responses child [] 0 where
  increasing := List.Pairwise.nil
  written _ h := by cases h
  carried _ h := by cases h
  le_next := Nat.zero_le _
  covers _ _ _ _ h := by cases h

/-- A new answer adds a page only if it is to the request the child waits for. -/
theorem Phase.Holds.of_append {phase : Phase} (h : phase.Holds (responses ++ [r]) rows n) :
    phase.Holds responses rows n ∨
      ∃ id page, phase = .asked id page ∧ r.id = id ∧ r.definitions = rows ∧ r.defNext = n := by
  cases phase with
  | idle => exact h.elim
  | applying => exact .inl h
  | asked id page =>
    obtain ⟨r', ⟨hr, hid⟩ | hr, heq⟩ := h
    · rcases mem_append.mp hr with hr | hr
      · exact .inl ⟨r', .inl ⟨hr, hid⟩, heq⟩
      · obtain rfl := mem_singleton.mp hr
        exact .inr ⟨id, page, rfl, hid, heq⟩
    · exact .inl ⟨r', .inr hr, heq⟩

theorem mem_of_mem_response {x : Handler} {ok : Bool} {z : ℕ × RecEnc}
    (hz : z ∈ (s.response x head ok).definitions) : z ∈ s.stream.log.entries := by
  unfold State.response at hz
  dsimp only at hz
  split at hz
  · exact (mem_of_mem_page hz).1
  · cases hz

theorem Inv.respond (h : Inv s) {x : Handler} (hx : s.handlers[i]? = some x)
    (hhead : x.head = some head) (ok : Bool) :
    Inv { s with
      responses := s.responses ++ [s.response x head ok]
      handlers := s.handlers.eraseIdx i } := by
  obtain ⟨hlimit, hle, req, hreq, hafter⟩ := h.handlers x (mem_of_getElem? hx)
  have hid : (s.response x head ok).id = x.id := by
    unfold State.response
    dsimp only
    split <;> rfl
  exact { h with
    handlers := fun y hy ↦ h.handlers y (mem_of_mem_eraseIdx hy)
    responses := forall_mem_concat h.responses (hid ▸ (List.getElem?_eq_some_iff.mp hreq).1)
    kept := fun t y hy ↦ by
      by_cases hmem : y ∈ s.stream.log.entries
      · exact .inl hmem
      · -- nothing of a topic whose last record is gone can be handed
        refine .inr (((h.kept t y hy).resolve_left hmem).imp_right fun hno ⟨r, hr, z, hz, ht⟩ ↦ ?_)
        rcases mem_append.mp hr with hr | hr
        · exact hno ⟨r, hr, z, hz, ht⟩
        · rw [mem_singleton.mp hr] at hz
          exact h.stream.last_gone t y hy hmem z (mem_of_mem_response hz) ht
    carried := fun t ht ↦ (h.carried t ht).append _
    pages := fun rows n hp ↦ by
      rcases hp.of_append with hp | ⟨id, page, hph, hrid, rfl, rfl⟩
      · exact (h.pages rows n hp).append _
      · -- the answer to the request the child waits for, so read from its position
        obtain ⟨req', hreq', hpos⟩ := h.asked id page hph
        have hcur : x.defAfter = s.child.cursor := by
          rw [← hrid, hid, hreq] at hreq'
          rw [← hafter, some.inj hreq', hpos]
        cases ok with
        | false => exact PageInv.nothing _ _ _
        | true =>
          have hread := h.read_page hlimit (hle head hhead)
            (s.responses ++ [s.response x head true]) fun z hz ↦
              ⟨_, mem_append_right _ (mem_singleton_self _), z, by
                simpa [State.response, readDefinitions, hcur] using hz, rfl⟩
          simpa [State.response, hcur] using hread }

/-! ### The child -/

theorem Inv.take (h : Inv s)
    (hr : PageInv s.stream s.responses s.child r.definitions r.defNext) : Inv (s.take r) :=
  { h with
    asked := fun _ _ hp ↦ by cases hp
    pages := fun rows n hp ↦ by
      obtain ⟨rfl, rfl⟩ := hp
      exact hr }

theorem Inv.stop (h : Inv s) : Inv { s with phase := .idle } :=
  { h with
    asked := fun _ _ hp ↦ by cases hp
    pages := fun _ _ hp ↦ hp.elim }

theorem Inv.ack (h : Inv s) {n : ℕ} (hph : s.phase = .applying [] n) :
    Inv { s with child := { s.child with cursor := max s.child.cursor n }, phase := .idle } := by
  have hp := h.pages [] n (hph ▸ ⟨rfl, rfl⟩)
  exact { h with
    one_le := h.one_le.trans (le_max_left _ _)
    le_next := max_le h.le_next hp.le_next
    locked := fun l hl ↦ (h.locked l hl).imp_right fun hle hs ↦ (hle hs).trans (le_max_left _ _)
    defCursor := fun c hc ↦ (h.defCursor c hc).trans (le_max_left _ _)
    requests := fun r hr ↦ (h.requests r hr).imp_right fun hle ↦ hle.trans (le_max_left _ _)
    asked := fun _ _ hp ↦ by cases hp
    read := fun t y hy hlt ↦ by
      rcases lt_or_ge y.1 s.child.cursor with hread | hnew
      · exact h.read t y hy hread
      · have hn : y.1 < n := (lt_max_iff.mp hlt).resolve_left hnew.not_gt
        exact ((hp.covers t y hy hnew hn).resolve_left (not_mem_nil)).1
    kept := fun t y hy ↦ (h.kept t y hy).imp_right
      (Or.imp_left fun hlt ↦ hlt.trans_le (le_max_left _ _))
    pages := fun _ _ hp ↦ hp.elim }

/-- What one round does to the child: the position stays, only the topic of the definition changes, and
when the definition is the last of its topic the child agrees on it. -/
structure Applied (stream : LatestStream) (child child' : Child) (x : ℕ × RecEnc) : Prop where
  cursor : child'.cursor = child.cursor
  other : ∀ t ≠ x.2.topic, Agrees stream child t → Agrees stream child' t
  agrees : stream.keyed.last x.2.topic = some x → Agrees stream child' x.2.topic
  view : ∀ t ≠ x.2.topic, child'.view t = child.view t

theorem Child.store_applied (child : Child) (x : ℕ × RecEnc) :
    Applied stream child (child.store x.2) x where
  cursor := rfl
  other _ hne h hr := (update_of_ne hne _ _).trans (h hr)
  agrees hx _ := (update_self _ _ _).trans (current_of_last hx).symm
  view _ hne := update_of_ne hne _ _

theorem Child.refuse_applied (child : Child) (x : ℕ × RecEnc) :
    Applied stream child { child with refused := true } x where
  cursor := rfl
  other _ _ _ hr := by cases hr
  agrees _ hr := by cases hr
  view _ _ := rfl

theorem Child.hold_applied {x : ℕ × RecEnc} (h : child.holdsDefinition x.2 = true) :
    Applied stream child child x where
  cursor := rfl
  other _ _ h := h
  agrees hx _ := by
    simp only [Child.holdsDefinition, Bool.and_eq_true, Bool.not_eq_true', beq_iff_eq] at h
    rw [current_of_last hx, h.1, h.2]
    rfl
  view _ _ := rfl

section Apply

variable {child' : Child} {x : ℕ × RecEnc} {rest : List (ℕ × RecEnc)}
  (hp : PageInv stream responses child (x :: rest) n)

include hp

theorem PageInv.applied (hi : stream.Inv) (ha : Applied stream child child' x) :
    PageInv stream responses child' rest n where
  increasing := (pairwise_cons.mp hp.increasing).2
  written r hr := ha.cursor ▸ hp.written r (mem_cons_of_mem _ hr)
  carried r hr := hp.carried r (mem_cons_of_mem _ hr)
  le_next := hp.le_next
  covers t y hy hle hlt := by
    rcases hp.covers t y hy (ha.cursor ▸ hle) hlt with hmem | ⟨hag, hno⟩
    · rcases mem_cons.mp hmem with rfl | hmem
      · -- the last record of its topic was applied: no record of the topic is after it
        obtain ⟨rfl, -⟩ := hi.last_key t y hy
        refine .inr ⟨ha.agrees hy, fun r hr heq ↦ ?_⟩
        obtain ⟨-, -, z, hz, hle⟩ := hp.written r (mem_cons_of_mem _ hr)
        rw [heq, hy, Option.some.injEq] at hz
        subst hz
        have := (pairwise_cons.mp hp.increasing).1 r hr
        omega
      · exact .inl hmem
    · exact .inr ⟨ha.other t (hno x mem_cons_self).symm hag, fun r hr ↦ hno r (mem_cons_of_mem _ hr)⟩

/-- A definition that could not be stored ends the page before it. -/
theorem PageInv.failed : PageInv stream responses child [] x.1 where
  increasing := List.Pairwise.nil
  written _ h := by cases h
  carried _ h := by cases h
  le_next := by
    obtain ⟨-, hlt, -⟩ := hp.written x mem_cons_self
    exact hlt.le.trans hp.le_next
  covers t y hy hle hlt := by
    obtain ⟨-, hxn, -⟩ := hp.written x mem_cons_self
    rcases hp.covers t y hy hle (hlt.trans hxn) with hmem | ⟨hag, -⟩
    · -- the page is in offset order, so nothing of it is below its first record
      rcases mem_cons.mp hmem with rfl | hmem
      · exact absurd hlt (Nat.lt_irrefl _)
      · exact absurd hlt ((pairwise_cons.mp hp.increasing).1 y hmem).not_gt
    · exact .inr ⟨hag, fun _ h ↦ by cases h⟩

end Apply

theorem Inv.applied (h : Inv s) {x : ℕ × RecEnc} {rest : List (ℕ × RecEnc)} {n : ℕ} {child' : Child}
    (hph : s.phase = .applying (x :: rest) n) (ha : Applied s.stream s.child child' x) :
    Inv { s with child := child', phase := .applying rest n } := by
  have hp := h.pages (x :: rest) n (hph ▸ ⟨rfl, rfl⟩)
  obtain ⟨hle, -, y, hy, hxy⟩ := hp.written x mem_cons_self
  exact { h with
    one_le := ha.cursor ▸ h.one_le
    le_next := ha.cursor ▸ h.le_next
    locked := ha.cursor ▸ h.locked
    defCursor := ha.cursor ▸ h.defCursor
    requests := ha.cursor ▸ h.requests
    asked := fun _ _ hp ↦ by cases hp
    read := fun t z hz hlt ↦ by
      replace hlt : z.1 < s.child.cursor := ha.cursor ▸ hlt
      refine ha.other t ?_ (h.read t z hz hlt)
      rintro rfl
      rw [show s.stream.keyed.last x.2.topic = some z from hz, Option.some.injEq] at hy
      subst hy
      omega
    unwritten := fun t hnone ↦ by
      refine ha.other t ?_ (h.unwritten t hnone)
      rintro rfl
      rw [show s.stream.keyed.last x.2.topic = none from hnone] at hy
      cases hy
    kept := fun t z hz ↦ ha.cursor ▸ h.kept t z hz
    carried := fun t ht ↦ by
      rcases eq_or_ne t x.2.topic with rfl | hne
      · exact hp.carried x mem_cons_self
      · exact h.carried t (ha.view t hne ▸ ht)
    pages := fun rows n hh ↦ by
      obtain ⟨rfl, rfl⟩ := hh
      exact hp.applied h.stream ha }

theorem Inv.apply (h : Inv s) {x : ℕ × RecEnc} {rest : List (ℕ × RecEnc)} {n : ℕ}
    (hph : s.phase = .applying (x :: rest) n) (o : Outcome) :
    Inv { s with child := (s.child.apply x rest n o).1, phase := (s.child.apply x rest n o).2 } := by
  unfold Child.apply
  split
  · rename_i hhold
    exact h.applied hph (Child.hold_applied hhold)
  · cases o with
    | stored => exact h.applied hph (s.child.store_applied x)
    | refused => exact h.applied hph (s.child.refuse_applied x)
    | failed =>
      have hp := h.pages (x :: rest) n (hph ▸ ⟨rfl, rfl⟩)
      exact { h with
        asked := fun _ _ hp ↦ by cases hp
        pages := fun rows n hh ↦ by
          obtain ⟨rfl, rfl⟩ := hh
          exact hp.failed }

/-- **Every step that meets the condition keeps the invariant.** -/
theorem Inv.step {e : Event} {s' : State} (h : Inv s) (hseat : CursorSeated s e)
    (hs : system.step s e = some s') : Inv s' := by
  change Definitions.step s e = some s' at hs
  cases e with
  | write e =>
    obtain ⟨-, hs⟩ := ite_none_left_eq_some.mp hs
    cases hs
    exact h.write e
  | scan =>
    cases hs
    exact h.scan
  | look i others =>
    obtain ⟨-, hs⟩ := ite_none_left_eq_some.mp hs
    obtain ⟨c, hc, rfl⟩ := map_eq_some_iff.mp hs
    exact h.look hc others
  | commit =>
    obtain ⟨l, hl, rfl⟩ := map_eq_some_iff.mp hs
    exact h.commit hl hseat
  | ask hello max =>
    simp only [Definitions.step] at hs
    split at hs <;> cases hs
    exact h.send hello max (by simp)
  | arrive id =>
    obtain ⟨r, hr, rfl⟩ := map_eq_some_iff.mp hs
    exact h.handle hr
  | capture i =>
    obtain ⟨x, hx, rfl⟩ := map_eq_some_iff.mp hs
    exact h.capture hx
  | respond i ok =>
    obtain ⟨x, hx, hs⟩ := bind_eq_some_iff.mp hs
    obtain ⟨head, hhead, rfl⟩ := map_eq_some_iff.mp hs
    exact h.respond hx hhead ok
  | receive k =>
    simp only [Definitions.step] at hs
    split at hs
    · rename_i id page r hph hr
      split at hs <;> cases hs
      rename_i hid
      exact h.take (h.pages _ _ (hph ▸ ⟨r, .inl ⟨mem_of_getElem? hr, hid⟩, rfl, rfl⟩))
    · cases hs
  | confirm k max =>
    simp only [Definitions.step] at hs
    split at hs
    · rename_i id r hph hr
      split at hs <;> cases hs
      rename_i hid
      refine h.send false max fun r' hr' ↦ ?_
      cases hr'
      exact h.pages _ _ (hph ▸ ⟨r, .inl ⟨mem_of_getElem? hr, hid⟩, rfl, rfl⟩)
    · cases hs
  | keep =>
    simp only [Definitions.step] at hs
    split at hs <;> cases hs
    rename_i id r hph
    exact h.take (h.pages _ _ (hph ▸ ⟨r, .inr rfl, rfl, rfl⟩))
  | apply o =>
    simp only [Definitions.step] at hs
    split at hs <;> cases hs
    rename_i hph
    exact h.apply hph o
  | ack =>
    simp only [Definitions.step] at hs
    split at hs <;> cases hs
    rename_i hph
    exact h.ack hph
  | stop =>
    cases hs
    exact h.stop

/-! ### Convergence -/

/-- **Definitions converge**: a child that waits for nothing and whose position is the parent's head has
the parent's definitions, if it refused none. And no retraction that its topic ends with is gone before
the child is past it, if the child was ever handed a record of the topic. -/
structure Converges (s : State) : Prop where
  agrees : s.phase = .idle → s.child.cursor = s.stream.log.next → s.child.refused = false →
    ∀ t, s.child.view t = s.stream.current t
  kept : ∀ t y, s.stream.keyed.last t = some y → isRetraction y.2 → y ∉ s.stream.log.entries →
    y.1 < s.child.cursor ∨ ¬ Carried s.responses t

theorem Inv.converges (h : Inv s) : Converges s where
  agrees _ hpos hr t := by
    cases hlast : s.stream.keyed.last t with
    | none => exact h.unwritten t hlast hr
    | some y => exact h.read t y hlast (hpos ▸ (h.stream.last_key t y hlast).2) hr
  kept t y hy _ hgone := (h.kept t y hy).resolve_left hgone

/-- **In every run whose compactions find the child's cursor seated**, definitions converge. -/
theorem converges_of_reach (h : system.Reach CursorSeated s) : Converges s :=
  (h.invariant inv_start fun _ _ _ hi hC hs ↦ hi.step hC hs).converges

/-! ### A definition and its retraction -/

/-- A record of a group's definition. -/
def groupRecord (payload : Payload) : RecEnc where
  sourceLocalOnly := false
  topic := ["colca", "v1", "_Group", "root", "operators"]
  payload := payload
  ts := 1
  by_ := {}
  originOffset := 0
  door := ""
  signalID := ""

/-- The child asks, and its request is answered. -/
def exchange (hello : Bool) (id : ℕ) : List Event :=
  [.ask hello 0, .arrive id, .capture 0, .respond 0 true, .receive id]

/-- The child is told of a group by its hello and again polls, so that the retraction waits for it. -/
def polledRun : List Event :=
  [.write (groupRecord [1])] ++ exchange true 0 ++ [.apply .stored, .ack, .write (groupRecord [])] ++
    exchange false 1 ++ [.apply .stored, .ack] ++ exchange false 2 ++
    [.ack, .scan, .look 0 [], .commit]

/-- The retraction is gone, and the child has read it. -/
theorem polled_child_converges : ∃ s, system.Reach CursorSeated s ∧
    (s.phase = .idle ∧ s.child.cursor = s.stream.log.next ∧ s.child.refused = false ∧
      s.stream.log.entries = [] ∧ Carried s.responses (groupRecord []).topic) ∧
    Converges s := by
  obtain ⟨s, hs, hp⟩ := system.exists_reach CursorSeated polledRun
    (fun s ↦ s.phase = .idle ∧ s.child.cursor = s.stream.log.next ∧ s.child.refused = false ∧
      s.stream.log.entries = [] ∧ Carried s.responses (groupRecord []).topic)
  exact ⟨s, hs, hp, converges_of_reach hs⟩

/-- The child is told of a group by its hello, and stops. The group is retracted meanwhile, and the
retraction compacted away: the next hello finds nothing to hand. -/
def helloRun : List Event :=
  [.write (groupRecord [1])] ++ exchange true 0 ++
    [.apply .stored, .ack, .stop, .write (groupRecord []), .scan, .look 0 [], .commit] ++
    exchange true 1 ++ [.ack]

/-- **A retraction can be lost**: the child's position is the parent's head, and it still has the group. -/
theorem retraction_lost : ¬ ∀ s, system.Reachable s → Converges s := by
  intro h
  obtain ⟨s, hs, hidle, hpos, hrefused, hne⟩ := system.exists_reachable helloRun
    (fun s ↦ s.phase = .idle ∧ s.child.cursor = s.stream.log.next ∧ s.child.refused = false ∧
      s.child.view (groupRecord []).topic ≠ s.stream.current (groupRecord []).topic)
  exact hne ((h s hs).agrees hidle hpos hrefused _)

end Colca.Definitions
