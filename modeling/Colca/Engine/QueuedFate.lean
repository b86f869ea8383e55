import Colca.Engine.Queued

/-!
# The fate of a queued command

A command that waits for a child is to have one fate: handed to the child, or answered by this node. Four
paths of the code decide about it from a cursor that moves only with the child's next poll, and each can
contradict another.

* A command that was handed in a response is answered when the child asks for it again and its sender has
  lost the grant, or when the child is retired before it confirmed the response.
* A poll in flight across a retirement hands commands that the retirement has answered.
* The receipt taken from a poll's position covers commands that were refused.

`FateKept` excludes exactly these, and in every run that meets it each command has one fate
(`oneFate_of_reach`). That no answer is given twice, and that a retirement answers everything that was not
handed, needs no condition.
-/

namespace Colca.Queued

open Uns Downlink List Option State OffsetLog

variable {A : Type} {cfg : Config}

/-! ### Answers -/

namespace Answers

variable {a : Answers} {id : String} {r : RecEnc} {code : ℕ} {m : String}

theorem answered_iff : a.answered id ↔ id ∈ a.given.map Outcome.correlationID := by
  simp [answered]

/-- The memory holds the last answers. -/
def Recent (a : Answers) : Prop :=
  SeenWindow.Remembers answeredHereLimit (a.given.map Outcome.correlationID) a.order

/-- **One answer**: the command is answered afterwards, nothing else changes, and the memory is kept. -/
structure Answered (cfg : Config) (a : Answers) (r : RecEnc) (a' : Answers) : Prop where
  recent : a'.Recent
  mono : ∀ id, a.answered id → a'.answered id
  only : ∀ id, a'.answered id → a.answered id ∨ id = cfg.correlationID r.payload
  self : (∃ p, parse r.topic = .ok p) → cfg.correlationID r.payload ≠ "" →
    a'.answered (cfg.correlationID r.payload)

theorem answerQueued_spec (h : a.Recent) (cfg : Config) (r : RecEnc) (code : ℕ) (m : String) :
    Answered cfg a r (a.answerQueued cfg r code m) := by
  unfold answerQueued
  cases ho : queuedAnswer cfg r code m with
  | none =>
    refine ⟨h, fun _ h ↦ h, fun _ h ↦ .inl h, ?_⟩
    rintro ⟨p, hp⟩ hid
    simp [queuedAnswer, hp, hid] at ho
  | some o =>
    have hoid : o.correlationID = cfg.correlationID r.payload := by
      unfold queuedAnswer at ho
      split at ho
      · cases ho
      · split at ho <;> cases ho
        rfl
    dsimp only
    split
    · -- remembered: it was answered before
      rename_i hseen
      refine ⟨h, fun _ h ↦ h, fun _ h ↦ .inl h, fun _ _ ↦ ?_⟩
      rw [← hoid]
      exact answered_iff.mpr (h.mem_of_mem_order (contains_iff_mem.mp hseen))
    · rename_i hnew
      have hnew' : o.correlationID ∉ a.order := by simpa using hnew
      refine ⟨?_, fun id hid ↦ ?_, fun id hid ↦ ?_, fun _ _ ↦ ?_⟩
      · show SeenWindow.Remembers _ ((a.given ++ [o]).map _) _
        rw [map_append]
        exact h.push hnew'
      · rw [answered_iff] at hid ⊢
        rw [map_append]
        exact mem_append_left _ hid
      · rw [answered_iff, map_append, mem_append] at hid
        refine hid.imp answered_iff.mpr fun hid ↦ ?_
        rw [← hoid]
        simpa using hid
      · rw [answered_iff, map_append, ← hoid]
        simp

/-- **Answers to a list of commands.** -/
structure AnsweredEach (cfg : Config) (message : RecEnc → Option String) (a : Answers)
    (xs : List (ℕ × RecEnc)) (a' : Answers) : Prop where
  recent : a'.Recent
  mono : ∀ id, a.answered id → a'.answered id
  only : ∀ id, a'.answered id → a.answered id ∨ ∃ x ∈ xs, (message x.2).isSome ∧ id = cfg.idOf x
  each : ∀ x ∈ xs, (message x.2).isSome → (∃ p, parse x.2.topic = .ok p) → cfg.idOf x ≠ "" →
    a'.answered (cfg.idOf x)

theorem answerEach_spec (h : a.Recent) (cfg : Config) (code : ℕ) (message : RecEnc → Option String)
    (xs : List (ℕ × RecEnc)) : AnsweredEach cfg message a xs (a.answerEach cfg code message xs) := by
  induction xs generalizing a with
  | nil => exact ⟨h, fun _ h ↦ h, fun _ h ↦ .inl h, by simp⟩
  | cons x xs ih =>
    cases hm : message x.2 with
    | none =>
      have heq : a.answerEach cfg code message (x :: xs) = a.answerEach cfg code message xs := by
        simp [answerEach, hm]
      obtain ⟨hrecent, hmono, honly, heach⟩ := ih h
      rw [heq]
      refine ⟨hrecent, hmono, fun id hid ↦ ?_, fun y hy hsome ↦ ?_⟩
      · refine (honly id hid).imp_right fun ⟨y, hy, h⟩ ↦ ⟨y, mem_cons_of_mem _ hy, h⟩
      · rcases mem_cons.mp hy with rfl | hy
        · simp [hm] at hsome
        · exact heach y hy hsome
    | some m =>
      have heq : a.answerEach cfg code message (x :: xs) =
          (a.answerQueued cfg x.2 code m).answerEach cfg code message xs := by
        simp [answerEach, hm]
      have hone := answerQueued_spec h cfg x.2 code m
      obtain ⟨hrecent, hmono, honly, heach⟩ := ih hone.recent
      rw [heq]
      refine ⟨hrecent, fun id hid ↦ hmono id (hone.mono id hid), fun id hid ↦ ?_, fun y hy hsome ↦ ?_⟩
      · rcases honly id hid with hid | ⟨y, hy, h⟩
        · exact (hone.only id hid).imp_right fun h ↦ ⟨x, mem_cons_self, by simp [hm], h⟩
        · exact .inr ⟨y, mem_cons_of_mem _ hy, h⟩
      · rcases mem_cons.mp hy with rfl | hy
        · exact fun hp hid ↦ hmono _ (hone.self hp hid)
        · exact heach y hy hsome

end Answers

/-! ### The property and the condition -/

variable (cfg) in
/-- **One fate.** -/
structure OneFate (s : State A) : Prop where
  /-- A command this node answered was in no downlink response, and its sender was not told that it was
  forwarded. -/
  apart : ∀ x ∈ s.link.commands.entries, cfg.forChild x → s.answers.answered (cfg.idOf x) →
    s.handed x.1 = false ∧ cfg.idOf x ∉ s.forwarded
  /-- Between two answers to one command lie at least `answeredHereLimit` others. -/
  once : ∀ (i j : ℕ) (o o' : Outcome), i < j → s.answers.given[i]? = some o →
    s.answers.given[j]? = some o' → o.correlationID = o'.correlationID → i + answeredHereLimit < j
  /-- Once the retirement and its answers are done, every command of the run stored before that was live
  when the retirement began was in a response or has been answered. -/
  settled : ∀ start now head, s.retirement = .done start now head →
    ∀ x ∈ s.link.commands.entries, cfg.forChild x → cfg.stored.next ≤ x.1 → x.1 < head →
      cfg.commandStillLive now x → s.handed x.1 ∨ s.answers.answered (cfg.idOf x)

/-- The command was queued for the child when the retirement's answers were given, and live when it
began. -/
def State.dropped (cfg : Config) (s : State A) (x : ℕ × RecEnc) : Bool :=
  match s.retirement with
  | .done start now head => decide (start ≤ x.1 ∧ x.1 < head) && cfg.commandStillLive now x
  | _ => false

variable {x : ℕ × RecEnc}

theorem dropped_iff {s : State A} : s.dropped cfg x ↔
    ∃ start now head, s.retirement = .done start now head ∧ start ≤ x.1 ∧ x.1 < head ∧
      cfg.commandStillLive now x := by
  unfold State.dropped
  split
  · rename_i start now head hd
    simp only [Bool.and_eq_true, decide_eq_true_eq]
    constructor
    · rintro ⟨⟨hle, hlt⟩, hlive⟩
      exact ⟨start, now, head, hd, hle, hlt, hlive⟩
    · rintro ⟨_, _, _, heq, hle, hlt, hlive⟩
      cases hd.symm.trans heq
      exact ⟨⟨hle, hlt⟩, hlive⟩
  · rename_i hne
    refine ⟨fun h ↦ absurd h (by simp), ?_⟩
    rintro ⟨start, now, head, heq, -⟩
    exact absurd heq (hne start now head)

/-- What the retirement is about to answer. -/
def State.toDrop (cfg : Config) (s : State A) : List (ℕ × RecEnc) :=
  match s.retirement with
  | .retired start now => s.queued cfg start now
  | _ => []

/-- **The condition** on the steps that speak about queued commands. -/
def FateKept (cfg : Config) (s : State A) : Event A → Prop
  -- no command that asks for progress was withheld from what the child confirms
  | .note i => ∀ id ∈ s.arrived[i]?.toList, ∀ r ∈ s.link.requests[id]?.toList, ∀ c ∈ s.cursor.toList,
      ∀ x ∈ s.link.commands.entries, (c ≤ x.1 ∧ x.1 < r.after) →
        (cfg.forChild x ∧ cfg.wantsProgress x.2.payload) → x.1 ∉ s.link.withheld
  -- of what the poll reads, nothing handed before is refused now, and nothing the retirement dropped is not
  | .answer i => ∀ p ∈ s.link.polls[i]?.toList, ∀ x ∈ (p.read cfg.classOf s.link.commands).1,
      if refused s.directory x then s.handed x.1 = false else s.dropped cfg x = false
  -- nothing that is to be answered was handed
  | .drop => ∀ x ∈ s.toDrop cfg, s.handed x.1 = false
  | _ => True

instance (cfg : Config) (s : State A) : ∀ e, Decidable (FateKept cfg s e)
  | .note i => inferInstanceAs (Decidable (∀ id ∈ s.arrived[i]?.toList, _))
  | .answer i => inferInstanceAs (Decidable (∀ p ∈ s.link.polls[i]?.toList, _))
  | .drop => inferInstanceAs (Decidable (∀ x ∈ s.toDrop cfg, _))
  | .append _ | .tick _ | .lose _ | .other .. | .arrive _ | .link _ | .prepare | .retire => isTrue trivial

/-! ### The invariant -/

/-- The queue position a retirement took. -/
def Retirement.start? : Retirement → Option ℕ
  | .none => Option.none
  | .prepared start _ | .retired start _ | .done start _ _ => some start

variable (cfg) in
/-- Where the child, its cursor at the node and a retirement stand. -/
structure Reading (s : State A) : Prop where
  link : s.link.Inv cfg.classOf
  polls : ∀ p ∈ s.link.polls, p.mount = cfg.mount
  responses : ∀ r ∈ s.link.responses, r.mount = cfg.mount
  position : ∃ p, s.link.position = some p ∧ cfg.stored.next ≤ p
  requests : ∀ r ∈ s.link.requests, cfg.stored.next ≤ r.after
  cursor : ∀ c ∈ s.cursor, cfg.stored.next ≤ c ∧ ∃ p ∈ s.link.position, c ≤ p
  seated : s.retirement = .none → s.cursor.isSome
  start : ∀ b ∈ s.retirement.start?, cfg.stored.next ≤ b ∧ ∃ p ∈ s.link.position, b ≤ p
  head : ∀ start now head, s.retirement = .done start now head → head ≤ s.link.commands.next

variable (cfg) in
/-- The commands of the run have ids of their own. -/
structure Ids (l : OffsetLog RecEnc) : Prop where
  named : ∀ x ∈ l.entries, cfg.forChild x → cfg.stored.next ≤ x.1 → cfg.idOf x ≠ ""
  distinct : ∀ x ∈ l.entries, ∀ y ∈ l.entries, cfg.forChild x → cfg.forChild y →
    cfg.stored.next ≤ y.1 → cfg.idOf x = cfg.idOf y → x = y

variable (cfg) in
/-- What was handed, withheld, confirmed and answered. -/
structure Fates (s : State A) : Prop where
  /-- Who was refused is refused still, and was told. -/
  withheld : ∀ o ∈ s.link.withheld, ∃ x ∈ s.link.commands.entries, x.1 = o ∧ cfg.forChild x ∧
    refused s.directory x ∧ s.answers.answered (cfg.idOf x)
  /-- What was reported as forwarded was handed. -/
  forwarded : ∀ id ∈ s.forwarded, ∃ x ∈ s.link.commands.entries, cfg.forChild x ∧
    cfg.stored.next ≤ x.1 ∧ cfg.idOf x = id ∧ s.handed x.1
  /-- What was answered was not handed, and was refused or dropped. -/
  answered : ∀ x ∈ s.link.commands.entries, cfg.forChild x → s.answers.answered (cfg.idOf x) →
    cfg.stored.next ≤ x.1 ∧ s.handed x.1 = false ∧ (x.1 ∈ s.link.withheld ∨ s.dropped cfg x)
  /-- What was dropped was answered. -/
  dropped : ∀ x ∈ s.link.commands.entries, cfg.forChild x → s.dropped cfg x →
    s.answers.answered (cfg.idOf x)
  recent : s.answers.Recent
  settled : ∀ start now head, s.retirement = .done start now head →
    ∀ x ∈ s.link.commands.entries, cfg.forChild x → cfg.stored.next ≤ x.1 → x.1 < head →
      cfg.commandStillLive now x → s.handed x.1 ∨ s.answers.answered (cfg.idOf x)

variable (cfg) in
structure Inv (s : State A) : Prop where
  reading : Reading cfg s
  ids : Ids cfg s.link.commands
  fates : Fates cfg s
  /-- What the position passed was handed or withheld. -/
  passed : ∀ p ∈ s.link.position, ∀ x ∈ s.link.commands.entries, cfg.forChild x →
    cfg.stored.next ≤ x.1 → x.1 < p → s.handed x.1 ∨ x.1 ∈ s.link.withheld

variable {s s' : State A}

theorem inv_start (d : Directory A) : Inv cfg (system cfg d).start where
  reading :=
    { link := Link.inv_of_unused rfl rfl rfl rfl fun p hp ↦ by
        obtain rfl := some.inj hp
        exact ⟨cfg.stored.one_le_lwm.trans cfg.stored.lwm_le_next, le_rfl⟩
      polls := by simp [system]
      responses := by simp [system]
      position := ⟨_, rfl, le_rfl⟩
      requests := by simp [system]
      cursor := fun c hc ↦ by
        obtain rfl := some.inj hc
        exact ⟨le_rfl, _, rfl, le_rfl⟩
      seated := fun _ ↦ rfl
      start := by simp [system, Retirement.start?]
      head := fun _ _ _ h ↦ by cases h }
  ids :=
    -- nothing of the run is stored yet
    { named := fun x hx _ hle ↦ absurd (cfg.stored.bounds x hx).2 hle.not_gt
      distinct := fun _ _ y hy _ _ hle ↦ absurd (cfg.stored.bounds y hy).2 hle.not_gt }
  fates :=
    { withheld := by simp [system]
      forwarded := by simp [system]
      answered := fun x _ _ h ↦ by simp [system, Answers.answered] at h
      dropped := fun x _ _ h ↦ by simp [system, State.dropped] at h
      recent := SeenWindow.remembers_nil _
      settled := fun _ _ _ h ↦ by cases h }
  passed := fun p hp x hx _ _ hlt ↦ by
    obtain rfl := some.inj hp
    exact absurd (cfg.stored.bounds x hx).2 (by omega)

/-- **The invariant gives every command one fate.** -/
theorem Inv.oneFate (h : Inv cfg s) : OneFate cfg s where
  apart x hx hfor hans := by
    obtain ⟨hle, hnot, -⟩ := h.fates.answered x hx hfor hans
    refine ⟨hnot, fun hfwd ↦ ?_⟩
    obtain ⟨y, hy, hfory, hley, hid, hhanded⟩ := h.fates.forwarded _ hfwd
    obtain rfl := h.ids.distinct y hy x hx hfory hfor hle hid
    rw [hnot] at hhanded
    cases hhanded
  once i j o o' hij hi hj hid := by
    refine h.fates.recent.apart i j o.correlationID hij ?_ ?_
    · simp [hi]
    · simp [hj, hid]
  settled := h.fates.settled

/-! ### Steps that hand and answer nothing -/

variable {e : RecEnc}

theorem fresh_spec (h : s.fresh cfg e) :
    cfg.correlationID e.payload ≠ "" ∧ s.answers.answered (cfg.correlationID e.payload) = false ∧
      ∀ x ∈ s.link.commands.entries, cfg.forChild x → cfg.idOf x ≠ cfg.correlationID e.payload := by
  simp only [fresh, Bool.and_eq_true, decide_eq_true_eq, List.all_eq_true, Bool.not_eq_true',
    Bool.and_eq_false_iff, beq_eq_false_iff_ne] at h
  refine ⟨h.1.1, h.2, fun x hx hfor ↦ (h.1.2 x hx).resolve_left ?_⟩
  simp [hfor]

theorem Reading.append (h : Reading cfg s) (e : RecEnc) :
    Reading cfg { s with link := { s.link with commands := s.link.commands.append e } } :=
  { h with
    link := h.link.moves (parentMoves_append _ e)
    head := fun start now head hd ↦ Nat.le_succ_of_le (h.head start now head hd) }

theorem Ids.append (h : Ids cfg s.link.commands) (hf : cfg.forChild (0, e) → s.fresh cfg e) :
    Ids cfg (s.link.commands.append e) where
  named := forall_mem_concat h.named fun hfor _ ↦ (fresh_spec (hf hfor)).1
  distinct x hx y hy hfx hfy hley hid := by
    rcases mem_append.mp hx with hx | hx <;> rcases mem_append.mp hy with hy | hy
    · exact h.distinct x hx y hy hfx hfy hley hid
    · obtain rfl := mem_singleton.mp hy
      exact absurd hid ((fresh_spec (hf hfy)).2.2 x hx hfx)
    · obtain rfl := mem_singleton.mp hx
      exact absurd hid.symm ((fresh_spec (hf hfx)).2.2 y hy hfy)
    · rw [mem_singleton.mp hx, mem_singleton.mp hy]

theorem Inv.append (h : Inv cfg s) (hf : cfg.forChild (0, e) → s.fresh cfg e) :
    Inv cfg { s with link := { s.link with commands := s.link.commands.append e } } := by
  refine ⟨h.reading.append e, h.ids.append hf, ?_, ?_⟩
  · exact {
      withheld := fun o ho ↦ by
        obtain ⟨x, hx, h⟩ := h.fates.withheld o ho
        exact ⟨x, mem_append_left _ hx, h⟩
      forwarded := fun id hid ↦ by
        obtain ⟨x, hx, h⟩ := h.fates.forwarded id hid
        exact ⟨x, mem_append_left _ hx, h⟩
      -- a new command brings an id nobody was answered about
      answered := forall_mem_concat h.fates.answered fun hfor hans ↦
        absurd hans (by simp [Config.idOf, (fresh_spec (hf hfor)).2.1])
      dropped := forall_mem_concat h.fates.dropped fun hfor hdrop ↦ by
        obtain ⟨start, now, head, hd, -, hlt, -⟩ := dropped_iff.mp hdrop
        exact absurd (h.reading.head start now head hd) hlt.not_ge
      recent := h.fates.recent
      settled := fun start now head hd ↦ forall_mem_concat (h.fates.settled start now head hd)
        fun _ _ hlt _ ↦ absurd (h.reading.head start now head hd) hlt.not_ge }
  · exact fun p' hp' ↦ forall_mem_concat (h.passed p' hp') fun _ _ hlt ↦
      absurd (h.reading.link.position_le p' hp').2 hlt.not_ge

variable {d : Directory A}

theorem Inv.lose (h : Inv cfg s) (hd : ∀ x ∈ s.link.commands.entries, cfg.forChild x →
    refused s.directory x → refused d x) : Inv cfg { s with directory := d } :=
  { reading := { h.reading with }
    ids := h.ids
    fates := { h.fates with
      withheld := fun o ho ↦ by
        obtain ⟨x, hx, heq, hfor, hr, hans⟩ := h.fates.withheld o ho
        exact ⟨x, hx, heq, hfor, hd x hx hfor hr, hans⟩ }
    passed := h.passed }

theorem Inv.other (h : Inv cfg s) {r : RecEnc} (hr : ∀ x ∈ s.link.commands.entries, cfg.forChild x →
    cfg.idOf x ≠ cfg.correlationID r.payload) (code : ℕ) (message : String) :
    Inv cfg { s with answers := s.answers.answerQueued cfg r code message } := by
  have hspec := Answers.answerQueued_spec h.fates.recent cfg r code message
  exact
    { reading := { h.reading with }
      ids := h.ids
      fates := { h.fates with
        withheld := fun o ho ↦ by
          obtain ⟨x, hx, heq, hfor, hr, hans⟩ := h.fates.withheld o ho
          exact ⟨x, hx, heq, hfor, hr, hspec.mono _ hans⟩
        answered := fun x hx hfor hans ↦
          h.fates.answered x hx hfor ((hspec.only _ hans).resolve_right (hr x hx hfor))
        dropped := fun x hx hfor hdrop ↦ hspec.mono _ (h.fates.dropped x hx hfor hdrop)
        recent := hspec.recent
        settled := fun start now head hd x hx hfor hle hlt hlive ↦
          (h.fates.settled start now head hd x hx hfor hle hlt hlive).imp_right (hspec.mono _) }
      passed := h.passed }

variable {l : Link}

/-- A step of the child leaves the fates alone. -/
theorem Fates.setLink (h : Fates cfg s) (hc : l.commands = s.link.commands)
    (hw : l.withheld = s.link.withheld) (hr : l.responses = s.link.responses) :
    Fates cfg { s with link := l } := by
  obtain ⟨commands, withheld, requests, polls, responses, position, received, phase⟩ := l
  obtain rfl : commands = s.link.commands := hc
  obtain rfl : withheld = s.link.withheld := hw
  obtain rfl : responses = s.link.responses := hr
  exact { h with }

theorem handed_of_mem {r : Response} (hr : r ∈ s.link.responses) {y : ℕ × RecEnc}
    (hy : y ∈ r.answer.records) : s.handed y.1 :=
  any_eq_true.mpr ⟨r, hr, any_eq_true.mpr ⟨y, hy, by simp⟩⟩

variable {le : Link.Event}

/-- The child moves on only over what it was handed and what was withheld. -/
theorem Inv.link_passed (h : Inv cfg s) (hl : s.link.step cfg.classOf le = some l) {p' : ℕ}
    (hp' : l.position = some p') (hx : x ∈ s.link.commands.entries) (hfor : cfg.forChild x)
    (hle : cfg.stored.next ≤ x.1) (hlt : x.1 < p') : s.handed x.1 ∨ x.1 ∈ s.link.withheld := by
  obtain ⟨p, hp, -⟩ := h.reading.position
  rcases Link.step_position hl with heq | hn | ⟨upTo, r, q, rfl, hph, hq, hup, rfl⟩
  · exact h.passed p' (heq ▸ hp') x hx hfor hle hlt
  · rw [hn] at hp
    cases hp
  · obtain rfl := some.inj hp'
    rcases lt_or_ge x.1 q with hxq | hqx
    · exact h.passed q hq x hx hfor hle hxq
    · have hmem := (h.reading.link.held r (hph ▸ rfl)).mem
      have hforr : Downlink.forChild cfg.classOf r.mount x.2.topic := by
        rw [h.reading.responses r hmem]
        exact hfor
      refine (h.reading.link.mem_of_lt_next hph hq hx hqx (by omega) hforr).imp_left ?_
      rintro ⟨y, hy, heq⟩
      exact heq ▸ handed_of_mem hmem hy

/-- The position only moves forward. -/
theorem link_position (hl : s.link.step cfg.classOf le = some l) {p : ℕ}
    (hp : s.link.position = some p) : ∃ p', l.position = some p' ∧ p ≤ p' := by
  rcases Link.step_position hl with heq | hn | ⟨upTo, r, q, rfl, -, hq, -, rfl⟩
  · exact ⟨p, heq.trans hp, le_rfl⟩
  · rw [hn] at hp
    cases hp
  · obtain rfl := some.inj (hq.symm.trans hp)
    exact ⟨_, rfl, le_max_left _ _⟩

theorem Inv.link (h : Inv cfg s) (hl : s.link.step cfg.classOf le = some l) :
    Inv cfg { s with link := l } := by
  have hf := Link.step_frame hl
  obtain ⟨p, hp, hlep⟩ := h.reading.position
  obtain ⟨p', hp', hpp⟩ := link_position hl hp
  have hforward : ∀ c, (∃ q ∈ s.link.position, c ≤ q) → ∃ q ∈ l.position, c ≤ q := by
    rintro c ⟨q, hq, hcq⟩
    obtain rfl := some.inj (hp.symm.trans hq)
    exact ⟨p', hp', hcq.trans hpp⟩
  refine ⟨?_, hf.commands ▸ h.ids, h.fates.setLink hf.commands hf.withheld hf.responses, ?_⟩
  · exact
      { link := h.reading.link.step hl
        polls := fun q hq ↦ by
          obtain ⟨q', hq', heq⟩ := hf.mounts q hq
          exact heq.trans (h.reading.polls q' hq')
        responses := fun r hr ↦ h.reading.responses r (hf.responses ▸ hr)
        position := ⟨p', hp', hlep.trans hpp⟩
        requests := fun r hr ↦ by
          rcases hf.requests r hr with hr | hr
          · exact h.reading.requests r hr
          · obtain rfl := some.inj (hp.symm.trans hr)
            exact hlep
        cursor := fun c hc ↦ (h.reading.cursor c hc).imp_right (hforward c)
        seated := h.reading.seated
        start := fun b hb ↦ (h.reading.start b hb).imp_right (hforward b)
        head := fun start now head hd ↦ by
          show head ≤ l.commands.next
          rw [hf.commands]
          exact h.reading.head start now head hd }
  · intro q hq x hx hfor hle hlt
    have hx' : x ∈ s.link.commands.entries := hf.commands ▸ hx
    show handed { s with link := l } x.1 = true ∨ x.1 ∈ l.withheld
    rw [hf.withheld, show handed { s with link := l } x.1 = s.handed x.1 by
      simp only [handed, hf.responses]]
    exact h.link_passed hl hq hx' hfor hle hlt

/-! ### Receipts -/

theorem mem_noteForwarded {after : ℕ} (hx : x ∈ s.noteForwarded cfg after) :
    ∃ c, s.cursor = some c ∧ x ∈ s.link.commands.entries ∧ c ≤ x.1 ∧ x.1 < after ∧ cfg.forChild x ∧
      cfg.wantsProgress x.2.payload := by
  unfold noteForwarded at hx
  split at hx
  · cases hx
  · rename_i c hc
    split at hx
    · cases hx
    · simp only [mem_filter, Bool.and_eq_true, decide_eq_true_eq] at hx
      obtain ⟨hx, ⟨⟨⟨hle, hlt⟩, hfor⟩, hwants⟩, -⟩ := hx
      exact ⟨c, hc, hx, (le_max_left _ _).trans hle, hlt, hfor, hwants⟩

theorem cursorAck_cases {cursor : Option ℕ} {off c : ℕ} (h : cursorAck cursor off = some c) :
    c = off ∨ cursor = some c := by
  unfold cursorAck at h
  split at h
  · exact .inl (some.inj h).symm
  · exact .inr h

theorem cursorAck_isSome {cursor : Option ℕ} (h : cursor.isSome) (off : ℕ) :
    (cursorAck cursor off).isSome := by
  unfold cursorAck
  split
  · rfl
  · exact h

variable {i : ℕ}

theorem Inv.note (h : Inv cfg s) {id : ℕ} {r : Request} (hi : s.arrived[i]? = some id)
    (hr : s.link.requests[id]? = some r) (hC : FateKept cfg s (.note i)) :
    Inv cfg { s with
      arrived := s.arrived.eraseIdx i
      forwarded := s.forwarded ++ (s.noteForwarded cfg (Poll.arrive id r cfg.mount).after).map cfg.idOf
      cursor := cursorAck s.cursor (Poll.arrive id r cfg.mount).after
      link := s.link.arrive id r cfg.mount } := by
  obtain ⟨hone, p, hp, hrp⟩ := h.reading.link.requests r (mem_of_getElem? hr)
  have hafter : (Poll.arrive id r cfg.mount).after = r.after := if_neg (by omega)
  have hler := h.reading.requests r (mem_of_getElem? hr)
  rw [hafter]
  refine ⟨?_, h.ids, ?_, h.passed⟩
  · exact { h.reading with
      link := h.reading.link.arrive hr cfg.mount
      polls := forall_mem_concat h.reading.polls rfl
      cursor := fun c hc ↦ by
        rcases cursorAck_cases hc with rfl | hc
        · exact ⟨hler, p, hp, hrp⟩
        · exact h.reading.cursor c hc
      seated := fun hn ↦ cursorAck_isSome (h.reading.seated hn) _ }
  · refine { h.fates with forwarded := fun fid hfid ↦ ?_ }
    rcases mem_append.mp hfid with hfid | hfid
    · exact h.fates.forwarded fid hfid
    · -- what the child confirms was handed, since what was withheld asks for no progress
      obtain ⟨x, hx, rfl⟩ := mem_map.mp hfid
      obtain ⟨c, hc, hx, hcx, hlt, hfor, hwants⟩ := mem_noteForwarded hx
      have hlex := (h.reading.cursor c hc).1.trans hcx
      have hnot : x.1 ∉ s.link.withheld :=
        hC id (by simp [hi]) r (by simp [hr]) c (by simp [hc]) x hx ⟨hcx, hlt⟩ ⟨hfor, hwants⟩
      exact ⟨x, hx, hfor, hlex, rfl, (h.passed p hp x hx hfor hlex (hlt.trans_le hrp)).resolve_right hnot⟩

/-! ### Answers to polls -/

variable {p : Poll}

/-- What an answer adds to the commands handed. -/
theorem handed_answer {o : ℕ} {answers : Answers} (h : handed { s with
      answers := answers, link := s.link.answer cfg.classOf i p (refused s.directory) } o) :
    s.handed o ∨ ∃ x ∈ (p.read cfg.classOf s.link.commands).1, x.1 = o ∧ refused s.directory x = false := by
  obtain ⟨r, hr, hany⟩ := any_eq_true.mp h
  obtain ⟨y, hy, heq⟩ := any_eq_true.mp hany
  obtain rfl := beq_iff_eq.mp heq
  rcases mem_append.mp hr with hr | hr
  · exact .inl (handed_of_mem hr hy)
  · rw [mem_singleton.mp hr] at hy
    obtain ⟨x, hx, ⟨hle, hlt⟩, hfor, href, hs⟩ := Poll.mem_answer.mp hy
    exact .inr ⟨x, OffsetLog.mem_read.mpr ⟨hx, hle, hlt, hfor⟩, (Poll.strip_fst hs).symm, href⟩

theorem handed_mono {o : ℕ} {answers : Answers} (h : s.handed o) :
    handed { s with
      answers := answers, link := s.link.answer cfg.classOf i p (refused s.directory) } o := by
  obtain ⟨r, hr, hany⟩ := any_eq_true.mp h
  exact any_eq_true.mpr ⟨r, mem_append_left _ hr, hany⟩

theorem parse_of_forChild (h : cfg.forChild x) : ∃ p, parse x.2.topic = .ok p := by
  unfold Config.forChild Downlink.forChild at h
  split at h
  · cases h
  · exact ⟨_, by assumption⟩

/-- What a poll reads is a command of the run for the child. -/
theorem Reading.mem_read (h : Reading cfg s) (hp : p ∈ s.link.polls)
    (hx : x ∈ (p.read cfg.classOf s.link.commands).1) :
    x ∈ s.link.commands.entries ∧ cfg.forChild x ∧ cfg.stored.next ≤ x.1 := by
  obtain ⟨q, hq, hcrossed⟩ := h.link.polls p hp
  have hleq := h.requests q (mem_of_getElem? hq)
  obtain ⟨hmem, hle, -, hfor⟩ := OffsetLog.mem_read.mp hx
  rw [h.polls p hp] at hfor
  exact ⟨hmem, hfor, hleq.trans (hcrossed.le_after.trans hle)⟩

/-- Why a command was answered, by what holds now. -/
theorem Fates.why (h : Fates cfg s) (hx : x ∈ s.link.commands.entries) (hfor : cfg.forChild x)
    (hans : s.answers.answered (cfg.idOf x)) :
    cfg.stored.next ≤ x.1 ∧ s.handed x.1 = false ∧
      (refused s.directory x ∧ x.1 ∈ s.link.withheld ∨ s.dropped cfg x) := by
  obtain ⟨hle, hnot, hwhy⟩ := h.answered x hx hfor hans
  refine ⟨hle, hnot, hwhy.imp_left fun hw ↦ ?_⟩
  obtain ⟨y, hy, heq, -, hr, -⟩ := h.withheld x.1 hw
  obtain rfl := eq_of_offset_eq s.link.commands.increasing hy hx heq
  exact ⟨hr, hw⟩

theorem Inv.answer (h : Inv cfg s) (hp : s.link.polls[i]? = some p) (hC : FateKept cfg s (.answer i)) :
    Inv cfg { s with
      answers := s.answers.answerEach cfg ackRevoked (forwardRefusal s.directory)
        (p.read cfg.classOf s.link.commands).1
      link := s.link.answer cfg.classOf i p (refused s.directory) } := by
  have hspec := Answers.answerEach_spec h.fates.recent cfg ackRevoked (forwardRefusal s.directory)
    (p.read cfg.classOf s.link.commands).1
  have hread : ∀ x ∈ (p.read cfg.classOf s.link.commands).1, x ∈ s.link.commands.entries ∧
      cfg.forChild x ∧ cfg.stored.next ≤ x.1 := fun _ ↦ h.reading.mem_read (mem_of_getElem? hp)
  have hcond : ∀ x ∈ (p.read cfg.classOf s.link.commands).1,
      if refused s.directory x then s.handed x.1 = false else s.dropped cfg x = false :=
    hC p (by simp [hp])
  refine ⟨?_, h.ids, ?_, ?_⟩
  · exact { h.reading with
      link := h.reading.link.answer hp _
      polls := fun p' hp' ↦ h.reading.polls p' (mem_of_mem_eraseIdx hp')
      responses := forall_mem_concat h.reading.responses
        (h.reading.polls p (mem_of_getElem? hp)) }
  · exact
      { withheld := fun o ho ↦ by
          rcases mem_append.mp ho with ho | ho
          · obtain ⟨x, hx, heq, hfor, hr, hans⟩ := h.fates.withheld o ho
            exact ⟨x, hx, heq, hfor, hr, hspec.mono _ hans⟩
          · obtain ⟨x, hx, rfl⟩ := mem_map.mp ho
            obtain ⟨hx, hr⟩ := mem_filter.mp hx
            obtain ⟨hmem, hfor, hle⟩ := hread x hx
            exact ⟨x, hmem, rfl, hfor, hr,
              hspec.each x hx hr (parse_of_forChild hfor) (h.ids.named x hmem hfor hle)⟩
        forwarded := fun id hid ↦ by
          obtain ⟨x, hx, hfor, hle, heq, hhanded⟩ := h.fates.forwarded id hid
          exact ⟨x, hx, hfor, hle, heq, handed_mono hhanded⟩
        answered := fun x hx hfor hans ↦ by
          -- the command is refused now, or was answered before
          obtain ⟨hle, hnot, hwhy⟩ : cfg.stored.next ≤ x.1 ∧ s.handed x.1 = false ∧
              (refused s.directory x ∧ x.1 ∈ (s.link.answer cfg.classOf i p
                (refused s.directory)).withheld ∨ s.dropped cfg x) := by
            rcases hspec.only _ hans with hans | ⟨y, hy, hsome, hid⟩
            · obtain ⟨hle, hnot, hwhy⟩ := h.fates.why hx hfor hans
              exact ⟨hle, hnot, hwhy.imp_left fun ⟨hr, hw⟩ ↦ ⟨hr, mem_append_left _ hw⟩⟩
            · obtain ⟨hmem, hfory, hle⟩ := hread y hy
              obtain rfl := h.ids.distinct x hx y hmem hfor hfory hle hid
              have hr : refused s.directory x := hsome
              have hnot := hcond x hy
              rw [if_pos hr] at hnot
              exact ⟨hle, hnot, .inl ⟨hr, mem_append_right _
                (mem_map_of_mem (mem_filter.mpr ⟨hy, hr⟩))⟩⟩
          refine ⟨hle, Bool.eq_false_iff.mpr fun hnew ↦ ?_, hwhy.imp_left And.right⟩
          rcases handed_answer hnew with hold | ⟨y, hy, heq, hr⟩
          · rw [hnot] at hold
            cases hold
          · obtain rfl := eq_of_offset_eq s.link.commands.increasing (hread y hy).1 hx heq
            rcases hwhy with ⟨href, -⟩ | hdrop
            · rw [hr] at href
              cases href
            · have hnotdrop := hcond y hy
              rw [if_neg (by simp [hr])] at hnotdrop
              rw [hnotdrop] at hdrop
              cases hdrop
        dropped := fun x hx hfor hdrop ↦ hspec.mono _ (h.fates.dropped x hx hfor hdrop)
        recent := hspec.recent
        settled := fun start now head hd x hx hfor hle hlt hlive ↦
          (h.fates.settled start now head hd x hx hfor hle hlt hlive).imp handed_mono (hspec.mono _) }
  · intro p' hp' x hx hfor hle hlt
    exact (h.passed p' hp' x hx hfor hle hlt).imp handed_mono (mem_append_left _)

/-! ### Retirement -/

theorem Inv.prepare (h : Inv cfg s) (hn : s.retirement = .none) :
    Inv cfg { s with retirement := .prepared (s.cursor.getD 1) s.now } := by
  obtain ⟨c, hc⟩ := isSome_iff_exists.mp (h.reading.seated hn)
  refine ⟨?_, h.ids, ?_, h.passed⟩
  · exact { h.reading with
      seated := fun hn ↦ by cases hn
      start := fun b hb ↦ by
        have hb' : c = b := by simpa [Retirement.start?, hc] using hb
        exact hb' ▸ h.reading.cursor c hc
      head := fun _ _ _ hd ↦ by cases hd }
  · exact { h.fates with
      answered := fun x hx hfor hans ↦ by
        obtain ⟨hle, hnot, hwhy⟩ := h.fates.answered x hx hfor hans
        refine ⟨hle, hnot, hwhy.imp_right fun hdrop ↦ ?_⟩
        simp [State.dropped, hn] at hdrop
      dropped := fun x _ _ hdrop ↦ by simp [State.dropped] at hdrop
      settled := fun _ _ _ hd ↦ by cases hd }

variable {now : ℤ}

theorem Inv.retire (h : Inv cfg s) {start : ℕ} (hr : s.retirement = .prepared start now) :
    Inv cfg { s with retirement := .retired start now, cursor := none } := by
  refine ⟨?_, h.ids, ?_, h.passed⟩
  · exact { h.reading with
      cursor := by simp
      seated := fun hn ↦ by cases hn
      start := fun b hb ↦ h.reading.start b (by rw [hr]; exact hb)
      head := fun _ _ _ hd ↦ by cases hd }
  · exact { h.fates with
      answered := fun x hx hfor hans ↦ by
        obtain ⟨hle, hnot, hwhy⟩ := h.fates.answered x hx hfor hans
        refine ⟨hle, hnot, hwhy.imp_right fun hdrop ↦ ?_⟩
        simp [State.dropped, hr] at hdrop
      dropped := fun x _ _ hdrop ↦ by simp [State.dropped] at hdrop
      settled := fun _ _ _ hd ↦ by cases hd }

theorem mem_queued {start : ℕ} : x ∈ s.queued cfg start now ↔
    x ∈ s.link.commands.entries ∧ start ≤ x.1 ∧ cfg.forChild x ∧ cfg.commandStillLive now x := by
  simp only [queued, mem_filter, Bool.and_eq_true, decide_eq_true_eq, max_le_iff]
  constructor
  · rintro ⟨hx, ⟨⟨hle, -⟩, hfor⟩, hlive⟩
    exact ⟨hx, hle, hfor, hlive⟩
  · rintro ⟨hx, hle, hfor, hlive⟩
    exact ⟨hx, ⟨⟨hle, (s.link.commands.bounds x hx).1⟩, hfor⟩, hlive⟩

theorem Inv.drop (h : Inv cfg s) {start : ℕ} (hr : s.retirement = .retired start now)
    (hC : FateKept cfg s .drop) :
    Inv cfg { s with
      answers := s.answers.answerEach cfg ackDropped (fun _ ↦ some (dropMessage cfg.child))
        (s.queued cfg start now)
      retirement := .done start now s.link.commands.next } := by
  have hspec := Answers.answerEach_spec h.fates.recent cfg ackDropped
    (fun _ ↦ some (dropMessage cfg.child)) (s.queued cfg start now)
  have hstart := h.reading.start start (by rw [hr]; rfl)
  have hnone : ∀ x ∈ s.queued cfg start now, s.handed x.1 = false := by
    simpa [FateKept, toDrop, hr] using hC
  refine ⟨?_, h.ids, ?_, h.passed⟩
  · exact { h.reading with
      seated := fun hn ↦ by cases hn
      start := fun b hb ↦ h.reading.start b (by rw [hr]; exact hb)
      head := fun _ _ head hd ↦ by
        cases hd
        exact le_rfl }
  · exact { h.fates with
      withheld := fun o ho ↦ by
        obtain ⟨x, hx, heq, hfor, hr, hans⟩ := h.fates.withheld o ho
        exact ⟨x, hx, heq, hfor, hr, hspec.mono _ hans⟩
      answered := fun x hx hfor hans ↦ by
        rcases hspec.only _ hans with hans | ⟨y, hy, -, hid⟩
        · obtain ⟨hle, hnot, hwhy⟩ := h.fates.answered x hx hfor hans
          refine ⟨hle, hnot, .inl (hwhy.resolve_right fun hdrop ↦ ?_)⟩
          simp [State.dropped, hr] at hdrop
        · obtain ⟨hmem, hle, hfory, hlive⟩ := mem_queued.mp hy
          have hley := hstart.1.trans hle
          obtain rfl := h.ids.distinct x hx y hmem hfor hfory hley hid
          refine ⟨hley, hnone x hy, .inr ?_⟩
          simp [State.dropped, hle, (s.link.commands.bounds x hmem).2, hlive]
      dropped := fun x hx hfor hdrop ↦ by
        obtain ⟨_, _, _, hd, hle, -, hlive⟩ := dropped_iff.mp hdrop
        cases hd
        exact hspec.each x (mem_queued.mpr ⟨hx, hle, hfor, hlive⟩) rfl (parse_of_forChild hfor)
          (h.ids.named x hx hfor (hstart.1.trans hle))
      recent := hspec.recent
      settled := fun start' now' head hd x hx hfor hle hlt hlive ↦ by
        cases hd
        rcases lt_or_ge x.1 start with hbelow | habove
        · -- below the queue position: handed, or withheld and answered then
          obtain ⟨p, hp, hsp⟩ := hstart.2
          refine (h.passed p hp x hx hfor hle (hbelow.trans_le hsp)).imp_right fun hw ↦ ?_
          obtain ⟨y, hy, heq, -, -, hans⟩ := h.fates.withheld x.1 hw
          obtain rfl := eq_of_offset_eq s.link.commands.increasing hy hx heq
          exact hspec.mono _ hans
        · exact .inr (hspec.each x (mem_queued.mpr ⟨hx, habove, hfor, hlive⟩) rfl
            (parse_of_forChild hfor) (h.ids.named x hx hfor hle)) }

/-! ### Runs -/

theorem inv_step {e : Event A} (h : Inv cfg s) (hC : FateKept cfg s e)
    (hs : (system cfg d).step s e = some s') : Inv cfg s' := by
  change step cfg s e = some s' at hs
  cases e with
  | append e =>
    simp only [step] at hs
    split at hs <;> cases hs
    rename_i hfresh
    refine h.append fun hfor ↦ ?_
    simpa [hfor] using hfresh
  | tick =>
    cases hs
    exact { h with reading := { h.reading with }, fates := { h.fates with } }
  | lose d =>
    simp only [step] at hs
    split at hs <;> cases hs
    rename_i hd
    exact h.lose hd
  | other r code message =>
    simp only [step] at hs
    split at hs <;> cases hs
    rename_i hr
    exact h.other hr code message
  | arrive id =>
    have hs' : ∃ ids, s' = { s with arrived := ids } := by
      simp only [step] at hs
      split at hs
      · split at hs <;> cases hs
        exact ⟨_, rfl⟩
      · split at hs <;> cases hs
        exact ⟨_, rfl⟩
      · cases hs
    obtain ⟨ids, rfl⟩ := hs'
    exact { h with reading := { h.reading with }, fates := { h.fates with } }
  | note i =>
    obtain ⟨id, hi, hs⟩ := bind_eq_some_iff.mp hs
    obtain ⟨r, hr, rfl⟩ := map_eq_some_iff.mp hs
    exact h.note hi hr hC
  | answer i =>
    obtain ⟨p, hp, rfl⟩ := map_eq_some_iff.mp hs
    exact h.answer hp hC
  | link le =>
    obtain ⟨l, hl, rfl⟩ := map_eq_some_iff.mp hs
    exact h.link hl
  | prepare =>
    simp only [step] at hs
    split at hs <;> cases hs
    exact h.prepare (by assumption)
  | retire =>
    simp only [step] at hs
    split at hs <;> cases hs
    exact h.retire (by assumption)
  | drop =>
    simp only [step] at hs
    split at hs <;> cases hs
    exact h.drop (by assumption) hC

theorem inv_of_reach (h : (system cfg d).Reach (FateKept cfg) s) : Inv cfg s :=
  h.invariant (inv_start d) fun _ _ _ hi hC hs ↦ inv_step hi hC hs

/-! ### The condition is needed -/

theorem mem_noteForwarded_of {c after : ℕ} (hc : s.cursor = some c)
    (hx : x ∈ s.link.commands.entries) (hle : c ≤ x.1) (hlt : x.1 < after) (hfor : cfg.forChild x)
    (hwants : cfg.wantsProgress x.2.payload) (hid : cfg.idOf x ≠ "") : x ∈ s.noteForwarded cfg after := by
  have hafter : ¬ after ≤ c := by omega
  simp [noteForwarded, hc, hafter, hx, hle, (s.link.commands.bounds x hx).1, hlt, hfor, hwants, hid]

theorem Inv.fateKept_note (h : Inv cfg s) (hs : step cfg s (.note i) = some s')
    (hfate : OneFate cfg s') : FateKept cfg s (.note i) := by
  obtain ⟨id, hi, hs⟩ := bind_eq_some_iff.mp hs
  obtain ⟨r, hr, rfl⟩ := map_eq_some_iff.mp hs
  intro id' hid' r' hr' c hc x hx ⟨hle, hlt⟩ ⟨hfor, hwants⟩ hw
  obtain rfl : id = id' := Eq.symm (by simpa [hi] using hid')
  obtain rfl : r = r' := Eq.symm (by simpa [hr] using hr')
  have hc' : s.cursor = some c := by simpa using hc
  have hone := (h.reading.link.requests r (mem_of_getElem? hr)).1
  have hafter : (Poll.arrive id r cfg.mount).after = r.after := if_neg (by omega)
  obtain ⟨y, hy, heq, -, -, hans⟩ := h.fates.withheld x.1 hw
  obtain rfl := eq_of_offset_eq s.link.commands.increasing hy hx heq
  -- the refused command is reported as forwarded
  refine (hfate.apart y hx hfor hans).2 (mem_append_right _ (mem_map_of_mem ?_))
  exact mem_noteForwarded_of hc' hx hle (hafter ▸ hlt) hfor hwants
    (h.ids.named y hx hfor ((h.reading.cursor c hc').1.trans hle))

theorem Inv.fateKept_answer (h : Inv cfg s) (hs : step cfg s (.answer i) = some s')
    (hfate : OneFate cfg s') : FateKept cfg s (.answer i) := by
  obtain ⟨p, hp, rfl⟩ := map_eq_some_iff.mp hs
  intro p' hp' x hx
  obtain rfl : p = p' := Eq.symm (by simpa [hp] using hp')
  have hspec := Answers.answerEach_spec h.fates.recent cfg ackRevoked (forwardRefusal s.directory)
    (p.read cfg.classOf s.link.commands).1
  obtain ⟨hmem, hfor, hle⟩ := h.reading.mem_read (mem_of_getElem? hp) hx
  split
  · -- refused now, so answered now
    rename_i hr
    have hans := hspec.each x hx hr (parse_of_forChild hfor) (h.ids.named x hmem hfor hle)
    refine Bool.eq_false_iff.mpr fun hhanded ↦ ?_
    have hnot := (hfate.apart x hmem hfor hans).1
    rw [handed_mono hhanded] at hnot
    cases hnot
  · -- handed now, so it was not dropped
    rename_i hr
    refine Bool.eq_false_iff.mpr fun hdrop ↦ ?_
    have hnot := (hfate.apart x hmem hfor (hspec.mono _ (h.fates.dropped x hmem hfor hdrop))).1
    obtain ⟨hx', hle', hlt, hforp⟩ := OffsetLog.mem_read.mp hx
    obtain ⟨y, hy, heq⟩ := Poll.exists_mem_answer hx' hle' (hlt.trans_le (Poll.le_next _ _ _)) hforp
      (Bool.eq_false_iff.mpr hr)
    have hnew : handed { s with
        answers := s.answers.answerEach cfg ackRevoked (forwardRefusal s.directory)
          (p.read cfg.classOf s.link.commands).1
        link := s.link.answer cfg.classOf i p (refused s.directory) } y.1 :=
      handed_of_mem (mem_append_right _ (mem_singleton_self _)) hy
    rw [heq, hnot] at hnew
    cases hnew

theorem Inv.fateKept_drop (h : Inv cfg s) (hs : step cfg s .drop = some s')
    (hfate : OneFate cfg s') : FateKept cfg s .drop := by
  simp only [step] at hs
  split at hs <;> cases hs
  rename_i start now hr
  have hspec := Answers.answerEach_spec h.fates.recent cfg ackDropped
    (fun _ ↦ some (dropMessage cfg.child)) (s.queued cfg start now)
  have hstart := h.reading.start start (by rw [hr]; rfl)
  intro x hx
  have hx' : x ∈ s.queued cfg start now := by simpa [toDrop, hr] using hx
  obtain ⟨hmem, hle, hfor, -⟩ := mem_queued.mp hx'
  exact (hfate.apart x hmem hfor (hspec.each x hx' rfl (parse_of_forChild hfor)
    (h.ids.named x hmem hfor (hstart.1.trans hle)))).1

/-- **In every run whose steps meet the condition each command has one fate**, and a step that does not
meet it ends that. -/
theorem oneFate_of_reach {d : Directory A} (h : (system cfg d).Reach (FateKept cfg) s) :
    OneFate cfg s ∧
      ∀ e s', (system cfg d).step s e = some s' → (OneFate cfg s' ↔ FateKept cfg s e) := by
  have hi := inv_of_reach h
  refine ⟨hi.oneFate, fun e s' hs ↦ ⟨fun hfate ↦ ?_, fun hC ↦ (inv_step hi hC hs).oneFate⟩⟩
  cases e with
  | note i => exact hi.fateKept_note hs hfate
  | answer i => exact hi.fateKept_answer hs hfate
  | drop => exact hi.fateKept_drop hs hfate
  | append | tick | lose | other | arrive | link | prepare | retire => exact trivial

/-! ### Runs of a child -/

/-- The ids of two commands; a payload of two bytes asks for progress. -/
def press : Config where
  classOf := classOf
  child := "c1"
  mount := ["hall"]
  correlationID p := match p with
    | 1 :: _ => "a"
    | 2 :: _ => "b"
    | _ => ""
  wantsProgress p := decide (p.length = 2)
  deadline _ := none
  stored := .empty

/-- A service sends a command below the child's mount. -/
def start (payload : Payload) : RecEnc where
  sourceLocalOnly := false
  topic := ["colca", "v1", "_CmdParam", "m1", "hall", "start"]
  payload := payload
  ts := 0
  by_ := { writtenBy := "svc" }
  originOffset := 0
  door := "client"
  signalID := ""

/-- The service is enrolled, and holds its grant or does not. -/
def service (granted : Bool) : Directory Unit where
  actorForAttested _ := none
  get _ := some ()
  revoked _ := false
  authorize _ _ := granted

/-- The service loses its grant before the first command is handed, and the child is retired before it
asks for the second. -/
def refusedRun : List (Event Unit) :=
  [.append (start [1]), .link (.ask 0), .arrive 0, .note 0, .lose (service false), .answer 0,
    .link (.receive 0), .link (.advance 2), .link .stop, .append (start [2]), .prepare, .retire, .drop]

/-- Both commands are answered, and neither was handed. -/
theorem refused_and_dropped : ∃ s, (system press (service true)).Reach (FateKept press) s ∧
    s.answers.given.map (fun o ↦ (o.correlationID, o.resultCode)) = [("a", 403), ("b", 410)] ∧
    OneFate press s := by
  obtain ⟨s, hs, hp⟩ := (system press (service true)).exists_reach (FateKept press) refusedRun
    (fun s ↦ s.answers.given.map (fun o ↦ (o.correlationID, o.resultCode)) =
      [("a", 403), ("b", 410)])
  exact ⟨s, hs, hp, (oneFate_of_reach hs).1⟩

/-- The command asks for progress, and the child polls again after it was refused. -/
def receiptRun : List (Event Unit) :=
  [.append (start [1, 0]), .link (.ask 0), .arrive 0, .note 0, .lose (service false), .answer 0,
    .link (.receive 0), .link (.advance 2), .link .stop, .link (.ask 0), .arrive 1, .note 0]

/-- **The sender of a refused command is told that it was forwarded.** -/
theorem refused_reported_forwarded :
    ¬ ∀ s, (system press (service true)).Reachable s → OneFate press s := by
  intro h
  obtain ⟨s, hs, hmem, hfor, hans, hfwd⟩ := (system press (service true)).exists_reachable receiptRun
    (fun s ↦ (1, start [1, 0]) ∈ s.link.commands.entries ∧ press.forChild (1, start [1, 0]) ∧
      s.answers.answered (press.idOf (1, start [1, 0])) ∧ press.idOf (1, start [1, 0]) ∈ s.forwarded)
  exact ((h s hs).apart _ hmem hfor hans).2 hfwd

end Colca.Queued
