import Colca.Repl.Rehanded

/-!
# A command the child holds is not stored again

In every run whose steps meet `Apart`, no command that names itself is stored beside a record of it that the
child's commands stream retains, and nothing is skipped that the stream never held (`held_once`).

Two invariants carry the proof. `Loop` follows positions: a page in hand starts at the cursor, whatever the
parent's store was replaced by meanwhile, so the cursor never calls a page stored that is not. `Remembers`
ties the memory to the stream: a command of the stream is remembered at its offset or a later one
(`Known`), waits to be, or was written by somebody else since the start; and what is remembered was in the
stream.

Without the condition both properties fail. `repeated_in_page` is a run in which one page has the same
command twice: the memory is asked about the whole page before any of it is stored.
-/

namespace Colca.Rehanded

open Uns Downlink List Function Child CommandMemory

variable {K : Type}

/-! ### Positions -/

/-- The page was read from `q` on, in order, and ends where it says. -/
structure ReadFrom (q : ℕ) (a : Answer) : Prop where
  increasing : a.records.Pairwise (·.1 < ·.1)
  bounds : ∀ y ∈ a.records, q ≤ y.1 ∧ y.1 < a.next

/-- What the loop has in hand lies at the cursor or behind it. -/
def AtCursor (d : Downlink.State K) : Phase → Prop
  | .idle => True
  | .asked id after page => after = d.child.cursor ∧
      (∃ r, d.requests[id]? = some r ∧ r.after = after) ∧ ∀ a ∈ page, ReadFrom d.child.cursor a
  | .storing _ a => ReadFrom d.child.cursor a
  | .publishing _ _ rest _ => rest.Pairwise (·.1 < ·.1) ∧ ∀ y ∈ rest, d.child.cursor ≤ y.1
  | .oneByOne _ rest _ => rest.Pairwise (·.1 < ·.1) ∧ ∀ y ∈ rest, d.child.cursor ≤ y.1
  | .acking .. => True

structure Loop (d : Downlink.State K) : Prop where
  unseated : d.child.seat = none → d.phase = .idle
  polls : ∀ p ∈ d.polls, ∃ r, d.requests[p.id]? = some r ∧ r.after ≤ p.after
  answers : ∀ a ∈ d.answers, ∃ r, d.requests[a.id]? = some r ∧ ReadFrom r.after a
  phase : AtCursor d d.phase

variable {cfg : Config K} {d d' : Downlink.State K}

variable {l : OffsetLog RecEnc}

theorem readFrom_answer {classOf : String → Uns.Class} {p : Poll} {q : ℕ} (h : q ≤ p.after)
    (refused : ℕ × RecEnc → Bool) : ReadFrom q (p.answer classOf l refused) where
  increasing := Poll.answer_increasing _ _ _ _
  bounds y hy := by
    obtain ⟨x, -, ⟨hle, hlt⟩, -, -, hs⟩ := Poll.mem_answer.mp hy
    rw [Poll.strip_fst hs]
    exact ⟨h.trans hle, hlt.trans_le (Poll.le_next _ _ _)⟩

theorem le_arrive (id : ℕ) (r : Request) (mount : Path) : r.after ≤ (Poll.arrive id r mount).after := by
  show r.after ≤ if r.after = 0 then 1 else r.after
  split <;> omega

variable {c : Child K} {ph : Phase}

/-- The loop goes on to another phase, with another child. -/
theorem Loop.goes (h : Loop d) (hseat : c.seat = none → ph = .idle)
    (hph : AtCursor { d with child := c, phase := ph } ph) : Loop { d with child := c, phase := ph } :=
  ⟨hseat, h.polls, h.answers, hph⟩

/-- A loop that is under way has been seated. -/
theorem Loop.seated (h : Loop d) (hne : d.phase ≠ .idle) :
    d.child.seat = none → ph = .idle := fun hn ↦ absurd (h.unseated hn) hne

/-- The child's bookkeeping leaves positions as they are. -/
theorem Loop.aside (h : Loop d) (hseat : c.seat = d.child.seat)
    (hcursor : c.cursor = d.child.cursor) : Loop { d with child := c } where
  unseated hn := h.unseated (hseat ▸ hn)
  polls := h.polls
  answers := h.answers
  phase := by
    have hph := h.phase
    show AtCursor { d with child := c } d.phase
    cases hd : d.phase with
    | idle => trivial
    | asked | storing | publishing | oneByOne =>
      rw [hd] at hph
      simpa only [AtCursor, hcursor] using hph
    | acking => trivial

theorem Loop.send (h : Loop d) (hseat : d.child.seat ≠ none) (max : ℕ) (confirm : Bool)
    {page : Option Answer} (hpage : ∀ a ∈ page, ReadFrom d.child.cursor a) :
    Loop (d.send d.child.cursor max confirm page) := by
  have hreq : ∀ {id : ℕ} {r : Request}, d.requests[id]? = some r →
      (d.requests ++ [⟨d.child.cursor, max, confirm⟩])[id]? = some r := fun hr ↦
    getElem?_append_left (List.getElem?_eq_some_iff.mp hr).1 ▸ hr
  exact {
    unseated := fun hn ↦ absurd hn hseat
    polls := fun p hp ↦ by
      obtain ⟨r, hr, hle⟩ := h.polls p hp
      exact ⟨r, hreq hr, hle⟩
    answers := fun a ha ↦ by
      obtain ⟨r, hr, hread⟩ := h.answers a ha
      exact ⟨r, hreq hr, hread⟩
    phase := ⟨rfl, ⟨_, getElem?_concat_length, rfl⟩, hpage⟩ }

/-- One write moves the cursor past what it stores, and no further than the rest. -/
theorem Loop.write (h : Loop d) (hne : d.phase ≠ .idle) {stream : Stream}
    {recs refused rest : List (ℕ × RecEnc)} {upTo after next : ℕ}
    (hinc : rest.Pairwise (·.1 < ·.1)) (hle : ∀ y ∈ rest, upTo ≤ y.1) :
    Loop (d.write stream recs upTo refused after rest next) :=
  h.goes (h.seated hne) ⟨hinc, hle⟩

variable {x : ℕ × RecEnc}

theorem Loop.storeOne (h : Loop d) {after next : ℕ} {rest : List (ℕ × RecEnc)}
    (hph : d.phase = .oneByOne after (x :: rest) next) (ok : Bool) :
    Loop (d.storeOne cfg after x rest next ok) := by
  have hne : d.phase ≠ .idle := by simp [hph]
  obtain ⟨hinc, hle⟩ : AtCursor d (.oneByOne after (x :: rest) next) := hph ▸ h.phase
  obtain ⟨hlt, hinc⟩ := pairwise_cons.mp hinc
  have hrest : ∀ y ∈ rest, d.child.cursor ≤ y.1 := fun y hy ↦ hle y (mem_cons_of_mem _ hy)
  unfold State.storeOne
  split
  · exact h.goes (h.seated hne) ⟨hinc, hrest⟩
  · exact h.goes (h.seated hne) trivial
  · split
    · exact h.goes (h.seated hne) ⟨hinc, hrest⟩
    · split
      · exact h.write hne hinc fun y hy ↦ hlt y hy
      · exact h.goes (h.seated hne) trivial

section

variable [DecidableEq K]

theorem Loop.storePage (h : Loop d) {after : ℕ} {page : Answer} (hph : d.phase = .storing after page)
    (ok : Bool) : Loop (d.storePage cfg after page ok) := by
  have hne : d.phase ≠ .idle := by simp [hph]
  have hpage : AtCursor d (.storing after page) := hph ▸ h.phase
  have hfresh : AtCursor d (.oneByOne after
      (page.records.filter fun x ↦ !d.child.recognises cfg x) page.next) :=
    ⟨hpage.increasing.filter _, fun y hy ↦ (hpage.bounds y (mem_filter.mp hy).1).1⟩
  unfold State.storePage
  dsimp only
  split
  · exact h.goes (h.seated hne) trivial
  · split
    · exact h.goes (h.seated hne) hfresh
    · split
      · exact h.goes (h.seated hne) trivial
      · split
        · exact h.write hne List.Pairwise.nil fun _ hy ↦ by cases hy
        · exact h.goes (h.seated hne) hfresh

/-- **Every step of the downlink keeps positions.** -/
theorem Loop.step {e : Downlink.Event} (h : Loop d) (hs : Downlink.step cfg d e = some d') : Loop d' := by
  cases e with
  | append | prune =>
    cases hs
    exact { h with }
  | arrive id =>
    obtain ⟨r, hr, rfl⟩ := Option.map_eq_some_iff.mp hs
    exact ⟨h.unseated, forall_mem_concat h.polls ⟨r, hr, le_arrive id r _⟩, h.answers, h.phase⟩
  | wait i =>
    obtain ⟨p, hp, hs⟩ := Option.bind_eq_some_iff.mp hs
    split at hs <;> cases hs
    refine ⟨h.unseated, fun q hq ↦ ?_, h.answers, h.phase⟩
    rcases mem_or_eq_of_mem_set hq with hq | rfl
    · exact h.polls q hq
    · obtain ⟨r, hr, hle⟩ := h.polls p (mem_of_getElem? hp)
      exact ⟨r, hr, hle.trans (Poll.after_le_read _ _ _)⟩
  | answer i refused =>
    obtain ⟨p, hp, rfl⟩ := Option.map_eq_some_iff.mp hs
    obtain ⟨r, hr, hle⟩ := h.polls p (mem_of_getElem? hp)
    exact ⟨h.unseated, fun q hq ↦ h.polls q (mem_of_mem_eraseIdx hq),
      forall_mem_concat h.answers ⟨r, hr, readFrom_answer hle _⟩, h.phase⟩
  | seat head =>
    simp only [Downlink.step] at hs
    split at hs
    · rename_i hseat
      split at hs <;> cases hs
      refine ⟨fun hn ↦ absurd hn (Option.some_ne_none _), h.polls, h.answers, ?_⟩
      show AtCursor _ d.phase
      rw [h.unseated hseat]
      trivial
    · cases hs
  | poll max =>
    simp only [Downlink.step] at hs
    split at hs <;> cases hs
    rename_i hseat
    exact h.send (by simp [hseat]) max false (by simp)
  | receive k max =>
    simp only [Downlink.step] at hs
    split at hs
    · rename_i id after page a hph ha
      obtain ⟨rfl, ⟨r, hr, hafter⟩, -⟩ : AtCursor d (.asked id after page) := hph ▸ h.phase
      have hne : d.phase ≠ .idle := by simp [hph]
      split at hs
      · cases hs
      · rename_i hid
        -- the answer is to the request the child waits for
        have hread : ReadFrom d.child.cursor a := by
          obtain ⟨r', hr', hread⟩ := h.answers a (mem_of_getElem? ha)
          rw [not_not.mp hid, hr] at hr'
          rw [← hafter, Option.some.inj hr']
          exact hread
        split at hs <;> cases hs
        · refine h.send (fun hn ↦ hne (h.unseated hn)) max true fun a' ha' ↦ ?_
          rw [← Option.some.inj ha']
          exact hread
        · exact h.goes (h.seated hne) hread
    · cases hs
  | keep =>
    simp only [Downlink.step] at hs
    split at hs <;> cases hs
    rename_i id after page hph
    obtain ⟨-, -, hpage⟩ : AtCursor d (.asked id after (some page)) := hph ▸ h.phase
    exact h.goes (h.seated (by simp [hph])) (hpage page rfl)
  | drop | ack =>
    simp only [Downlink.step] at hs
    split at hs <;> cases hs
    exact h.goes (fun _ ↦ rfl) trivial
  | storePage ok =>
    simp only [Downlink.step] at hs
    split at hs <;> cases hs
    rename_i hph
    exact h.storePage hph ok
  | storeOne ok =>
    simp only [Downlink.step] at hs
    split at hs <;> cases hs
    · rename_i hph
      exact h.storeOne hph ok
    · rename_i hph
      exact h.goes (h.seated (by simp [hph])) trivial
  | publish =>
    simp only [Downlink.step] at hs
    split at hs <;> cases hs
    rename_i after first rest next hph
    have hrest : AtCursor d (.publishing after first rest next) := hph ▸ h.phase
    exact h.goes (h.seated (by simp [hph])) hrest
  | localAppend stream e =>
    simp only [Downlink.step] at hs
    split at hs <;> cases hs
    exact h.aside rfl rfl
  | localPrune | drain =>
    cases hs
    exact h.aside rfl rfl
  | restart =>
    cases hs
    exact h.goes (fun _ ↦ rfl) trivial

end

/-! ### What the memory knows -/

/-- The command is remembered at the offset or a later one. -/
def Known (seen : List (K × ℕ)) (k : K) (o : ℕ) : Prop := ∃ x ∈ seen, x.1 = k ∧ o ≤ x.2

/-- A fold keeps what every element keeps. -/
theorem foldl_keeps {σ β : Type*} {p : σ → Prop} {ok : β → Prop} {f : σ → β → σ}
    (hf : ∀ m y, p m → ok y → p (f m y)) {ys : List β} (hok : ∀ y ∈ ys, ok y) {m : σ} (h : p m) :
    p (ys.foldl f m) := by
  induction ys generalizing m with
  | nil => exact h
  | cons y ys ih =>
    exact ih (fun z hz ↦ hok z (mem_cons_of_mem _ hz)) (hf m y h (hok y mem_cons_self))

/-- What one element brings about, the later ones keep. -/
theorem foldl_of_mem {σ β : Type*} {p : σ → Prop} {ok : β → Prop} {f : σ → β → σ}
    (hf : ∀ m y, p m → ok y → p (f m y)) {r : β → β → Prop} {ys : List β} (hr : ys.Pairwise r) {y : β}
    (hy : y ∈ ys) (hbring : ∀ m, p (f m y)) (hok : ∀ z, r y z → ok z) {m : σ} : p (ys.foldl f m) := by
  obtain ⟨before, later, rfl⟩ := append_of_mem hy
  rw [foldl_append, foldl_cons]
  obtain ⟨-, hlater, -⟩ := pairwise_append.mp hr
  exact foldl_keeps hf (fun z hz ↦ hok z ((pairwise_cons.mp hlater).1 z hz)) (hbring _)

section

variable [DecidableEq K]

variable {k : K} {o : ℕ}

theorem known_cons {seen : List (K × ℕ)} {k' : K} {off : ℕ} (h : Known seen k o)
    (hle : k' = k → o ≤ off) : Known ((k', off) :: seen.filter fun x ↦ x.1 ≠ k') k o := by
  obtain ⟨x, hx, hk, ho⟩ := h
  by_cases hsame : k' = k
  · exact ⟨_, mem_cons_self, hsame, hle hsame⟩
  · refine ⟨x, mem_cons_of_mem _ (mem_filter.mpr ⟨hx, ?_⟩), hk, ho⟩
    rw [hk]
    exact decide_eq_true fun h ↦ hsame h.symm

/-- Remembering one more command forgets nothing that the stream retains. -/
theorem known_add {m : CommandMemory K} {k' : K} {off lwm : ℕ} (hlwm : lwm ≤ o)
    (h : Known ((k', off) :: m.seen.filter fun x ↦ x.1 ≠ k') k o) : Known (m.add k' off lwm).seen k o := by
  unfold add
  dsimp only
  split
  · exact h
  · obtain ⟨x, hx, hk, ho⟩ := h
    exact ⟨x, mem_filter.mpr ⟨hx, decide_eq_true (hlwm.trans ho)⟩, hk, ho⟩

/-- `loadCommandMemory` knows every command that the stream retains. -/
theorem known_load (hx : x ∈ l.entries) (hcmd : isCommand cfg.childClass x.2 = true) :
    Known (load cfg l).seen (cfg.key x.2) x.1 := by
  have hkeep : ∀ (seen : List (K × ℕ)) (y : ℕ × RecEnc), Known seen (cfg.key x.2) x.1 →
      (cfg.key y.2 = cfg.key x.2 → x.1 ≤ y.1) →
      Known ((cfg.key y.2, y.1) :: seen.filter fun z ↦ z.1 ≠ cfg.key y.2) (cfg.key x.2) x.1 :=
    fun seen y h hle ↦ known_cons h hle
  exact foldl_of_mem hkeep (l.increasing.filter _) (mem_filter.mpr ⟨hx, hcmd⟩)
    (fun seen ↦ ⟨_, mem_cons_self, rfl, le_rfl⟩) fun z hlt _ ↦ hlt.le

end

/-! ### The memory and the stream -/

variable (cfg) in
/-- The keys and offsets of a write that is committed and not published yet. -/
def unpublished (d : Downlink.State K) : List (K × ℕ) :=
  match d.phase with
  | .publishing _ first _ _ => (d.child.pending.zipIdx first).map fun p ↦ (cfg.key p.1.command, p.2)
  | _ => []

/-- The records of the page in hand that are still to be stored. -/
def restOf : Phase → List (ℕ × RecEnc)
  | .publishing _ _ rest _ | .oneByOne _ rest _ => rest
  | _ => []

variable (cfg) in
/-- The stream once held the command of that key, or the child stored it and does not take it for a
command. -/
def Genuine (s : State K) (k : K) : Prop :=
  (∃ y ∈ s.held, cfg.key y = k) ∨
    ∃ y ∈ s.down.child.history, cfg.key y = k ∧ isCommand s.classOf y = false

variable (cfg) in
/-- What the ghosts say of the stream. -/
structure Ghosts (s : State K) : Prop where
  held : ∀ x ∈ s.commands.entries, x.2 ∈ s.held
  handed : ∀ o ∈ s.handed, o < s.commands.next
  skipped : ∀ e ∈ s.skipped, ∃ y ∈ s.held, cfg.key y = cfg.key e

/-- Two records that are not the same command, if the first names itself. -/
abbrev Differ (cfg : Config K) (x y : ℕ × RecEnc) : Prop :=
  cfg.hasCorrelationID x.2.payload → cfg.key x.2 ≠ cfg.key y.2

variable (cfg) in
structure Remembers (s : State K) : Prop extends Ghosts cfg s where
  /-- A command of the stream was written by somebody else, waits to be remembered, or is remembered, at its
  own offset or a later one. -/
  known : ∀ x ∈ s.commands.entries, isCommand s.classOf x.2 = true → x.1 ∈ s.own ∨
    (cfg.key x.2, x.1) ∈ unpublished cfg s.down ∨
      Known s.down.child.memory.seen (cfg.key x.2) x.1 ∧
        ∀ p ∈ unpublished cfg s.down, p.1 = cfg.key x.2 → x.1 ≤ p.2
  genuine : ∀ m ∈ s.down.child.memory.seen, Genuine cfg s m.1
  pending : ∀ e ∈ s.down.child.pending, Genuine cfg s (cfg.key e.command)
  recorded : ∀ x ∈ s.commands.entries, ∃ y ∈ s.down.child.history, cfg.key y = cfg.key x.2
  /-- What is still to be stored and names itself is in the stream only if somebody else wrote it. -/
  fresh : ∀ y ∈ restOf s.down.phase, cfg.hasCorrelationID y.2.payload → ∀ x ∈ s.commands.entries,
    cfg.key x.2 = cfg.key y.2 → x.1 ∈ s.own
  distinct : (restOf s.down.phase).Pairwise fun x y ↦
    cfg.hasCorrelationID x.2.payload → cfg.key x.2 ≠ cfg.key y.2
  once : ∀ x ∈ s.commands.entries, ∀ y ∈ s.commands.entries, x.1 < y.1 → y.1 ∈ s.handed →
    cfg.hasCorrelationID y.2.payload → cfg.key x.2 ≠ cfg.key y.2

variable {s s' : State K}

theorem unpublished_eq_nil (h : d.phase.isPublishing = false) : unpublished cfg d = [] := by
  unfold unpublished
  cases hd : d.phase with
  | publishing =>
    rw [hd] at h
    cases h
  | idle | asked | storing | oneByOne | acking => rfl

theorem unpublished_congr (hph : d'.phase = d.phase) (hp : d'.child.pending = d.child.pending) :
    unpublished cfg d' = unpublished cfg d := by
  unfold unpublished
  rw [hph, hp]

/-- **A step that stores nothing in the commands stream.** -/
structure Quiet (d d' : Downlink.State K) : Prop where
  entries : ∀ x ∈ (d'.child.streams .commands).entries, x ∈ (d.child.streams .commands).entries
  next : (d'.child.streams .commands).next = (d.child.streams .commands).next
  memory : d'.child.memory = d.child.memory
  pending : d'.child.pending = d.child.pending
  history : ∀ y ∈ d.child.history, y ∈ d'.child.history
  phase : d'.phase = d.phase ∨ d.phase.isPublishing = false ∧ d'.phase.isPublishing = false ∧
    (restOf d'.phase).Sublist (restOf d.phase)

/-- A step that leaves alone what the child holds. -/
theorem Quiet.of_same (hst : d'.child.streams = d.child.streams) (hmem : d'.child.memory = d.child.memory)
    (hpend : d'.child.pending = d.child.pending) (hhist : d'.child.history = d.child.history)
    (hph : d'.phase = d.phase ∨ d.phase.isPublishing = false ∧ d'.phase.isPublishing = false ∧
      (restOf d'.phase).Sublist (restOf d.phase)) : Quiet d d' :=
  ⟨fun _ h ↦ hst ▸ h, by rw [hst], hmem, hpend, fun _ h ↦ hhist ▸ h, hph⟩

theorem Quiet.unpublished (h : Quiet d d') : unpublished cfg d' = unpublished cfg d := by
  rcases h.phase with hph | ⟨hnp, hnp', -⟩
  · exact unpublished_congr hph h.pending
  · rw [unpublished_eq_nil hnp, unpublished_eq_nil hnp']

theorem Quiet.rest (h : Quiet d d') : (restOf d'.phase).Sublist (restOf d.phase) := by
  rcases h.phase with hph | ⟨-, -, hsub⟩
  · rw [hph]
  · exact hsub

theorem mem_taken {e : Downlink.Event} (h : o ∈ taken e d d') :
    ∃ x ∈ (d'.child.streams .commands).entries, (d.child.streams .commands).next ≤ x.1 ∧ x.1 = o := by
  unfold taken at h
  split at h
  · obtain ⟨x, hx, rfl⟩ := mem_map.mp h
    obtain ⟨hx, hle⟩ := mem_filter.mp hx
    exact ⟨x, hx, of_decide_eq_true hle, rfl⟩
  · cases h

section

variable [DecidableEq K] {e : Downlink.Event}

theorem mem_held_observe (hx : x ∈ (d.child.streams .commands).entries) :
    x.2 ∈ (s.observe cfg e d).held := mem_append_right _ (mem_map_of_mem hx)

theorem Genuine.observe (h : Genuine cfg s k)
    (hhist : ∀ y ∈ s.down.child.history, y ∈ d.child.history) : Genuine cfg (s.observe cfg e d) k := by
  rcases h with ⟨y, hy, hk⟩ | ⟨y, hy, hk, hcmd⟩
  · exact .inl ⟨y, mem_append_left _ hy, hk⟩
  · exact .inr ⟨y, hhist y hy, hk, hcmd⟩

variable (cfg s e) in
/-- What the event skips, the stream once held. -/
def SkipsHeld : Prop :=
  ∀ x ∈ skips (s.config cfg) s.down e, ∃ y ∈ s.held, cfg.key y = cfg.key x

theorem mem_handed_of_quiet (hq : Quiet s.down d) (h : o ∈ (s.observe cfg e d).handed) : o ∈ s.handed := by
  rcases mem_append.mp h with h | h
  · exact h
  · obtain ⟨x, hx, hle, -⟩ := mem_taken h
    have hlt := ((s.down.child.streams .commands).bounds x (hq.entries x hx)).2
    exact absurd hle hlt.not_ge

theorem Ghosts.observe (h : Ghosts cfg s)
    (hnext : s.commands.next ≤ (d.child.streams .commands).next) (hskip : SkipsHeld cfg s e) :
    Ghosts cfg (s.observe cfg e d) where
  held x hx := mem_held_observe hx
  handed o ho := by
    rcases mem_append.mp ho with ho | ho
    · exact (h.handed o ho).trans_le hnext
    · obtain ⟨x, hx, -, rfl⟩ := mem_taken ho
      exact (OffsetLog.bounds _ x hx).2
  skipped x hx := by
    obtain ⟨y, hy, hk⟩ := (mem_append.mp hx).elim (h.skipped x) (hskip x)
    exact ⟨y, mem_append_left _ hy, hk⟩

/-- A step that hands nothing skips nothing. -/
theorem skipsHeld_of_unhanded (h : hands e = false) : SkipsHeld cfg s e := by
  intro x hx
  cases e with
  | storePage | storeOne => cases h
  | _ => cases hx

variable (cfg) in
theorem mem_handed_of_unhanded (he : hands e = false) (h : o ∈ (s.observe cfg e d).handed) :
    o ∈ s.handed := by
  simpa [State.observe, taken, he] using h

theorem Remembers.quiet (h : Remembers cfg s) (hq : Quiet s.down d)
    (hown : ∀ o ∈ s.own, o ∈ s.ownAfter e) (hskip : SkipsHeld cfg s e) :
    Remembers cfg (s.observe cfg e d) :=
  { h.toGhosts.observe hq.next.ge hskip with
    known := fun x hx hcmd ↦ by
      show x.1 ∈ s.ownAfter e ∨ (cfg.key x.2, x.1) ∈ unpublished cfg d ∨
        Known d.child.memory.seen (cfg.key x.2) x.1 ∧
          ∀ p ∈ unpublished cfg d, p.1 = cfg.key x.2 → x.1 ≤ p.2
      rw [hq.unpublished, hq.memory]
      exact (h.known x (hq.entries x hx) hcmd).imp_left (hown x.1)
    genuine := fun m hm ↦ (h.genuine m (hq.memory ▸ hm)).observe hq.history
    pending := fun x hx ↦ (h.pending x (hq.pending ▸ hx)).observe hq.history
    recorded := fun x hx ↦ by
      obtain ⟨y, hy, hk⟩ := h.recorded x (hq.entries x hx)
      exact ⟨y, hq.history y hy, hk⟩
    fresh := fun y hy hnamed x hx hk ↦
      hown x.1 (h.fresh y (hq.rest.subset hy) hnamed x (hq.entries x hx) hk)
    distinct := h.distinct.sublist hq.rest
    once := fun x hx y hy hlt ho ↦
      h.once x (hq.entries x hx) y (hq.entries y hy) hlt (mem_handed_of_quiet hq ho) }

end

/-! ### A write -/

variable {α : Type*}

/-- Two records of a write, in the order of their offsets. -/
theorem rel_of_mem_zipIdx {r : α → α → Prop} {xs : List α} (hr : xs.Pairwise r) {n : ℕ}
    {p q : α × ℕ} (hp : p ∈ xs.zipIdx n) (hq : q ∈ xs.zipIdx n) (hlt : p.2 < q.2) : r p.1 q.1 := by
  obtain ⟨hnp, hp⟩ := mk_mem_zipIdx_iff_le_and_getElem?_sub.mp hp
  obtain ⟨hnq, hq⟩ := mk_mem_zipIdx_iff_le_and_getElem?_sub.mp hq
  obtain ⟨hip, hp⟩ := List.getElem?_eq_some_iff.mp hp
  obtain ⟨hiq, hq⟩ := List.getElem?_eq_some_iff.mp hq
  rw [← hp, ← hq]
  exact pairwise_iff_getElem.mp hr _ _ hip hiq (by omega)

theorem le_of_mem_zipIdx {xs : List α} {n : ℕ} {p : α × ℕ} (hp : p ∈ xs.zipIdx n) :
    n ≤ p.2 := (mk_mem_zipIdx_iff_le_and_getElem?_sub.mp hp).1

/-- The key names the command, so its class too. -/
theorem isCommand_congr (hkey : KeyInjective cfg) {classOf : String → Uns.Class} {a b : RecEnc}
    (h : cfg.key a = cfg.key b) : isCommand classOf a = isCommand classOf b := by
  unfold isCommand
  rw [(hkey a b h).1]

section

variable {stream : Stream} {recs refused rest : List (ℕ × RecEnc)} {upTo after next : ℕ}

theorem write_commands :
    (d.write .commands recs upTo refused after rest next).child.streams .commands =
      recs.foldl (fun l y ↦ l.append (localRecord l.next y.2)) (d.child.streams .commands) := by
  simp [Downlink.State.write, Child.append]

theorem write_of_ne (hne : Stream.commands ≠ stream) :
    (d.write stream recs upTo refused after rest next).child.streams .commands =
      d.child.streams .commands := update_of_ne hne ..

/-- The commands stream after a write to any stream. -/
theorem mem_write_commands :
    x ∈ ((d.write stream recs upTo refused after rest next).child.streams .commands).entries ↔
      x ∈ (d.child.streams .commands).entries ∨ stream = .commands ∧
        ∃ p ∈ recs.zipIdx (d.child.streams .commands).next, x = (p.2, localRecord p.2 p.1.2) := by
  rcases eq_or_ne Stream.commands stream with rfl | hne
  · rw [write_commands, mem_foldl_append]
    simp
  · rw [write_of_ne hne]
    simp [hne.symm]

theorem next_le_write :
    (d.child.streams .commands).next ≤
      ((d.write stream recs upTo refused after rest next).child.streams .commands).next := by
  rcases eq_or_ne Stream.commands stream with rfl | hne
  · rw [write_commands]
    exact (moves_foldl_append _ _).next_le
  · rw [write_of_ne hne]

variable (cfg) in
theorem unpublished_write :
    unpublished cfg (d.write stream recs upTo refused after rest next) =
      (recs.zipIdx (d.child.streams stream).next).map fun p ↦ (cfg.key p.1.2, p.2) := by
  show ((recs.map fun x ↦ (⟨x.1, x.2, upTo⟩ : Stored)).zipIdx _).map
    (fun p ↦ (cfg.key p.1.command, p.2)) = _
  rw [zipIdx_map, map_map]
  rfl

/-- **A write of handed records.** None that names itself is in the stream, or twice in the write, or still
to be stored, and what goes to another stream is not a command of the child. -/
theorem Remembers.write [DecidableEq K] {e : Downlink.Event} (h : Remembers cfg s)
    (hkey : KeyInjective cfg) (hown : s.ownAfter e = s.own) (hnp : s.down.phase.isPublishing = false)
    (hstream : stream = .commands ∨ ∀ y ∈ recs, isCommand s.classOf y.2 = false)
    (hnew : ∀ y ∈ recs, cfg.hasCorrelationID y.2.payload → ∀ x ∈ s.commands.entries,
      cfg.key x.2 ≠ cfg.key y.2)
    (hdistinct : recs.Pairwise (Differ cfg)) (hsub : rest.Sublist (restOf s.down.phase))
    (hrest : ∀ x ∈ recs, ∀ y ∈ rest, cfg.hasCorrelationID y.2.payload → cfg.key x.2 ≠ cfg.key y.2)
    (hskip : SkipsHeld cfg s e) :
    Remembers cfg (s.observe cfg e (s.down.write stream recs upTo refused after rest next)) := by
  have hhist : ∀ y ∈ s.down.child.history, y ∈ s.down.child.history ++ recs.map Prod.snd := fun y hy ↦
    mem_append_left _ hy
  have hold : ∀ x ∈ s.commands.entries, x.1 < s.commands.next := fun x hx ↦ (s.commands.bounds x hx).2
  exact { h.toGhosts.observe next_le_write hskip with
    known := fun x hx hcmd ↦ by
      show x.1 ∈ s.ownAfter e ∨ (cfg.key x.2, x.1) ∈ unpublished cfg (s.down.write ..) ∨
        Known s.down.child.memory.seen (cfg.key x.2) x.1 ∧
          ∀ p ∈ unpublished cfg (s.down.write ..), p.1 = cfg.key x.2 → x.1 ≤ p.2
      rw [hown, unpublished_write]
      replace hcmd : isCommand s.classOf x.2 = true := hcmd
      rcases mem_write_commands.mp hx with hx' | ⟨rfl, p, hp, rfl⟩
      · rcases h.known x hx' hcmd with ho | hw | ⟨hknown, -⟩
        · exact .inl ho
        · rw [unpublished_eq_nil hnp] at hw
          cases hw
        · refine .inr (.inr ⟨hknown, fun q hq hk ↦ ?_⟩)
          obtain ⟨p, hp, rfl⟩ := mem_map.mp hq
          rcases hstream with rfl | hnone
          · have hle : s.commands.next ≤ p.2 := le_of_mem_zipIdx hp
            exact (hold x hx').le.trans hle
          · -- a record of another stream has another key than any command
            have hclass := hnone p.1 (fst_mem_of_mem_zipIdx hp)
            rw [isCommand_congr hkey hk, hcmd] at hclass
            cases hclass
      · exact .inr (.inl (mem_map.mpr ⟨p, hp, rfl⟩))
    genuine := fun m hm ↦ (h.genuine m hm).observe hhist
    pending := fun x hx ↦ by
      obtain ⟨y, hy, rfl⟩ := mem_map.mp hx
      rcases hstream with rfl | hnone
      · obtain ⟨i, hi⟩ := mem_iff_getElem?.mp hy
        have hp : (y, (s.down.child.streams .commands).next + i) ∈
            recs.zipIdx (s.down.child.streams .commands).next :=
          mk_mem_zipIdx_iff_le_and_getElem?_sub.mpr
            ⟨Nat.le_add_right _ _, by rw [Nat.add_sub_cancel_left]; exact hi⟩
        exact .inl ⟨_, mem_held_observe (mem_write_commands.mpr (.inr ⟨rfl, _, hp, rfl⟩)), rfl⟩
      · exact .inr ⟨y.2, mem_append_right _ (mem_map_of_mem hy), rfl, hnone y hy⟩
    recorded := fun x hx ↦ by
      rcases mem_write_commands.mp hx with hx | ⟨-, p, hp, rfl⟩
      · obtain ⟨y, hy, hk⟩ := h.recorded x hx
        exact ⟨y, hhist y hy, hk⟩
      · exact ⟨p.1.2, mem_append_right _ (mem_map_of_mem (fst_mem_of_mem_zipIdx hp)), rfl⟩
    fresh := fun y hy hnamed x hx hk ↦ by
      show x.1 ∈ s.ownAfter e
      rw [hown]
      rcases mem_write_commands.mp hx with hx | ⟨-, p, hp, rfl⟩
      · exact h.fresh y (hsub.subset hy) hnamed x hx hk
      · exact absurd hk (hrest p.1 (fst_mem_of_mem_zipIdx hp) y hy hnamed)
    distinct := h.distinct.sublist hsub
    once := fun x hx y hy hlt ho hnamed ↦ by
      rcases mem_write_commands.mp hy with hy | ⟨-, q, hq, rfl⟩
      · -- nothing new lies before an old record
        have hylt := hold y hy
        have hx' : x ∈ s.commands.entries := by
          rcases mem_write_commands.mp hx with hx | ⟨-, p, hp, rfl⟩
          · exact hx
          · exact absurd (hlt.trans hylt) (le_of_mem_zipIdx hp).not_gt
        have ho' : y.1 ∈ s.handed := by
          rcases mem_append.mp ho with ho | ho
          · exact ho
          · obtain ⟨z, -, hle, heq⟩ := mem_taken ho
            exact absurd (heq ▸ hle) hylt.not_ge
        exact h.once x hx' y hy hlt ho' hnamed
      · have hqmem := fst_mem_of_mem_zipIdx hq
        rcases mem_write_commands.mp hx with hx | ⟨-, p, hp, rfl⟩
        · exact hnew q.1 hqmem hnamed x hx
        · intro hk
          refine rel_of_mem_zipIdx hdistinct hp hq hlt ?_ hk
          rw [(hkey _ _ hk : SameCommand p.1.2 q.1.2).2.1]
          exact hnamed }

end

/-! ### The other steps that change the stream or the memory -/

theorem pairwise_zipIdx (xs : List α) (n : ℕ) : (xs.zipIdx n).Pairwise (·.2 < ·.2) := by
  refine pairwise_map.mp ?_
  rw [zipIdx_map_snd]
  exact pairwise_lt_range'

section

variable [DecidableEq K]

/-- What was committed is remembered, at offsets that the stream retains or that are above. -/
theorem Remembers.publish (h : Remembers cfg s) {after first next : ℕ} {rest : List (ℕ × RecEnc)}
    (hph : s.down.phase = .publishing after first rest next) :
    Remembers cfg (s.observe cfg .publish { s.down with
      child := s.down.child.publish (s.config cfg) first, phase := .oneByOne after rest next }) := by
  have hunp : unpublished cfg s.down =
      (s.down.child.pending.zipIdx first).map fun p ↦ (cfg.key p.1.command, p.2) := by
    rw [unpublished, hph]
  exact { h.toGhosts.observe le_rfl (skipsHeld_of_unhanded rfl) with
    known := fun x hx hcmd ↦ by
      have hlwm : s.commands.lwm ≤ x.1 := (s.commands.bounds x hx).1
      have hkeep : ∀ (m : CommandMemory K) (p : Stored × ℕ), Known m.seen (cfg.key x.2) x.1 →
          (cfg.key p.1.command = cfg.key x.2 → x.1 ≤ p.2) →
          Known (m.add (cfg.key p.1.command) p.2 s.commands.lwm).seen (cfg.key x.2) x.1 :=
        fun m p hm hle ↦ known_add hlwm (known_cons hm hle)
      rcases h.known x hx hcmd with ho | hw | ⟨hknown, hle⟩
      · exact .inl ho
      · rw [hunp] at hw
        obtain ⟨p, hp, heq⟩ := mem_map.mp hw
        obtain ⟨hk, ho⟩ := Prod.mk.inj heq
        refine .inr (.inr ⟨?_, fun q hq ↦ by cases hq⟩)
        refine foldl_of_mem (p := fun m : CommandMemory K ↦ Known m.seen (cfg.key x.2) x.1) hkeep
          (pairwise_zipIdx _ _) hp (fun m ↦ known_add hlwm ⟨_, mem_cons_self, hk, ho.ge⟩) ?_
        intro q hlt _
        exact (ho ▸ hlt).le
      · refine .inr (.inr ⟨?_, fun q hq ↦ by cases hq⟩)
        refine foldl_keeps (p := fun m : CommandMemory K ↦ Known m.seen (cfg.key x.2) x.1) hkeep
          (fun p hp hk ↦ ?_) hknown
        rw [hunp] at hle
        exact hle _ (mem_map_of_mem hp) hk
    genuine := fun x hx ↦ by
      rcases exists_of_foldl (p := fun m : CommandMemory K ↦ x ∈ m.seen)
        (fun m p hm ↦ mem_add hm) hx with hx | ⟨p, hp, hk⟩
      · exact (h.genuine x hx).observe fun _ h ↦ h
      · rw [← hk]
        exact (h.pending p.1 (fst_mem_of_mem_zipIdx hp)).observe fun _ h ↦ h
    pending := fun x hx ↦ by cases hx
    recorded := h.recorded
    fresh := fun y hy ↦ h.fresh y (by rw [hph]; exact hy)
    distinct := by
      have hdistinct := h.distinct
      rw [hph] at hdistinct
      exact hdistinct
    once := fun x hx y hy hlt ho ↦ h.once x hx y hy hlt (mem_handed_of_unhanded cfg rfl ho) }

/-- A child that starts reads what its stream retains, with the bundle it starts with. -/
theorem Remembers.restart (h : Remembers cfg s) (classOf : String → Uns.Class) :
    Remembers cfg (State.observe { s with classOf } cfg .restart { s.down with
      child := { s.down.child with
        shown := s.down.child.shown ++ s.down.child.pending
        pending := []
        memory := .load (State.config cfg { s with classOf }) s.commands }
      phase := .idle }) := by
  have hghosts : Ghosts cfg { s with classOf } := { h with }
  exact { hghosts.observe le_rfl (skipsHeld_of_unhanded rfl) with
    known := fun x hx hcmd ↦ .inr (.inr ⟨known_load hx hcmd, fun p hp ↦ by cases hp⟩)
    genuine := fun m hm ↦ by
      obtain ⟨x, hx, hk⟩ := mem_load hm
      exact .inl ⟨x.2, mem_held_observe hx, hk⟩
    pending := fun x hx ↦ by cases hx
    recorded := h.recorded
    fresh := fun y hy ↦ by cases hy
    distinct := List.Pairwise.nil
    once := fun x hx y hy hlt ho ↦ h.once x hx y hy hlt (mem_handed_of_unhanded cfg rfl ho) }

/-- Somebody else writes to the commands stream. -/
theorem Remembers.localAppend (h : Remembers cfg s) (e : RecEnc) :
    Remembers cfg (s.observe cfg (.localAppend .commands e) { s.down with child := { s.down.child with
      streams := update s.down.child.streams .commands (s.commands.append e)
      history := s.down.child.history ++ [e] } }) := by
  have hmem : ∀ x ∈ (update s.down.child.streams .commands (s.commands.append e)
      .commands).entries, x ∈ s.commands.entries ∨ x = (s.commands.next, e) := by
    intro x hx
    rw [update_self] at hx
    exact (mem_append.mp hx).imp_right mem_singleton.mp
  have hhist : ∀ y ∈ s.down.child.history, y ∈ s.down.child.history ++ [e] := fun y hy ↦
    mem_append_left _ hy
  have hown : ∀ o ∈ s.own, o ∈ s.own ++ [s.commands.next] := fun o ho ↦ mem_append_left _ ho
  have hlast : s.commands.next ∈ s.own ++ [s.commands.next] :=
    mem_append_right _ (mem_singleton_self _)
  have hnext : s.commands.next ≤
      (update s.down.child.streams .commands (s.commands.append e) .commands).next := by
    rw [update_self]
    exact Nat.le_succ _
  exact { h.toGhosts.observe hnext (skipsHeld_of_unhanded rfl) with
    known := fun x hx hcmd ↦ by
      rcases hmem x hx with hx | rfl
      · exact (h.known x hx hcmd).imp_left (hown x.1)
      · exact .inl hlast
    genuine := fun m hm ↦ (h.genuine m hm).observe hhist
    pending := fun x hx ↦ (h.pending x hx).observe hhist
    recorded := fun x hx ↦ by
      rcases hmem x hx with hx | rfl
      · obtain ⟨y, hy, hk⟩ := h.recorded x hx
        exact ⟨y, hhist y hy, hk⟩
      · exact ⟨e, mem_append_right _ (mem_singleton_self _), rfl⟩
    fresh := fun y hy hnamed x hx hk ↦ by
      rcases hmem x hx with hx | rfl
      · exact hown x.1 (h.fresh y hy hnamed x hx hk)
      · exact hlast
    distinct := h.distinct
    once := fun x hx y hy hlt ho hnamed ↦ by
      have ho : y.1 ∈ s.handed := mem_handed_of_unhanded cfg rfl ho
      have hylt := h.handed _ ho
      rcases hmem y hy with hy | rfl
      · rcases hmem x hx with hx | rfl
        · exact h.once x hx y hy hlt ho hnamed
        · exact absurd hlt (Nat.not_lt_of_lt hylt)
      · exact absurd hylt (Nat.lt_irrefl _) }

end

/-- The loop goes on to store records one by one. -/
theorem Remembers.rest (h : Remembers cfg s) (hnp : s.down.phase.isPublishing = false) {after next : ℕ}
    {xs : List (ℕ × RecEnc)}
    (hfresh : ∀ y ∈ xs, cfg.hasCorrelationID y.2.payload → ∀ x ∈ s.commands.entries,
      cfg.key x.2 = cfg.key y.2 → x.1 ∈ s.own)
    (hdistinct : xs.Pairwise (Differ cfg)) :
    Remembers cfg { s with down := { s.down with phase := .oneByOne after xs next } } :=
  { h with
    known := fun x hx hcmd ↦ by
      show _ ∨ (cfg.key x.2, x.1) ∈ ([] : List (K × ℕ)) ∨ _ ∧ ∀ p ∈ ([] : List (K × ℕ)), _
      have hknown := h.known x hx hcmd
      rw [unpublished_eq_nil hnp] at hknown
      exact hknown
    fresh := hfresh
    distinct := hdistinct }

/-! ### Storing a page -/

section

variable [DecidableEq K] {page : Answer}

theorem recognises_iff :
    s.down.child.recognises (s.config cfg) x = true ↔
      (∃ m ∈ s.down.child.memory.seen, m.1 = cfg.key x.2) ∧
        (cfg.hasCorrelationID x.2.payload ∨ x.1 < s.rehanded) := by
  simp only [recognises, holds, Bool.and_eq_true, any_eq_true, beq_iff_eq,
    Bool.or_eq_true, decide_eq_true_eq]
  rfl

section Clear

variable (h : Remembers cfg s) (hkey : KeyInjective cfg) (hclear : PageClear cfg s page)
  (hnp : s.down.phase.isPublishing = false) {y : ℕ × RecEnc}

include h hkey hclear

/-- **What is skipped of a page was held.** -/
theorem Remembers.skips_page (hread : ReadFrom s.down.child.cursor page) :
    ∀ x ∈ skipsOfPage (s.config cfg) s.down.child page, ∃ y ∈ s.held, cfg.key y = cfg.key x := by
  intro e he
  rcases mem_append.mp he with he | he
  · obtain ⟨x, hx, rfl⟩ := mem_map.mp he
    obtain ⟨hx, hrec⟩ := mem_filter.mp hx
    obtain ⟨⟨m, hm, hmk⟩, hnamed⟩ := recognises_iff.mp hrec
    rcases h.genuine m hm with ⟨y, hy, hk⟩ | ⟨y, hy, hk, hcmd⟩
    · exact ⟨y, hy, hk.trans hmk⟩
    · have hyx := hk.trans hmk
      rw [isCommand_congr hkey hyx] at hcmd
      exact absurd (hkey _ _ hyx) (hclear.2.1 x hx hnamed hcmd y hy)
  · -- a page that was read from the cursor on ends behind it
    split at he
    · rename_i kept refused hcheck
      split at he
      · rename_i hpast
        obtain ⟨y, hy, rfl⟩ := mem_map.mp he
        have hmem := (mem_filter.mp ((checkPage_spec hcheck).1.subset hy)).1
        obtain ⟨hle, hlt⟩ := hread.bounds y hmem
        exact absurd (hle.trans_lt hlt) hpast.not_gt
      · cases he
    · cases he

include hnp

/-- A record of a clear page that is not recognised is in the stream only if somebody else wrote it. -/
theorem Remembers.own_of_fresh (hy : y ∈ page.records)
    (hrec : s.down.child.recognises (s.config cfg) y = false)
    (hnamed : cfg.hasCorrelationID y.2.payload) (hx : x ∈ s.commands.entries)
    (hk : cfg.key x.2 = cfg.key y.2) : x.1 ∈ s.own := by
  cases hcmd : isCommand s.classOf y.2 with
  | true =>
    have hknown := h.known x hx ((isCommand_congr hkey hk).trans hcmd)
    rw [unpublished_eq_nil hnp] at hknown
    rcases hknown with ho | hw | ⟨⟨m, hm, hmk, -⟩, -⟩
    · exact ho
    · cases hw
    · have hyes := recognises_iff.mpr ⟨⟨m, hm, hmk.trans hk⟩, .inl hnamed⟩
      rw [hrec] at hyes
      cases hyes
  | false =>
    obtain ⟨z, hz, hzk⟩ := h.recorded x hx
    exact absurd (hkey _ _ (hzk.trans hk)) (hclear.2.1 y hy (.inl hnamed) hcmd z hz)

/-- So the child does not have it, and nobody else wrote it either. -/
theorem Remembers.new_of_fresh (hy : y ∈ page.records)
    (hrec : s.down.child.recognises (s.config cfg) y = false)
    (hnamed : cfg.hasCorrelationID y.2.payload) (hx : x ∈ s.commands.entries) :
    cfg.key x.2 ≠ cfg.key y.2 := by
  intro hk
  have ho := h.own_of_fresh hkey hclear hnp hy hrec hnamed hx hk
  rcases hclear.2.2 y hy hnamed with hnone | ⟨z, hz, hzo, hsame⟩
  · exact hnone x hx ho (hkey _ _ hk)
  · have hzk : cfg.key z.2 = cfg.key y.2 := by
      rw [Config.key, Config.key, hsame.1, hsame.2.1, hsame.2.2]
    exact hzo (h.own_of_fresh hkey hclear hnp hy hrec hnamed hz hzk)

theorem Remembers.distinct_of_fresh :
    (page.records.filter fun x ↦ !s.down.child.recognises (s.config cfg) x).Pairwise
      (Differ cfg) := by
  refine (hclear.1.filter _).imp_of_mem fun {x y} hx hy hapart hnamed hk ↦ ?_
  obtain ⟨hx, hrec⟩ := mem_filter.mp hx
  obtain ⟨z, hz, -, hsame⟩ := hapart hnamed (hkey _ _ hk)
  refine h.new_of_fresh hkey hclear hnp hx (by simpa using hrec) hnamed hz ?_
  rw [Config.key, Config.key, hsame.1, hsame.2.1, hsame.2.2]

end Clear

theorem Remembers.storePage (h : Remembers cfg s) (hkey : KeyInjective cfg) {after : ℕ} {ok : Bool}
    (hph : s.down.phase = .storing after page) (hclear : PageClear cfg s page)
    (hread : ReadFrom s.down.child.cursor page) :
    Remembers cfg (s.observe cfg (.storePage ok)
      (s.down.storePage (s.config cfg) after page ok)) := by
  have hnp : s.down.phase.isPublishing = false := by rw [hph]; rfl
  have hskip : SkipsHeld cfg s (.storePage ok) := by
    have hskips : skips (s.config cfg) s.down (.storePage ok) =
        skipsOfPage (s.config cfg) s.down.child page := by simp [skips, pageOf, oneOf, hph]
    rw [SkipsHeld, hskips]
    exact h.skips_page hkey hclear hread
  have hquiet : ∀ d', Quiet s.down d' → Remembers cfg (s.observe cfg (.storePage ok) d') :=
    fun _ hq ↦ h.quiet hq (fun _ h ↦ h) hskip
  have hfresh : ∀ y ∈ page.records.filter fun x ↦ !s.down.child.recognises (s.config cfg) x,
      y ∈ page.records ∧ s.down.child.recognises (s.config cfg) y = false := by
    intro y hy
    obtain ⟨hy, hrec⟩ := mem_filter.mp hy
    exact ⟨hy, by simpa using hrec⟩
  have hdistinct := h.distinct_of_fresh hkey hclear hnp
  -- nothing is stored in one write, and the loop goes on one by one
  have hone : Remembers cfg (s.observe cfg (.storePage ok) { s.down with
      phase := .oneByOne after (page.records.filter fun x ↦
        !s.down.child.recognises (s.config cfg) x) page.next }) := by
    have hstop := hquiet { s.down with phase := .acking after page.next }
      (.of_same rfl rfl rfl rfl (.inr ⟨hnp, rfl, nil_sublist _⟩))
    refine hstop.rest rfl (fun y hy hnamed x hx hk ↦ ?_) hdistinct
    exact h.own_of_fresh hkey hclear hnp (hfresh y hy).1 (hfresh y hy).2 hnamed hx hk
  unfold Downlink.State.storePage
  dsimp only
  split
  · exact hquiet _ (.of_same rfl rfl rfl rfl (.inr ⟨hnp, rfl, nil_sublist _⟩))
  · split
    · exact hone
    · rename_i kept refused hcheck
      have hsub := (checkPage_spec hcheck).1
      split
      · exact hquiet _ (.of_same rfl rfl rfl rfl (.inr ⟨hnp, rfl, nil_sublist _⟩))
      · split
        · refine h.write hkey rfl hnp (.inl rfl) (fun y hy hnamed x hx ↦ ?_) (hdistinct.sublist hsub)
            (nil_sublist _) (fun _ _ _ hy ↦ by cases hy) hskip
          obtain ⟨hmem, hrec⟩ := hfresh y (hsub.subset hy)
          exact h.new_of_fresh hkey hclear hnp hmem hrec hnamed hx
        · exact hone

omit [DecidableEq K] in
/-- What is stored outside the commands stream is not a command of the child. -/
theorem checkOne_spec {stream : Stream} (h : c.checkOne (s.config cfg) x = some (some stream)) :
    stream = .commands ∨ isCommand s.classOf x.2 = false := by
  unfold checkOne at h
  split at h
  · cases h
  · rename_i p hp
    dsimp only at h
    unfold isCommand
    rw [hp]
    split at h
    · cases h
    · have hclass : streamFor (s.classOf p.contract) = some stream := Option.some.inj h
      show stream = .commands ∨ (s.classOf p.contract).isCommand = false
      cases hc : s.classOf p.contract with
      | cmd =>
        rw [hc] at hclass
        exact .inl (Option.some.inj hclass).symm
      | none | data | entity | definition | ack | gap | audit | alarm | log | annot => exact .inr rfl

theorem Remembers.storeOne (h : Remembers cfg s) (hkey : KeyInjective cfg) {after next : ℕ}
    {rest : List (ℕ × RecEnc)} {ok : Bool} (hph : s.down.phase = .oneByOne after (x :: rest) next)
    (hnotOwn : cfg.hasCorrelationID x.2.payload → NotOwn s x.2) (hle : s.down.child.cursor ≤ x.1) :
    Remembers cfg (s.observe cfg (.storeOne ok)
      (s.down.storeOne (s.config cfg) after x rest next ok)) := by
  have hnp : s.down.phase.isPublishing = false := by rw [hph]; rfl
  have hsub : rest.Sublist (restOf s.down.phase) := by
    rw [hph]
    exact sublist_cons_self x rest
  have hskip : SkipsHeld cfg s (.storeOne ok) := by
    intro z hz
    have hskips : skips (s.config cfg) s.down (.storeOne ok) =
        skipsOne (s.config cfg) s.down.child x := by simp [skips, pageOf, oneOf, hph]
    rw [hskips, skipsOne] at hz
    split at hz
    · rw [if_neg (by omega)] at hz
      cases hz
    · cases hz
  have hquiet : ∀ d', Quiet s.down d' → Remembers cfg (s.observe cfg (.storeOne ok) d') :=
    fun _ hq ↦ h.quiet hq (fun _ h ↦ h) hskip
  unfold Downlink.State.storeOne
  split
  · exact hquiet _ (.of_same rfl rfl rfl rfl (.inr ⟨hnp, rfl, hsub⟩))
  · exact hquiet _ (.of_same rfl rfl rfl rfl (.inr ⟨hnp, rfl, nil_sublist _⟩))
  · rename_i stream hcheck
    split
    · exact hquiet _ (.of_same rfl rfl rfl rfl (.inr ⟨hnp, rfl, hsub⟩))
    · split
      · have hcons : (x :: rest).Pairwise (Differ cfg) := by
          have hdistinct := h.distinct
          rw [hph] at hdistinct
          exact hdistinct
        refine h.write hkey rfl hnp ?_ (fun y hy hnamed z hz hk ↦ ?_) (pairwise_singleton _ _) hsub
          (fun z hz y hy hnamed hk ↦ ?_) hskip
        · refine (checkOne_spec hcheck).imp_right fun hnone y hy ↦ ?_
          rw [mem_singleton.mp hy]
          exact hnone
        · rw [mem_singleton.mp hy] at hnamed hk
          have ho := h.fresh x (by rw [hph]; exact mem_cons_self) hnamed z hz hk
          exact hnotOwn hnamed z hz ho (hkey _ _ hk)
        · rw [mem_singleton.mp hz] at hk
          refine (pairwise_cons.mp hcons).1 y hy ?_ hk
          rw [(hkey _ _ hk).2.1]
          exact hnamed
      · exact hquiet _ (.of_same rfl rfl rfl rfl (.inr ⟨hnp, rfl, nil_sublist _⟩))

end

/-! ### Every step -/

section

variable [DecidableEq K] {e : Downlink.Event}

/-- A step that stores nothing in the commands stream, and hands nothing. -/
theorem Remembers.aside (h : Remembers cfg s) (he : hands e = false)
    (hown : ∀ o ∈ s.own, o ∈ s.ownAfter e) (hq : Quiet s.down d) : Remembers cfg (s.observe cfg e d) :=
  h.quiet hq hown (skipsHeld_of_unhanded he)

/-- **Every step of the downlink keeps what the memory says of the stream.** -/
theorem Remembers.runDown (h : Remembers cfg s) (hl : Loop s.down) (hkey : KeyInjective cfg)
    (hclear : ClearStep cfg s e) (hs : s.runDown cfg e = some s') : Remembers cfg s' := by
  obtain ⟨d, hd, rfl⟩ := Option.map_eq_some_iff.mp hs
  -- the loop goes on from a phase in which nothing waits to be published, with nothing in hand
  have hgoes : ∀ d', d'.child.streams = s.down.child.streams → d'.child.memory = s.down.child.memory →
      d'.child.pending = s.down.child.pending → d'.child.history = s.down.child.history →
      s.down.phase.isPublishing = false → d'.phase.isPublishing = false → restOf d'.phase = [] →
      Quiet s.down d' := fun d' hst hmem hpend hhist hnp hnp' hrest ↦
    .of_same hst hmem hpend hhist (.inr ⟨hnp, hnp', hrest ▸ nil_sublist _⟩)
  cases e with
  | append | prune | drain =>
    cases hd
    exact h.aside rfl (fun _ h ↦ h) (.of_same rfl rfl rfl rfl (.inl rfl))
  | arrive | answer =>
    obtain ⟨_, -, rfl⟩ := Option.map_eq_some_iff.mp hd
    exact h.aside rfl (fun _ h ↦ h) (.of_same rfl rfl rfl rfl (.inl rfl))
  | wait i =>
    obtain ⟨p, -, hd⟩ := Option.bind_eq_some_iff.mp hd
    split at hd <;> cases hd
    exact h.aside rfl (fun _ h ↦ h) (.of_same rfl rfl rfl rfl (.inl rfl))
  | seat head =>
    simp only [Downlink.step] at hd
    split at hd
    · split at hd <;> cases hd
      exact h.aside rfl (fun _ h ↦ h) (.of_same rfl rfl rfl rfl (.inl rfl))
    · cases hd
  | poll max =>
    simp only [Downlink.step] at hd
    split at hd <;> cases hd
    rename_i hph _
    exact h.aside rfl (fun _ h ↦ h) (hgoes _ rfl rfl rfl rfl (by rw [hph]; rfl) rfl rfl)
  | receive k max =>
    simp only [Downlink.step] at hd
    split at hd
    · rename_i hph _
      split at hd
      · cases hd
      · split at hd <;> cases hd
        · exact h.aside rfl (fun _ h ↦ h) (hgoes _ rfl rfl rfl rfl (by rw [hph]; rfl) rfl rfl)
        · exact h.aside rfl (fun _ h ↦ h) (hgoes _ rfl rfl rfl rfl (by rw [hph]; rfl) rfl rfl)
    · cases hd
  | keep | drop | ack =>
    simp only [Downlink.step] at hd
    split at hd <;> cases hd
    rename_i hph
    exact h.aside rfl (fun _ h ↦ h) (hgoes _ rfl rfl rfl rfl (by rw [hph]; rfl) rfl rfl)
  | storePage ok =>
    simp only [Downlink.step] at hd
    split at hd <;> cases hd
    rename_i after page hph
    have hread : AtCursor s.down (.storing after page) := hph ▸ hl.phase
    exact h.storePage hkey hph (hclear.1 page (by simp [pageOf, hph])) hread
  | storeOne ok =>
    simp only [Downlink.step] at hd
    split at hd <;> cases hd
    · rename_i after x rest next hph
      obtain ⟨-, hle⟩ : AtCursor s.down (.oneByOne after (x :: rest) next) := hph ▸ hl.phase
      exact h.storeOne hkey hph (hclear.2 x (by simp [oneOf, hph])) (hle x mem_cons_self)
    · rename_i hph
      refine h.quiet (hgoes _ rfl rfl rfl rfl (by rw [hph]; rfl) rfl rfl) (fun _ h ↦ h) fun x hx ↦ ?_
      simp [skips, pageOf, oneOf, hph] at hx
  | publish =>
    simp only [Downlink.step] at hd
    split at hd <;> cases hd
    rename_i hph
    exact h.publish hph
  | localAppend stream e =>
    simp only [Downlink.step] at hd
    split at hd <;> cases hd
    rcases eq_or_ne Stream.commands stream with rfl | hne
    · exact h.localAppend e
    · refine h.aside rfl (fun o ho ↦ ?_) ⟨fun x hx ↦ ?_, ?_, rfl, rfl,
        fun _ h ↦ mem_append_left _ h, .inl rfl⟩
      · cases stream with
        | commands => exact absurd rfl hne
        | _ => exact ho
      · simpa [update_of_ne hne] using hx
      · simp [update_of_ne hne]
  | localPrune stream upTo =>
    cases hd
    refine h.aside rfl (fun _ h ↦ h) ⟨fun x hx ↦ ?_, ?_, rfl, rfl, fun _ h ↦ h, .inl rfl⟩
    · rcases mem_update_commands hx with hx | ⟨rfl, hx⟩
      · exact hx
      · exact (mem_filter.mp hx).1
    · rcases eq_or_ne Stream.commands stream with rfl | hne
      · simp
      · simp [update_of_ne hne]
  | restart =>
    cases hd
    exact h.restart s.classOf

variable (cfg) in
structure Inv (s : State K) : Prop where
  loop : Loop s.down
  memory : Remembers cfg s

omit [DecidableEq K] in
/-- What happens outside the child's store and its loop. -/
theorem Remembers.elsewhere (h : Remembers cfg s) (hchild : s'.down.child = s.down.child)
    (hph : s'.down.phase = s.down.phase) (hclass : s'.classOf = s.classOf) (hheld : s'.held = s.held)
    (hghosts : s'.handed = s.handed ∧ s'.own = s.own ∧ s'.skipped = s.skipped) : Remembers cfg s' := by
  obtain ⟨⟨_, _, _, _, _, _, _⟩, _, _, _, _, _, _, _, _⟩ := s'
  obtain ⟨rfl, rfl, rfl⟩ := hghosts
  obtain rfl := hchild
  obtain rfl := hph
  obtain rfl := hclass
  obtain rfl := hheld
  exact { h with }

theorem Inv.step (h : Inv cfg s) (hkey : KeyInjective cfg) {e : Event} (hC : Apart cfg s e)
    (hs : (system cfg).step s e = some s') : Inv cfg s' := by
  change Rehanded.step cfg s e = some s' at hs
  cases e with
  | run e =>
    obtain ⟨d, hd, rfl⟩ := Option.map_eq_some_iff.mp hs
    exact ⟨h.loop.step hd, h.memory.runDown h.loop hkey hC hs⟩
  | move | copy =>
    cases hs
    exact ⟨h.loop, h.memory.elsewhere rfl rfl rfl rfl ⟨rfl, rfl, rfl⟩⟩
  | restore i =>
    obtain ⟨c, -, rfl⟩ := Option.map_eq_some_iff.mp hs
    refine ⟨⟨h.loop.unseated, fun p hp ↦ ?_, h.loop.answers, h.loop.phase⟩,
      h.memory.elsewhere rfl rfl rfl rfl ⟨rfl, rfl, rfl⟩⟩
    cases hp
  | resync resume head =>
    simp only [Rehanded.step] at hs
    split at hs <;> cases hs
    rename_i hph
    refine ⟨⟨fun _ ↦ hph, h.loop.polls, h.loop.answers, ?_⟩, ?_⟩
    · show AtCursor _ s.down.phase
      rw [hph]
      trivial
    · exact { h.memory with }
  | upgrade classOf =>
    change State.runDown { s with classOf } cfg .restart = some s' at hs
    obtain ⟨d, hd, rfl⟩ := Option.map_eq_some_iff.mp hs
    refine ⟨h.loop.step hd, ?_⟩
    cases hd
    exact h.memory.restart classOf

theorem inv_start (cfg : Config K) : Inv cfg (system cfg).start where
  loop :=
    { unseated := fun _ ↦ rfl
      polls := fun _ h ↦ by cases h
      answers := fun _ h ↦ by cases h
      phase := trivial }
  memory :=
    { known := fun _ h ↦ by cases h
      genuine := fun _ h ↦ by cases h
      pending := fun _ h ↦ by cases h
      held := fun _ h ↦ by cases h
      recorded := fun _ h ↦ by cases h
      handed := fun _ h ↦ by cases h
      fresh := fun _ h ↦ by cases h
      distinct := List.Pairwise.nil
      once := fun _ h ↦ by cases h
      skipped := fun _ h ↦ by cases h }

/-! ### The result -/

/-- **In every run whose steps meet the condition** a command that names itself is stored once while the
child's commands stream retains it, and only what the stream once held is skipped as held. -/
theorem held_once (hkey : KeyInjective cfg) (h : (system cfg).Reach (Apart cfg) s) :
    StoredOnce cfg s ∧ SkippedHeld s := by
  have hi : Inv cfg s :=
    h.invariant (inv_start cfg) fun _ _ _ hi hC hs ↦ hi.step hkey hC hs
  refine ⟨fun x hx y hy hlt ho hnamed hsame ↦ ?_, fun e he ↦ ?_⟩
  · refine hi.memory.once x hx y hy hlt ho hnamed ?_
    rw [Config.key, Config.key, hsame.1, hsame.2.1, hsame.2.2]
  · obtain ⟨y, hy, hk⟩ := hi.memory.skipped e he
    exact ⟨y, hy, hkey _ _ hk⟩

end

/-! ### Runs -/

theorem keyInjective_line : KeyInjective line := by
  intro a b h
  obtain ⟨ht, h⟩ := Prod.mk.inj h
  obtain ⟨hp, hts⟩ := Prod.mk.inj h
  exact ⟨ht, hp, hts⟩

/-- The page is stored, published and acknowledged. -/
def storeAndAck : List Downlink.Event := [.storePage true, .publish, .storeOne true, .ack true]

/-- The parent is restored from before the command, which comes down to it again at the offset it had;
the child is placed at the start and handed the command a second time. -/
def restoredRun : List Event :=
  [.run (.seat 1), .copy] ++ (Downlink.Event.append (setSpeed [1]) :: fetch 0 ++ storeAndAck).map .run ++
    [.restore 0, .run (.append (setSpeed [1])), .resync 1 2] ++ (fetch 2).map .run ++
    [.run (.storePage true), .run (.ack true)]

/-- The stream holds one record, and a command was skipped. -/
def heldOnce (s : State (Topic × Payload × ℤ)) : Bool :=
  s.commands.entries.length == 1 && s.skipped.length == 1

theorem restored_parent_hands_again : ∃ s, (system line).Reach (Apart line) s ∧ heldOnce s = true ∧
    StoredOnce line s ∧ SkippedHeld s := by
  obtain ⟨s, hs, hp⟩ := (system line).exists_reach (Apart line) restoredRun (heldOnce ·)
  exact ⟨s, hs, hp, held_once keyInjective_line hs⟩

/-- The command comes down to the parent a second time before the child polls. -/
def repeatedRun : List Event :=
  (Downlink.Event.seat 1 :: .append (setSpeed [1]) :: .append (setSpeed [1]) :: fetch 0 ++
    [Downlink.Event.storePage true]).map .run

/-- **One page with the same command twice**: both are stored. -/
theorem repeated_in_page : ¬ ∀ s, (system line).Reachable s → StoredOnce line s ∧ SkippedHeld s := by
  intro h
  obtain ⟨s, hs, x, hx, y, hy, hlt, ho, hnamed, hsame⟩ :=
    (system line).exists_reachable repeatedRun fun s ↦ ∃ x ∈ s.commands.entries, ∃ y ∈ s.commands.entries,
      x.1 < y.1 ∧ y.1 ∈ s.handed ∧ line.hasCorrelationID y.2.payload ∧ SameCommand x.2 y.2
  exact (h s hs).1 x hx y hy hlt ho hnamed hsame

end Colca.Rehanded
