import Colca.Store.ReplGroup

/-!
# Which answers of a group commit are durable

A child trims what it sends by the mark its parent answers with, so an answered mark must be on the
parent's disk. `AnswersDurable` says that of one group and one outcome of its synced apply.

It does not hold of every group. A request that adds nothing is answered from the mark its
predecessors left in the **local** map of the group, and it is not among the requests a failed apply
fails: repeated after a request of the same child and stream whose records the failed batch held, it
reports them as stored. `commitReplicated_durable_iff` is the exact condition.
-/

namespace Colca

open Uns HighWater Receiver

variable {c : Codec} {s : Store} {group : List ReplRequest} {ok : Bool}

/-- The answer of request `i`, when the apply succeeds, reports offsets that only this commit
stores. -/
def DependsOnCommit (c : Codec) (s : Store) (group : List ReplRequest) (i : ℕ) : Prop :=
  ∃ r a, group[i]? = some r ∧ (commitReplicated c s group true).1[i]? = some a ∧ a.err = none ∧
    s.durableHWM r.key < a.hwm

/-- The durability of the answers of one group, for one outcome of its synced apply. -/
structure AnswersDurable (c : Codec) (s : Store) (group : List ReplRequest) (ok : Bool) : Prop where
  /-- A mark answered without an error is durable once the commit has ended. -/
  hwm_le : ∀ (i : ℕ) (r : ReplRequest) (a : Answer), group[i]? = some r →
    (commitReplicated c s group ok).1[i]? = some a → a.err = none →
      a.hwm ≤ (commitReplicated c s group ok).2.durableHWM r.key
  /-- A failed apply changes nothing: no mark, head, byte count or record, on disk or in memory. -/
  unchanged : ok = false → (commitReplicated c s group ok).2.disk = s.disk ∧
    (commitReplicated c s group ok).2.mem = s.mem
  /-- A failed apply fails every request whose answer depended on it. -/
  failed : ok = false → ∀ (i : ℕ) (a : Answer), DependsOnCommit c s group i →
    (commitReplicated c s group ok).1[i]? = some a → a.err ≠ none

/-- Every well-formed request of the group brings a higher offset than the durable mark and every
earlier well-formed request of its child and stream, or no earlier one brought an offset above the
durable mark. -/
def NoRepeatOfUncommitted (s : Store) (group : List ReplRequest) : Prop :=
  ∀ earlier r later, group = earlier ++ r :: later → r.valid →
    (∃ x ∈ r.recs, s.durableHWM r.key < x.childOffset ∧
      ∀ q ∈ earlier, q.valid → q.key = r.key → ∀ y ∈ q.recs, y.childOffset < x.childOffset) ∨
    ∀ q ∈ earlier, q.valid → q.key = r.key → ∀ y ∈ q.recs, y.childOffset ≤ s.durableHWM r.key

/-! ### The receiver's marks and answers -/

namespace Receiver

variable {m : Marks} {r : ReplRequest} {rs earlier later : List ReplRequest} {k : HWMKey} {n : ℕ}

theorem marks_le_iff : marks m r k ≤ n ↔
    m k ≤ n ∧ (r.valid → r.key = k → ∀ y ∈ r.recs, y.childOffset ≤ n) := by
  unfold marks
  by_cases hv : r.valid
  · by_cases hk : k = r.key
    · subst hk
      simp [hv, highest_le_iff]
    · simp [hv, hk, Ne.symm hk]
  · simp [hv]

/-- A mark is the highest offset that was durable or offered by a well-formed request. -/
theorem marksAfter_le_iff : marksAfter m rs k ≤ n ↔
    m k ≤ n ∧ ∀ q ∈ rs, q.valid → q.key = k → ∀ y ∈ q.recs, y.childOffset ≤ n := by
  induction rs generalizing m with
  | nil => simp [marksAfter]
  | cons r rs ih =>
    have hcons : marksAfter m (r :: rs) = marksAfter (marks m r) rs := rfl
    rw [hcons, ih, marks_le_iff, List.forall_mem_cons, and_assoc]

theorem marksAfter_lt_iff : marksAfter m rs k < n ↔
    m k < n ∧ ∀ q ∈ rs, q.valid → q.key = k → ∀ y ∈ q.recs, y.childOffset < n := by
  cases n with
  | zero => simp
  | succ n => simpa only [Nat.lt_succ_iff] using marksAfter_le_iff

theorem le_marksAfter : m k ≤ marksAfter m rs k := (marksAfter_le_iff.mp le_rfl).1

theorem marksAfter_append : marksAfter m (earlier ++ later) = marksAfter (marksAfter m earlier) later :=
  List.foldl_append

/-- A request of a group is answered at the marks the requests before it left. -/
theorem members_getElem? :
    (members m (earlier ++ r :: later))[earlier.length]? = some (member (marksAfter m earlier) r) := by
  induction earlier generalizing m with
  | nil => rfl
  | cons q earlier ih => exact ih

theorem answers_getElem? :
    (answers m (earlier ++ r :: later))[earlier.length]? = some (answer (marksAfter m earlier) r) := by
  rw [← members_map_answer, List.getElem?_map, members_getElem?]
  rfl

/-- An answer without an error is that of a well-formed request, and reports its highest offset. -/
theorem answer_err_eq_none_iff : (answer m r).err = none ↔ r.valid := by
  unfold answer
  cases hfix : r.stream.isFixed with
  | false => simp [ReplRequest.valid, hfix]
  | true => cases hv : r.valid <;> simp

theorem answer_of_valid (hv : r.valid) : answer m r =
    { applied := (accept ReplRecord.childOffset (m r.key) r.recs).1.map .filled
      hwm := highest ReplRecord.childOffset (m r.key) r.recs } := by
  have hfix : r.stream.isFixed = true := (Bool.and_eq_true _ _ ▸ hv).1
  simp [answer, hfix, hv]

end Receiver

/-- A request of a group, by its position. -/
theorem exists_append_of_getElem? {α : Type*} {l : List α} {i : ℕ} {x : α} (h : l[i]? = some x) :
    ∃ earlier later, l = earlier ++ x :: later ∧ earlier.length = i := by
  obtain ⟨hi, rfl⟩ := List.getElem?_eq_some_iff.mp h
  refine ⟨l.take i, l.drop (i + 1), ?_, List.length_take_of_le hi.le⟩
  rw [List.cons_getElem_drop_succ, List.take_append_drop]

/-! ### The two outcomes -/

theorem commitReplicated_ok_getElem? {earlier later : List ReplRequest} {r : ReplRequest}
    (h : group = earlier ++ r :: later) :
    (commitReplicated c s group true).1[earlier.length]? =
      some (Receiver.answer (Receiver.marksAfter s.durableHWM earlier) r) := by
  rw [(commitReplicated_ok c s group).1, h, answers_getElem?]

theorem commitReplicated_failed_getElem? {earlier later : List ReplRequest} {r : ReplRequest}
    (h : group = earlier ++ r :: later) :
    (commitReplicated c s group false).1[earlier.length]? =
      some ((Receiver.member (Receiver.marksAfter s.durableHWM earlier) r).failed s) := by
  rw [(commitReplicated_failed c s group).1, h, List.getElem?_map, members_getElem?]
  rfl

/-- When the apply succeeds every answered mark is durable. -/
theorem answersDurable_ok (c : Codec) (s : Store) (group : List ReplRequest) :
    AnswersDurable c s group true where
  hwm_le i r a hr ha herr := by
    obtain ⟨earlier, later, hgroup, rfl⟩ := exists_append_of_getElem? hr
    rw [commitReplicated_ok_getElem? hgroup, Option.some.injEq] at ha
    subst ha
    have hv : r.valid := answer_err_eq_none_iff.mp herr
    -- the mark reported is the one the receiver has after this request, and marks only rise
    have hhwm : (Receiver.answer (Receiver.marksAfter s.durableHWM earlier) r).hwm =
        Receiver.marks (Receiver.marksAfter s.durableHWM earlier) r r.key := by
      simp [answer_of_valid hv, Receiver.marks, hv]
    rw [hhwm, (commitReplicated_ok c s group).2, hgroup, marksAfter_append]
    exact le_marksAfter
  unchanged h := by cases h
  failed h := by cases h

/-- A failed apply leaves an answer alone exactly when the request was answered and added nothing. -/
theorem failed_err_eq_none_iff {m : Receiver.Marks} {r : ReplRequest} :
    ((Receiver.member m r).failed s).err = none ↔
      r.valid ∧ ∀ x ∈ r.recs, x.childOffset ≤ m r.key := by
  unfold Member.failed
  by_cases hc : (Receiver.member m r).committed
  · have happ : (Receiver.answer m r).applied ≠ [] := by simpa [Receiver.member] using hc
    simp only [hc, if_true, reduceCtorEq, false_iff, not_and]
    intro hv hle
    refine happ ?_
    rw [answer_of_valid hv, List.map_eq_nil_iff]
    exact accept_fst_eq_nil_iff.mpr hle
  · have happ : (Receiver.answer m r).applied = [] := by simpa [Receiver.member] using hc
    rw [if_neg hc]
    refine answer_err_eq_none_iff.trans ⟨fun hv ↦ ⟨hv, ?_⟩, And.left⟩
    rw [answer_of_valid hv, List.map_eq_nil_iff] at happ
    exact accept_fst_eq_nil_iff.mp happ

/-- Such an answer reports the mark of the requests before it. -/
theorem failed_hwm {m : Receiver.Marks} {r : ReplRequest}
    (h : ((Receiver.member m r).failed s).err = none) : ((Receiver.member m r).failed s).hwm = m r.key := by
  obtain ⟨hv, hle⟩ := failed_err_eq_none_iff.mp h
  have happ : (Receiver.answer m r).applied = [] := by
    rw [answer_of_valid hv, List.map_eq_nil_iff]
    exact accept_fst_eq_nil_iff.mpr hle
  have hc : (Receiver.member m r).committed = false := by simp [Receiver.member, happ]
  rw [Member.failed, if_neg (by simp [hc])]
  show (Receiver.answer m r).hwm = m r.key
  rw [answer_of_valid hv]
  exact highest_eq_of_forall_le hle

/-- After a failed apply the marks answered without an error are durable exactly when no request
repeats what the failed batch held. -/
theorem failed_hwm_le_iff (c : Codec) (s : Store) (group : List ReplRequest) :
    (∀ (i : ℕ) (r : ReplRequest) (a : Answer), group[i]? = some r →
      (commitReplicated c s group false).1[i]? = some a → a.err = none →
        a.hwm ≤ s.durableHWM r.key) ↔ NoRepeatOfUncommitted s group := by
  constructor
  · intro h earlier r later hgroup hv
    have hr : group[earlier.length]? = some r := by simp [hgroup]
    have ha := commitReplicated_failed_getElem? (c := c) (s := s) hgroup
    by_cases hnew : ∃ x ∈ r.recs, Receiver.marksAfter s.durableHWM earlier r.key < x.childOffset
    · obtain ⟨x, hx, hlt⟩ := hnew
      exact .inl ⟨x, hx, marksAfter_lt_iff.mp hlt⟩
    · push Not at hnew
      have herr := (failed_err_eq_none_iff (s := s)).mpr ⟨hv, hnew⟩
      have hle := h _ r _ hr ha herr
      rw [failed_hwm herr] at hle
      exact .inr (marksAfter_le_iff.mp hle).2
  · intro h i r a hr ha herr
    obtain ⟨earlier, later, hgroup, rfl⟩ := exists_append_of_getElem? hr
    rw [commitReplicated_failed_getElem? hgroup, Option.some.injEq] at ha
    subst ha
    rw [failed_hwm herr]
    obtain ⟨hv, hle⟩ := failed_err_eq_none_iff.mp herr
    rcases h earlier r later hgroup hv with ⟨x, hx, hdur, hearlier⟩ | hidle
    · have hlt := marksAfter_lt_iff.mpr ⟨hdur, hearlier⟩
      exact absurd (hle x hx) hlt.not_ge
    · exact marksAfter_le_iff.mpr ⟨le_rfl, hidle⟩

/-- **Durability of replication answers, exactly.** The answers of a group are durable if and only
if its apply succeeds or no request of it repeats what an earlier request of the same child and
stream added to the batch. -/
theorem commitReplicated_durable_iff (c : Codec) (s : Store) (group : List ReplRequest)
    (ok : Bool) : AnswersDurable c s group ok ↔ ok = true ∨ NoRepeatOfUncommitted s group := by
  cases ok with
  | true => exact ⟨fun _ ↦ .inl rfl, fun _ ↦ answersDurable_ok c s group⟩
  | false =>
    have hstore : (commitReplicated c s group false).2 = s := (commitReplicated_failed c s group).2
    constructor
    · intro h
      refine .inr ((failed_hwm_le_iff c s group).mp fun i r a hr ha herr ↦ ?_)
      have := h.hwm_le i r a hr ha herr
      rwa [hstore] at this
    · rintro (h | h)
      · cases h
      have hle := (failed_hwm_le_iff c s group).mpr h
      refine ⟨fun i r a hr ha herr ↦ ?_, fun _ ↦ by rw [hstore]; exact ⟨rfl, rfl⟩, ?_⟩
      · rw [hstore]
        exact hle i r a hr ha herr
      · rintro - i a ⟨r, a', hr, ha', -, hlt⟩ ha herr
        -- an answer the failed apply left alone is the answer of the successful one
        have hdur := hle i r a hr ha herr
        obtain ⟨earlier, later, hgroup, rfl⟩ := exists_append_of_getElem? hr
        rw [commitReplicated_ok_getElem? hgroup, Option.some.injEq] at ha'
        rw [commitReplicated_failed_getElem? hgroup, Option.some.injEq] at ha
        subst ha ha'
        rw [failed_hwm herr] at hdur
        obtain ⟨hv, hold⟩ := failed_err_eq_none_iff.mp herr
        rw [answer_of_valid hv] at hlt
        have hmark := highest_eq_of_forall_le hold
        exact absurd hlt (by rw [hmark]; exact Nat.not_lt_of_le hdur)

/-! ### A repeated request after a failed apply -/

/-- Two concurrent pushes of the same batch by one child, as a retry after a lost response sends
them, whose shared apply fails: the second is answered without an error and with the mark the first
would have left, which is nowhere on disk. -/
theorem failed_apply_answers_repeat :
    ¬ ∀ (c : Codec) (s : Store) (group : List ReplRequest) (ok : Bool), AnswersDurable c s group ok := by
  intro h
  let push : ReplRequest :=
    { child := "line1", stream := .alarms
      recs := [{ childOffset := 1, topic := ["colca", "v1", "_AlarmStateChange", "line1", "a"] }] }
  have hd := h ⟨fun _ ↦ 0, fun _ ↦ ""⟩ Store.empty [push, push] false
  have hle : 1 ≤ 0 := hd.hwm_le 1 push { hwm := 1 } rfl (by decide) rfl
  exact absurd hle (by decide)

end Colca
