import Colca.Store.Record
import Colca.Lib.HighWater
import Mathlib.Data.List.AList
import Mathlib.Data.List.TakeDrop

/-!
# Group commit of replicated batches

A parent receives one request per child batch, from many children at once. Concurrent requests share
one synced batch: `commitReplicated` builds every request of a group into it, applies it once, and
fills in every request's answer.

## The two layers

* The faithful one is `commitReplicated` over `Store`: the loop with its local maps `next`,
  `liveBytes` and `hwms`, the batch it builds, both outcomes of the synced apply, and the memory the
  store publishes afterwards. A `Store` carries the agreement of its memory with its disk as a
  field, so a commit has to re-establish it.
* The abstract one is `Receiver`: a high-water mark per child and stream, and nothing else. A request
  is answered from the marks its predecessors left.

`commitReplicated_ok` and `commitReplicated_failed` connect them: when the apply succeeds the group
is answered as the receiver answers it one request after the other, and the durable marks are the
receiver's; when it fails the store is unchanged and exactly the requests that **added** something
come back with the error.
-/

namespace Colca

open Uns HighWater List ReplRecord AList

/-- The key of a high-water mark. -/
structure HWMKey where
  child : String
  stream : Stream
  deriving DecidableEq, Repr

/-- The in-memory state a store publishes to readers. -/
structure Memory where
  /-- The next offset per stream, `0` for an unknown stream. -/
  next : Stream → ℕ
  /-- The live bytes per stream. -/
  bytes : Stream → ℕ
  /-- The cache of high-water marks. -/
  hwms : HWMKey → Option ℕ

/-- The memory says what the disk says. -/
structure Memory.Agrees (m : Memory) (d : Disk) : Prop where
  next_eq : ∀ s, s.isFixed → m.next s = readU64 d (.head s) 1
  next_pos : ∀ s, s.isFixed → 0 < m.next s
  next_other : ∀ s, ¬ s.isFixed → m.next s = 0
  bytes_eq : ∀ s, s.isFixed → m.bytes s = readU64 d (.bytes s) 0
  hwms_eq : ∀ k v, m.hwms k = some v → readU64 d (.hwm k.child k.stream) 0 = v

/-- An open store: a disk, and a memory that agrees with it. -/
structure Store where
  disk : Disk
  mem : Memory
  agrees : mem.Agrees disk

namespace Store

/-- The mark durably stored for a child's stream. -/
def durableHWM (s : Store) (k : HWMKey) : ℕ := readU64 s.disk (.hwm k.child k.stream) 0

/-- `HWMGet`: the cached mark, or the one on disk. A miss also fills the cache, with the value just
read, which changes no later answer. -/
def hwmGet (s : Store) (k : HWMKey) : ℕ := (s.mem.hwms k).getD (s.durableHWM k)

@[simp] theorem hwmGet_eq (s : Store) (k : HWMKey) : s.hwmGet k = s.durableHWM k := by
  unfold hwmGet
  cases h : s.mem.hwms k with
  | none => rfl
  | some v => exact (s.agrees.hwms_eq k v h).symm

/-- A store just created. -/
def empty : Store where
  disk _ := none
  mem :=
    { next := fun st ↦ if st.isFixed then 1 else 0
      bytes := fun _ ↦ 0
      hwms := fun _ ↦ none }
  agrees :=
    { next_eq := fun st h ↦ by simp [h, readU64]
      next_pos := fun st h ↦ by simp [h]
      next_other := fun st h ↦ by simp [h]
      bytes_eq := fun st _ ↦ rfl
      hwms_eq := fun _ _ h ↦ by cases h }

end Store

/-! ### The queue

Concurrent requests queue, and the oldest one leads: it takes the next group from the front of the
queue and commits it for everyone in it. -/

/-- The most records of one group commit, unless a single request is larger. -/
def maxGroupRecords : ℕ := 4096

/-- The members after the first, as long as the group stays within its bound. -/
def takeMore {ρ : Type*} (records : ρ → ℕ) : ℕ → List ρ → List ρ × List ρ
  | _, [] => ([], [])
  | total, r :: rs =>
    if total + records r ≤ maxGroupRecords then
      (r :: (takeMore records (total + records r) rs).1, (takeMore records (total + records r) rs).2)
    else ([], r :: rs)

/-- The next group and the rest of the queue. -/
def takeGroup {ρ : Type*} (records : ρ → ℕ) : List ρ → List ρ × List ρ
  | [] => ([], [])
  | r :: rs => (r :: (takeMore records (records r) rs).1, (takeMore records (records r) rs).2)

variable {off live : ℕ} {ρ : Type*} {k : Key}

theorem takeMore_append (records : ρ → ℕ) (total : ℕ) (rs : List ρ) :
    (takeMore records total rs).1 ++ (takeMore records total rs).2 = rs := by
  induction rs generalizing total with
  | nil => rfl
  | cons r rs ih =>
    rw [takeMore]
    split
    · rw [cons_append, ih]
    · rfl

/-- A group is a front part of the queue. -/
theorem takeGroup_append (records : ρ → ℕ) (rs : List ρ) :
    (takeGroup records rs).1 ++ (takeGroup records rs).2 = rs := by
  cases rs with
  | nil => rfl
  | cons r rs => rw [takeGroup, cons_append, takeMore_append]

/-! ### Requests and answers -/

/-- A queued replicated request. -/
structure ReplRequest where
  child : String
  stream : Stream
  recs : List ReplRecord
  deriving DecidableEq, Repr

/-- The mark a request is about. -/
def ReplRequest.key (r : ReplRequest) : HWMKey := ⟨r.child, r.stream⟩

/-- Why a request failed. -/
inductive ReplError
  /-- `unknown stream %q` -/
  | unknownStream (s : Stream)
  /-- `invalid metric skip range` -/
  | invalidSkipRange
  /-- The synced apply failed. -/
  | apply
  deriving DecidableEq, Repr

/-- What a request comes back with. -/
structure Answer where
  applied : List ReplRecord := []
  hwm : ℕ
  err : Option ReplError := none
  deriving DecidableEq, Repr

/-- A record that claims to be a skip range and is not one. -/
def ReplRecord.invalidSkip (stream : Stream) (r : ReplRecord) : Bool :=
  r.skipFrom != 0 &&
    (stream != .metrics || decide (r.childOffset < r.skipFrom) || r.topic != noPath ||
      r.payload != [])

/-- At the first hop the child offset is the owner-authored coordinate. -/
def ReplRecord.filled (r : ReplRecord) : ReplRecord :=
  if r.skipFrom ≠ 0 then r
  else { r with originOffset := if r.originOffset = 0 then r.childOffset else r.originOffset }

@[simp] theorem ReplRecord.filled_childOffset (r : ReplRecord) : r.filled.childOffset = r.childOffset := by
  unfold filled; split <;> rfl

@[simp] theorem ReplRecord.filled_skipFrom (r : ReplRecord) : r.filled.skipFrom = r.skipFrom := by
  unfold filled; split <;> rfl

/-- The record a parent appends for a replicated one. -/
def ReplRecord.toRecord (r : ReplRecord) : Record :=
  { topic := r.topic, payload := r.payload, ts := r.ts, by_ := r.by_, originOffset := r.originOffset
    kvPath := r.kvPath, kvNode := r.kvNode, delete := r.delete }

/-! ### Building one request -/

/-- What building a request has produced so far. -/
structure Built where
  applied : List ReplRecord := []
  hwm : ℕ
  next : ℕ
  added : ℕ := 0
  own : Batch Key Val := []

/-- One turn of the loop of `buildReplicated`. -/
def buildStep (c : Codec) (stream : Stream) (b : Built) (r : ReplRecord) : Except ReplError Built :=
  if r.invalidSkip stream then .error .invalidSkipRange
  else if r.childOffset ≤ b.hwm then .ok b
  else if r.skipFrom ≠ 0 then
    .ok { b with applied := b.applied ++ [r.filled], hwm := r.childOffset }
  else
    let w := addRecord c stream b.next r.filled.toRecord
    .ok { applied := b.applied ++ [r.filled], hwm := r.childOffset, next := b.next + 1,
          added := b.added + w.2, own := b.own ++ w.1 }

/-- Build a request's records above `prev`, starting at offset `off`. -/
def buildReplicated (c : Codec) (r : ReplRequest) (prev off : ℕ) : Except ReplError Built :=
  r.recs.foldlM (buildStep c r.stream) { hwm := prev, next := off }

/-- The request names a stream of the store and holds no malformed skip range. -/
def ReplRequest.valid (r : ReplRequest) : Bool :=
  r.stream.isFixed && r.recs.all (fun x ↦ !x.invalidSkip r.stream)

/-- What one loop of `buildReplicated` does from any point on. -/
structure Built.Extends (recs : List ReplRecord) (b b' : Built) : Prop where
  applied_eq : b'.applied = b.applied ++ (accept ReplRecord.childOffset b.hwm recs).1.map .filled
  hwm_eq : b'.hwm = highest ReplRecord.childOffset b.hwm recs
  next_le : b.next ≤ b'.next
  /-- Bytes are added only together with records. -/
  added_eq : b'.next = b.next → b'.added = b.added
  own_not_counter : ∀ w ∈ b'.own, w ∈ b.own ∨ w.key.isCounter = false

variable {stream : Stream} {b : Built}

theorem buildStep_eq_ok {c : Codec} {r : ReplRecord} (h : r.invalidSkip stream = false) :
    ∃ b', buildStep c stream b r = .ok b' ∧ b.Extends [r] b' := by
  unfold buildStep
  rw [if_neg (by simp [h])]
  split
  · rename_i hle
    exact ⟨b, rfl, ⟨by simp [accept, hle], by simp [hle], le_rfl, fun _ ↦ rfl, fun w hw ↦ .inl hw⟩⟩
  · rename_i hle
    have hmax : max b.hwm r.childOffset = r.childOffset := max_eq_right (by omega)
    split
    · exact ⟨_, rfl, ⟨by simp [accept, hle], by simp [hmax], le_rfl, fun _ ↦ rfl,
        fun w hw ↦ .inl hw⟩⟩
    · refine ⟨_, rfl, ⟨by simp [accept, hle], by simp [hmax], Nat.le_succ _, ?_, ?_⟩⟩
      · intro h
        simp at h
      · intro w hw
        rcases mem_append.mp hw with hw | hw
        · exact .inl hw
        · exact .inr (addRecord_not_counter hw)

variable {recs : List ReplRecord}

theorem Built.Extends.trans {r : ReplRecord} {b' b'' : Built} (h : b.Extends [r] b')
    (h' : b'.Extends recs b'') : b.Extends (r :: recs) b'' where
  applied_eq := by
    rw [h'.applied_eq, h.applied_eq, h.hwm_eq]
    by_cases hle : r.childOffset ≤ b.hwm
    · simp [accept, hle]
    · have hmax : max b.hwm r.childOffset = r.childOffset := max_eq_right (by omega)
      simp [accept, hle, hmax]
  hwm_eq := by rw [h'.hwm_eq, h.hwm_eq]; rfl
  next_le := h.next_le.trans h'.next_le
  added_eq heq := by
    have hb : b'.next = b.next := le_antisymm (heq ▸ h'.next_le) h.next_le
    rw [h'.added_eq (heq.trans hb.symm), h.added_eq hb]
  own_not_counter w hw := by
    rcases h'.own_not_counter w hw with hw | hw
    · exact h.own_not_counter w hw
    · exact .inr hw

/-- The loop over records none of which is a malformed skip range. -/
theorem foldlM_buildStep_ok {c : Codec} (b : Built) (h : ∀ r ∈ recs, r.invalidSkip stream = false) :
    ∃ b', recs.foldlM (buildStep c stream) b = .ok b' ∧ b.Extends recs b' := by
  induction recs generalizing b with
  | nil => exact ⟨b, rfl, ⟨by simp [accept], rfl, le_rfl, fun _ ↦ rfl, fun w hw ↦ .inl hw⟩⟩
  | cons r recs ih =>
    obtain ⟨b₁, hb₁, he₁⟩ := buildStep_eq_ok (c := c) (b := b) (h r mem_cons_self)
    obtain ⟨b₂, hb₂, he₂⟩ := ih b₁ fun x hx ↦ h x (mem_cons_of_mem _ hx)
    refine ⟨b₂, ?_, he₁.trans he₂⟩
    rw [foldlM_cons, hb₁]
    exact hb₂

/-- One malformed skip range fails the whole request. -/
theorem foldlM_buildStep_error {c : Codec} (b : Built) (h : ∃ r ∈ recs, r.invalidSkip stream = true) :
    recs.foldlM (buildStep c stream) b = .error .invalidSkipRange := by
  induction recs generalizing b with
  | nil => obtain ⟨r, hr, -⟩ := h; cases hr
  | cons r recs ih =>
    rw [foldlM_cons]
    by_cases hr : r.invalidSkip stream = true
    · rw [buildStep, if_pos hr]
      rfl
    · obtain ⟨b₁, hb₁, -⟩ := buildStep_eq_ok (c := c) (b := b) (Bool.not_eq_true _ ▸ hr)
      rw [hb₁]
      refine ih b₁ ?_
      obtain ⟨x, hx, hbad⟩ := h
      rcases mem_cons.mp hx with rfl | hx
      · exact absurd hbad hr
      · exact ⟨x, hx, hbad⟩

theorem buildReplicated_ok (c : Codec) {r : ReplRequest} (h : r.valid) (prev off : ℕ) :
    ∃ b, buildReplicated c r prev off = .ok b ∧
      Built.Extends r.recs { hwm := prev, next := off } b := by
  refine foldlM_buildStep_ok _ fun x hx ↦ ?_
  simp only [ReplRequest.valid, Bool.and_eq_true, all_eq_true, Bool.not_eq_true'] at h
  exact h.2 x hx

theorem buildReplicated_error (c : Codec) {r : ReplRequest} (hfix : r.stream.isFixed)
    (h : r.valid = false) (prev off : ℕ) : buildReplicated c r prev off = .error .invalidSkipRange := by
  refine foldlM_buildStep_error _ ?_
  simp only [ReplRequest.valid, hfix, Bool.true_and, all_eq_false, Bool.not_eq_true',
    Bool.not_eq_false] at h
  exact h

/-! ### The group -/

/-- A request of the group with its answer so far; `committed` when it added something to the
group's batch. -/
structure Member where
  request : ReplRequest
  answer : Answer
  committed : Bool := false

/-- The local state of the loop of `commitReplicated`. -/
structure Group where
  /-- `next` and `liveBytes`, two maps with the same streams. -/
  heads : AList (fun _ : Stream ↦ ℕ × ℕ) := ∅
  /-- The marks this group is about to write. -/
  hwms : AList (fun _ : HWMKey ↦ ℕ) := ∅
  batch : Batch Key Val := []
  members : List Member := []

/-- The mark a request of the group starts from. -/
def Group.prev (g : Group) (s : Store) (k : HWMKey) : ℕ := (g.hwms.lookup k).getD (s.hwmGet k)

/-- The head and live bytes of a stream as the group left them, `none` for an unknown stream. -/
def Group.head (g : Group) (s : Store) (st : Stream) : Option (ℕ × ℕ) :=
  match g.heads.lookup st with
  | some h => some h
  | none => if s.mem.next st = 0 then none else some (s.mem.next st, s.mem.bytes st)

/-- The group after a request on a known stream was built, or failed to build, from the head
`(off, live)`. A request that was built and adds nothing is answered and **not** committed. -/
def Group.add (s : Store) (g : Group) (r : ReplRequest) (off live : ℕ) :
    Except ReplError Built → Group
  | .error e =>
    { g with
      heads := g.heads.insert r.stream (off, live)
      members := g.members ++ [⟨r, { hwm := g.prev s r.key, err := some e }, false⟩] }
  | .ok b =>
    if b.applied = [] then
      { g with
        heads := g.heads.insert r.stream (off, live)
        members := g.members ++ [⟨r, { hwm := b.hwm }, false⟩] }
    else
      { heads := g.heads.insert r.stream (b.next, live + b.added)
        hwms := g.hwms.insert r.key b.hwm
        batch := g.batch ++ b.own
        members := g.members ++ [⟨r, { applied := b.applied, hwm := b.hwm }, true⟩] }

/-- One turn of the loop of `commitReplicated`. -/
def Group.step (c : Codec) (s : Store) (g : Group) (r : ReplRequest) : Group :=
  match g.head s r.stream with
  | none =>
    { g with members := g.members ++
        [⟨r, { hwm := s.hwmGet r.key, err := some (.unknownStream r.stream) }, false⟩] }
  | some (off, live) => g.add s r off live (buildReplicated c r (g.prev s r.key) off)

/-- The loop over the whole group. -/
def Group.run (c : Codec) (s : Store) (group : List ReplRequest) : Group :=
  group.foldl (Group.step c s) {}

/-- The heads, byte counts and marks written after the records. -/
def Group.counters (g : Group) (s : Store) : Batch Key Val :=
  (g.heads.entries.flatMap fun e ↦
    if e.2.1 = s.mem.next e.1 then []
    else setHead e.1 e.2.1 ++ [.set (.bytes e.1) (.num e.2.2)]) ++
  g.hwms.entries.map fun e ↦ .set (.hwm e.1.child e.1.stream) (.num e.2)

/-- The memory published once the batch is on disk. -/
def Group.publish (g : Group) (m : Memory) : Memory where
  next st := ((g.heads.lookup st).map Prod.fst).getD (m.next st)
  bytes st := ((g.heads.lookup st).map Prod.snd).getD (m.bytes st)
  hwms k := (g.hwms.lookup k).orElse fun _ ↦ m.hwms k

/-- The answer of a member of a group whose apply failed: only a committed one is failed. -/
def Member.failed (s : Store) (m : Member) : Answer :=
  if m.committed then { hwm := s.hwmGet m.request.key, err := some .apply } else m.answer

/-! ### What the loop keeps -/

/-- The invariant of the loop: the local heads belong to streams of the store, have not moved back,
and carry their old byte count as long as no record was added; the batch holds records only. -/
structure Group.Inv (s : Store) (g : Group) : Prop where
  heads_fixed : ∀ st h, g.heads.lookup st = some h → st.isFixed
  next_le : ∀ st h, g.heads.lookup st = some h → s.mem.next st ≤ h.1
  bytes_eq : ∀ st h, g.heads.lookup st = some h → h.1 = s.mem.next st → h.2 = s.mem.bytes st
  hwms_fixed : ∀ k v, g.hwms.lookup k = some v → k.stream.isFixed
  batch_not_counter : ∀ w ∈ g.batch, w.key.isCounter = false

theorem Group.inv_empty (s : Store) : Inv s {} where
  heads_fixed _ _ h := by simp at h
  next_le _ _ h := by simp at h
  bytes_eq _ _ h := by simp at h
  hwms_fixed _ _ h := by simp at h
  batch_not_counter _ h := by cases h

variable {c : Codec} {s : Store} {g : Group} {r : ReplRequest}

/-- The head the loop works from: known exactly for the streams of the store, never behind the
store's, with the store's byte count as long as it has not moved. -/
theorem Group.Inv.head_spec (hg : g.Inv s) (st : Stream) :
    (st.isFixed = false ∧ g.head s st = none) ∨
    (st.isFixed = true ∧ ∃ off live, g.head s st = some (off, live) ∧ s.mem.next st ≤ off ∧
      (off = s.mem.next st → live = s.mem.bytes st)) := by
  unfold head
  cases h : g.heads.lookup st with
  | some h' => exact .inr ⟨hg.heads_fixed st h' h, h'.1, h'.2, rfl, hg.next_le st h' h,
      hg.bytes_eq st h' h⟩
  | none =>
    by_cases hfix : st.isFixed
    · have := s.agrees.next_pos st hfix
      exact .inr ⟨hfix, s.mem.next st, s.mem.bytes st, by simp; omega, le_rfl, fun _ ↦ rfl⟩
    · exact .inl ⟨by simpa using hfix, by simp [s.agrees.next_other st hfix]⟩

variable {st : Stream}

/-- Storing a head of the kind `head_spec` describes keeps the invariant. -/
theorem Group.Inv.insert_head (hg : g.Inv s) (hfix : st.isFixed)
    (hle : s.mem.next st ≤ off) (hb : off = s.mem.next st → live = s.mem.bytes st) :
    Inv s { g with heads := g.heads.insert st (off, live) } :=
  { hg with
    heads_fixed st' h hl := by
      by_cases hst : st' = st
      · exact hst ▸ hfix
      · rw [lookup_insert_ne hst] at hl
        exact hg.heads_fixed st' h hl
    next_le st' h hl := by
      by_cases hst : st' = st
      · subst hst
        rw [lookup_insert, Option.some.injEq] at hl
        exact hl ▸ hle
      · rw [lookup_insert_ne hst] at hl
        exact hg.next_le st' h hl
    bytes_eq st' h hl := by
      by_cases hst : st' = st
      · subst hst
        rw [lookup_insert, Option.some.injEq] at hl
        exact hl ▸ hb
      · rw [lookup_insert_ne hst] at hl
        exact hg.bytes_eq st' h hl }

/-! ### The abstract receiver -/

namespace Receiver

/-- A high-water mark per child and stream. -/
abbrev Marks := HWMKey → ℕ

/-- What a request is answered at these marks. -/
def answer (m : Marks) (r : ReplRequest) : Answer :=
  if r.stream.isFixed = false then { hwm := m r.key, err := some (.unknownStream r.stream) }
  else if r.valid then
    { applied := (accept ReplRecord.childOffset (m r.key) r.recs).1.map .filled
      hwm := highest ReplRecord.childOffset (m r.key) r.recs }
  else { hwm := m r.key, err := some .invalidSkipRange }

/-- The marks a request leaves. -/
def marks (m : Marks) (r : ReplRequest) : Marks :=
  if r.valid then Function.update m r.key (highest ReplRecord.childOffset (m r.key) r.recs) else m

/-- The answers of requests taken one after the other. -/
def answers : Marks → List ReplRequest → List Answer
  | _, [] => []
  | m, r :: rs => answer m r :: answers (marks m r) rs

/-- The marks requests taken one after the other leave. -/
def marksAfter (m : Marks) (rs : List ReplRequest) : Marks := rs.foldl marks m

/-- A request with its answer, `committed` when it added something. -/
def member (m : Marks) (r : ReplRequest) : Member :=
  ⟨r, answer m r, decide ((answer m r).applied ≠ [])⟩

/-- The members of a group, one after the other. -/
def members : Marks → List ReplRequest → List Member
  | _, [] => []
  | m, r :: rs => member m r :: members (marks m r) rs

@[simp] theorem members_map_answer (m : Marks) (rs : List ReplRequest) :
    (members m rs).map Member.answer = answers m rs := by
  induction rs generalizing m with
  | nil => rfl
  | cons r rs ih => simp [members, answers, member, ih]

/-- A request that adds nothing leaves the marks alone. -/
theorem marks_eq_of_applied_eq_nil {m : Marks} {r : ReplRequest}
    (h : (answer m r).applied = []) : marks m r = m := by
  unfold marks
  by_cases hv : r.valid
  · have hfix : r.stream.isFixed = true := (Bool.and_eq_true _ _ ▸ hv).1
    simp only [answer, hfix, hv, Bool.true_eq_false, if_false, if_true,
      map_eq_nil_iff, accept_fst_eq_nil_iff] at h
    rw [if_pos hv, highest_eq_of_forall_le h, Function.update_eq_self]
  · rw [if_neg hv]

theorem marksAfter_eq_of_not_committed {m : Marks} {rs : List ReplRequest}
    (h : ∀ x ∈ members m rs, x.committed = false) : marksAfter m rs = m := by
  induction rs generalizing m with
  | nil => rfl
  | cons r rs ih =>
    have hr : marks m r = m :=
      marks_eq_of_applied_eq_nil (by simpa [member] using h (member m r) mem_cons_self)
    have htail := ih (m := m) fun x hx ↦ h x (by
      rw [members, hr]
      exact mem_cons_of_mem _ hx)
    rw [marksAfter, foldl_cons, hr]
    exact htail

end Receiver

/-- A request that was built and added something keeps the invariant. -/
theorem Group.Inv.commit (hg : g.Inv s) (hfix : r.stream.isFixed) (hle : s.mem.next r.stream ≤ off)
    (hlive : off = s.mem.next r.stream → live = s.mem.bytes r.stream)
    (hx : Built.Extends r.recs { hwm := g.prev s r.key, next := off } b) (members : List Member) :
    Inv s
      { heads := g.heads.insert r.stream (b.next, live + b.added)
        hwms := g.hwms.insert r.key b.hwm
        batch := g.batch ++ b.own
        members := members } := by
  have hnext : off ≤ b.next := hx.next_le
  have hbytes : b.next = s.mem.next r.stream → live + b.added = s.mem.bytes r.stream := by
    intro heq
    have hadd : b.added = 0 := hx.added_eq (show b.next = off by omega)
    rw [hadd, hlive (by omega), Nat.add_zero]
  have hg' := hg.insert_head hfix (hle.trans hnext) hbytes
  refine ⟨hg'.heads_fixed, hg'.next_le, hg'.bytes_eq, fun k v hl ↦ ?_, fun w hw ↦ ?_⟩
  · by_cases hk : k = r.key
    · exact hk ▸ hfix
    · exact hg.hwms_fixed k v (lookup_insert_ne hk ▸ hl)
  · rcases mem_append.mp hw with hw | hw
    · exact hg.batch_not_counter w hw
    · rcases hx.own_not_counter w hw with hw | hw
      · cases hw
      · exact hw

/-- **One turn of the loop is one turn of the receiver**, and keeps the loop's invariant. -/
theorem Group.step_spec (c : Codec) (hg : g.Inv s) (r : ReplRequest) :
    (g.step c s r).Inv s ∧
    (g.step c s r).members = g.members ++ [Receiver.member (g.prev s) r] ∧
    (g.step c s r).prev s = Receiver.marks (g.prev s) r := by
  rcases hg.head_spec r.stream with ⟨hfix, hhead⟩ | ⟨hfix, off, live, hhead, hle, hlive⟩
  · -- an unknown stream: no earlier request of the group can have written a mark of it
    have hprev : g.prev s r.key = s.hwmGet r.key := by
      unfold Group.prev
      cases hl : g.hwms.lookup r.key with
      | none => rfl
      | some v => exact absurd (hg.hwms_fixed _ v hl) (by simp [ReplRequest.key, hfix])
    have hv : r.valid = false := by simp [ReplRequest.valid, hfix]
    simp only [step, hhead, Receiver.marks, hv]
    refine ⟨{ hg with }, ?_, rfl⟩
    simp [Receiver.member, Receiver.answer, hfix, hprev]
  · have hg' := hg.insert_head hfix hle hlive
    simp only [step, hhead]
    by_cases hv : r.valid
    · obtain ⟨b, hb, hx⟩ := buildReplicated_ok c hv (g.prev s r.key) off
      have hans : Receiver.answer (g.prev s) r = { applied := b.applied, hwm := b.hwm } := by
        simp [hx.applied_eq, hx.hwm_eq, Receiver.answer, hfix, hv]
      rw [hb, add]
      split
      · rename_i happ
        refine ⟨⟨hg'.heads_fixed, hg'.next_le, hg'.bytes_eq, hg.hwms_fixed, hg.batch_not_counter⟩,
          by simp [Receiver.member, hans, happ], ?_⟩
        rw [Receiver.marks_eq_of_applied_eq_nil (by rw [hans]; exact happ)]
        rfl
      · rename_i happ
        refine ⟨hg.commit hfix hle hlive hx _, by simp [Receiver.member, hans, happ], ?_⟩
        funext k
        have hhwm : b.hwm = highest childOffset (g.prev s r.key) r.recs := hx.hwm_eq
        by_cases hk : k = r.key
        · subst hk
          simp [Receiver.marks, hv, Group.prev, hhwm]
        · simp [Receiver.marks, hv, Group.prev, hk]
    · have hv : r.valid = false := by simpa using hv
      rw [buildReplicated_error c hfix hv, add]
      refine ⟨⟨hg'.heads_fixed, hg'.next_le, hg'.bytes_eq, hg.hwms_fixed, hg.batch_not_counter⟩,
        by simp [Receiver.member, Receiver.answer, hfix, hv], ?_⟩
      simp only [Receiver.marks, hv]
      rfl

/-- **The whole loop is the receiver's run.** -/
theorem Group.foldl_step_spec (c : Codec) (hg : g.Inv s) (rs : List ReplRequest) :
    (rs.foldl (step c s) g).Inv s ∧
    (rs.foldl (step c s) g).members = g.members ++ Receiver.members (g.prev s) rs ∧
    (rs.foldl (step c s) g).prev s = Receiver.marksAfter (g.prev s) rs := by
  induction rs generalizing g with
  | nil => exact ⟨hg, by simp [Receiver.members], rfl⟩
  | cons r rs ih =>
    obtain ⟨hg₁, hm₁, hp₁⟩ := step_spec c hg r
    obtain ⟨hg₂, hm₂, hp₂⟩ := ih hg₁
    refine ⟨hg₂, ?_, ?_⟩
    · rw [foldl_cons, hm₂, hm₁, hp₁, append_assoc]
      rfl
    · rw [foldl_cons, hp₂, hp₁]
      rfl

theorem Group.run_spec (c : Codec) (s : Store) (group : List ReplRequest) :
    (Group.run c s group).Inv s ∧
    (Group.run c s group).members = Receiver.members s.durableHWM group ∧
    (Group.run c s group).prev s = Receiver.marksAfter s.durableHWM group := by
  have hprev : Group.prev {} s = s.durableHWM := by
    funext k
    simp [Group.prev]
  have := foldl_step_spec c (inv_empty s) group
  rw [hprev] at this
  exact this

/-! ### The commit -/

/-- The counters a group writes: of the streams whose head moved, and its marks. -/
theorem Group.mem_counters {w : Write Key Val} :
    w ∈ g.counters s ↔
      (∃ st h, g.heads.lookup st = some h ∧ h.1 ≠ s.mem.next st ∧
        (w = .set (.head st) (.num h.1) ∨ w = .set (.indexed st) (.num h.1) ∨
          w = .set (.bytes st) (.num h.2))) ∨
      ∃ k v, g.hwms.lookup k = some v ∧ w = .set (.hwm k.child k.stream) (.num v) := by
  simp only [counters, mem_append, mem_flatMap, mem_map]
  refine or_congr ⟨?_, ?_⟩ ⟨?_, ?_⟩
  · rintro ⟨⟨st, h⟩, he, hw⟩
    refine ⟨st, h, mem_lookup_iff.mpr he, ?_⟩
    split at hw
    · cases hw
    · rename_i hne
      simpa [setHead, hne] using hw
  · rintro ⟨st, h, hl, hne, hw⟩
    refine ⟨⟨st, h⟩, mem_lookup_iff.mp hl, ?_⟩
    rw [if_neg hne]
    simpa [setHead] using hw
  · rintro ⟨⟨k, v⟩, he, rfl⟩
    exact ⟨k, v, mem_lookup_iff.mpr he, rfl⟩
  · rintro ⟨k, v, hl, rfl⟩
    exact ⟨⟨k, v⟩, mem_lookup_iff.mp hl, rfl⟩

/-- The disk once the group's batch is applied. -/
def Group.disk (g : Group) (s : Store) : Disk := Batch.apply s.disk (g.batch ++ g.counters s)

/-- A counter the group writes. -/
theorem Group.disk_of_mem {v : Val} (hmem : Write.set k v ∈ g.counters s)
    (honly : ∀ w ∈ g.counters s, w.key = k → w = .set k v) : g.disk s k = some v := by
  rw [Group.disk, Batch.apply_append]
  exact Batch.apply_of_mem hmem honly

/-- A counter the group does not write. -/
theorem Group.Inv.disk_of_not_mem (hg : g.Inv s) (hk : k.isCounter)
    (h : ∀ w ∈ g.counters s, w.key ≠ k) : g.disk s k = s.disk k := by
  rw [Group.disk, Batch.apply_append, Batch.apply_eq_of_forall_ne h]
  refine Batch.apply_eq_of_forall_ne fun w hw heq ↦ ?_
  rw [← heq, hg.batch_not_counter w hw] at hk
  cases hk

/-- The durable mark after the commit: the group's where it has one, the old one elsewhere. -/
theorem Group.Inv.disk_hwm (hg : g.Inv s) (k : HWMKey) :
    readU64 (g.disk s) (.hwm k.child k.stream) 0 = g.prev s k := by
  unfold Group.prev
  cases hl : g.hwms.lookup k with
  | none =>
    have hnot : ∀ w ∈ g.counters s, w.key ≠ .hwm k.child k.stream := by
      rintro w hw heq
      rcases mem_counters.mp hw with ⟨st, h, -, -, rfl | rfl | rfl⟩ | ⟨k', v, hl', rfl⟩
      · cases heq
      · cases heq
      · cases heq
      · obtain ⟨⟩ : k' = k := by cases k; cases k'; simpa using heq
        simp [hl] at hl'
    simpa [Store.durableHWM] using readU64_congr (hg.disk_of_not_mem rfl hnot) 0
  | some v =>
    refine readU64_of_num (disk_of_mem (mem_counters.mpr (.inr ⟨k, v, hl, rfl⟩)) ?_)
    rintro w hw heq
    rcases mem_counters.mp hw with ⟨st, h, -, -, rfl | rfl | rfl⟩ | ⟨k', v', hl', rfl⟩
    · cases heq
    · cases heq
    · cases heq
    · obtain ⟨⟩ : k' = k := by cases k; cases k'; simpa using heq
      obtain rfl : v = v' := by simpa [hl] using hl'
      rfl

/-- The durable head and byte count of a stream after the commit. -/
theorem Group.Inv.disk_head (hg : g.Inv s) (hfix : st.isFixed) :
    readU64 (g.disk s) (.head st) 1 = ((g.heads.lookup st).map Prod.fst).getD (s.mem.next st) ∧
    readU64 (g.disk s) (.bytes st) 0 = ((g.heads.lookup st).map Prod.snd).getD (s.mem.bytes st) := by
  by_cases hw : ∃ h, g.heads.lookup st = some h ∧ h.1 ≠ s.mem.next st
  · obtain ⟨h, hl, hne⟩ := hw
    have hcase : ∀ w ∈ g.counters s, (w.key = .head st → w = .set (.head st) (.num h.1)) ∧
        (w.key = .bytes st → w = .set (.bytes st) (.num h.2)) := by
      intro w hw
      rcases mem_counters.mp hw with ⟨st', h', hl', -, rfl | rfl | rfl⟩ | ⟨k', v', hl', rfl⟩ <;>
        refine ⟨fun heq ↦ ?_, fun heq ↦ ?_⟩ <;> cases heq <;>
        · obtain rfl : h = h' := by simpa [hl] using hl'
          rfl
    rw [hl]
    exact ⟨readU64_of_num (disk_of_mem
        (mem_counters.mpr (.inl ⟨st, h, hl, hne, .inl rfl⟩)) fun w hw ↦ (hcase w hw).1),
      readU64_of_num (disk_of_mem
        (mem_counters.mpr (.inl ⟨st, h, hl, hne, .inr (.inr rfl)⟩)) fun w hw ↦ (hcase w hw).2)⟩
  · -- the head did not move, so neither counter is written and the byte count is the old one
    have hnot : ∀ w ∈ g.counters s, w.key ≠ .head st ∧ w.key ≠ .bytes st := by
      intro w hmem
      rcases mem_counters.mp hmem with ⟨st', h', hl', hne, rfl | rfl | rfl⟩ | ⟨k', v', -, rfl⟩ <;>
        refine ⟨fun heq ↦ ?_, fun heq ↦ ?_⟩ <;> cases heq <;> exact hw ⟨h', hl', hne⟩
    have hhead : readU64 (g.disk s) (.head st) 1 = s.mem.next st :=
      (readU64_congr (hg.disk_of_not_mem rfl fun w hw ↦ (hnot w hw).1) 1).trans
        (s.agrees.next_eq st hfix).symm
    have hbytes : readU64 (g.disk s) (.bytes st) 0 = s.mem.bytes st :=
      (readU64_congr (hg.disk_of_not_mem rfl fun w hw ↦ (hnot w hw).2) 0).trans
        (s.agrees.bytes_eq st hfix).symm
    rw [hhead, hbytes]
    cases hl : g.heads.lookup st with
    | none => exact ⟨rfl, rfl⟩
    | some h =>
      have heq : h.1 = s.mem.next st := by
        by_contra hne
        exact hw ⟨h, hl, hne⟩
      exact ⟨heq.symm, (hg.bytes_eq st h hl heq).symm⟩

/-- The memory published after the commit agrees with the disk the commit left. -/
theorem Group.Inv.publish_agrees (hg : g.Inv s) : (g.publish s.mem).Agrees (g.disk s) where
  next_eq st hfix := (hg.disk_head hfix).1.symm
  next_pos st hfix := by
    have := s.agrees.next_pos st hfix
    cases hl : g.heads.lookup st with
    | none => simpa [Group.publish, hl] using this
    | some h =>
      have := hg.next_le st h hl
      simp only [Group.publish, hl, Option.map_some, Option.getD_some]
      omega
  next_other st hfix := by
    cases hl : g.heads.lookup st with
    | none => simpa [Group.publish, hl] using s.agrees.next_other st hfix
    | some h => exact absurd (hg.heads_fixed st h hl) hfix
  bytes_eq st hfix := (hg.disk_head hfix).2.symm
  hwms_eq k v h := by
    rw [hg.disk_hwm k, Group.prev]
    cases hl : g.hwms.lookup k with
    | none =>
      have hk : s.mem.hwms k = some v := by simpa [Group.publish, hl] using h
      simpa [Store.durableHWM] using s.agrees.hwms_eq k v hk
    | some v' => simpa [Group.publish, hl] using h

/-- Apply a group as one synced batch and fill in every answer; `ok` is the outcome of the synced
apply. With nothing to write there is no apply. -/
def commitReplicated (c : Codec) (s : Store) (group : List ReplRequest) (ok : Bool) :
    List Answer × Store :=
  let g := Group.run c s group
  if g.members.any Member.committed then
    if ok then
      (g.members.map Member.answer,
        { disk := g.disk s
          mem := g.publish s.mem
          agrees := (Group.run_spec c s group).1.publish_agrees })
    else (g.members.map (Member.failed s), s)
  else (g.members.map Member.answer, s)

/-- **The apply succeeded**: the group is answered as the receiver answers it, one request after the
other, and the durable marks are the receiver's. -/
theorem commitReplicated_ok (c : Codec) (s : Store) (group : List ReplRequest) :
    (commitReplicated c s group true).1 = Receiver.answers s.durableHWM group ∧
    (commitReplicated c s group true).2.durableHWM = Receiver.marksAfter s.durableHWM group := by
  obtain ⟨hg, hm, hp⟩ := Group.run_spec c s group
  by_cases hnone : (Group.run c s group).members.any Member.committed
  · simp only [commitReplicated, hnone, if_true]
    refine ⟨by simp [hm], ?_⟩
    funext k
    rw [← hp]
    exact hg.disk_hwm k
  · simp only [commitReplicated, hnone]
    refine ⟨by simp [hm], (Receiver.marksAfter_eq_of_not_committed fun x hx ↦ ?_).symm⟩
    simp only [hm, any_eq_true, not_exists, not_and, Bool.not_eq_true] at hnone
    exact hnone x hx

/-- **The apply failed**: the store is as it was, and of the receiver's answers exactly those of the
requests that added something are replaced by the error. -/
theorem commitReplicated_failed (c : Codec) (s : Store) (group : List ReplRequest) :
    (commitReplicated c s group false).1 =
      (Receiver.members s.durableHWM group).map (Member.failed s) ∧
    (commitReplicated c s group false).2 = s := by
  obtain ⟨-, hm, -⟩ := Group.run_spec c s group
  by_cases hnone : (Group.run c s group).members.any Member.committed
  · simp only [commitReplicated, hnone, if_true]
    exact ⟨by simp [hm], rfl⟩
  · simp only [commitReplicated, hnone]
    refine ⟨?_, rfl⟩
    rw [hm]
    refine map_congr_left fun x hx ↦ ?_
    simp only [hm, any_eq_true, not_exists, not_and, Bool.not_eq_true] at hnone
    simp [Member.failed, hnone x hx]

/-! ### A record of the node itself -/

theorem Group.inv_append (s : Store) (hfix : st.isFixed) (c : Codec) (r : Record) :
    Inv s
      { heads := (∅ : AList fun _ : Stream ↦ ℕ × ℕ).insert st
          (s.mem.next st + 1, s.mem.bytes st + (addRecord c st (s.mem.next st) r).2)
        batch := (addRecord c st (s.mem.next st) r).1 } := by
  have hmoved : s.mem.next st + 1 = s.mem.next st →
      s.mem.bytes st + (addRecord c st (s.mem.next st) r).2 = s.mem.bytes st := by omega
  have h := (inv_empty s).insert_head hfix (Nat.le_succ _) hmoved
  exact ⟨h.heads_fixed, h.next_le, h.bytes_eq, h.hwms_fixed, fun w hw ↦ addRecord_not_counter hw⟩

/-- The marks kept for a child are forgotten. -/
def Store.dropMarks (s : Store) (child : String) : Store where
  disk
    | .hwm c st => if c = child then none else s.disk (.hwm c st)
    | k => s.disk k
  mem := { s.mem with hwms := fun k ↦ if k.child = child then none else s.mem.hwms k }
  agrees :=
    { s.agrees with
      hwms_eq := fun k v hk ↦ by
        have hk : (if k.child = child then none else s.mem.hwms k) = some v := hk
        by_cases hc : k.child = child
        · simp [hc] at hk
        · rw [if_neg hc] at hk
          rw [← s.agrees.hwms_eq k v hk]
          exact readU64_congr (if_neg hc) 0 }

/-- `Append` of one record: record, projection, head and byte count in one batch. -/
def Store.append (c : Codec) (s : Store) (st : Stream) (hfix : st.isFixed) (r : Record) : Store where
  disk := Group.disk
    { heads := (∅ : AList fun _ : Stream ↦ ℕ × ℕ).insert st
        (s.mem.next st + 1, s.mem.bytes st + (addRecord c st (s.mem.next st) r).2)
      batch := (addRecord c st (s.mem.next st) r).1 } s
  mem := Group.publish
    { heads := (∅ : AList fun _ : Stream ↦ ℕ × ℕ).insert st
        (s.mem.next st + 1, s.mem.bytes st + (addRecord c st (s.mem.next st) r).2)
      batch := (addRecord c st (s.mem.next st) r).1 } s.mem
  agrees := (Group.inv_append s hfix c r).publish_agrees

/-- A record of the node itself moves no mark. -/
@[simp] theorem Store.append_durableHWM (c : Codec) (s : Store) (hfix : st.isFixed) (r : Record) :
    (s.append c st hfix r).durableHWM = s.durableHWM := by
  funext k
  refine ((Group.inv_append s hfix c r).disk_hwm k).trans ?_
  simp [Group.prev]

end Colca
