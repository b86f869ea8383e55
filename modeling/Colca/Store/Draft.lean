import Colca.Store.ReplGroup

/-!
# Commits of a store

Every change of a store is one atomic batch. A `Draft` is such a batch under construction, with the
heads and byte counts it will leave: records are added at the head of their stream, current-state
entries are retired, records and their index entries are removed. `Store.commit` writes it.

The invariants of a draft are fields of it, so a commit cannot write a counter among its records or
hand out offsets of a stream the store does not have. The heads and byte counts go to disk last and
are published with the batch, so a store's memory agrees with its disk after every commit.

`changes` is what the draft does to the current state, record by record. The code does not keep it.
-/

namespace Colca

open Uns List Function Batch

/-- The key of a current-state entry. -/
structure KVKey where
  path : Path
  node : String
  topic : Topic
  deriving DecidableEq, Repr

/-- What happened to a current-state entry. -/
inductive Change
  /-- A record that projects to the entry was committed: `none` is a deletion, otherwise the record
  and its offset. -/
  | projected (k : KVKey) (value : Option (ℕ × Record))
  /-- The entry was evicted. -/
  | evicted (k : KVKey)
  deriving DecidableEq, Repr

namespace Change

/-- The entry a change is about. -/
def key : Change → KVKey
  | projected k _ => k
  | evicted k => k

/-- What a change leaves. -/
def value : Change → Option (ℕ × Record)
  | projected _ v => v
  | evicted _ => none

end Change

/-- The key a record projects to. -/
def Record.kvKey (r : Record) : KVKey := ⟨r.kvPath, r.kvNode, r.topic⟩

/-- The change a record at an offset makes to the current state. -/
def Record.changes (off : ℕ) (r : Record) : List Change :=
  if r.kvPath = noPath then []
  else [.projected r.kvKey (if r.delete then none else some (off, r))]

/-- A key that goes with a removed record. -/
inductive Gone
  | record (off : ℕ)
  | sig (signalID : String) (off : ℕ)
  | target (node : String) (off : ℕ)
  deriving DecidableEq, Repr

/-- The key on disk. -/
def Gone.key (s : Stream) : Gone → Key
  | record off => .stream s off
  | sig id off => .sig s id off
  | target node off => .target s node off

@[simp] theorem Gone.key_not_counter (s : Stream) (g : Gone) : (g.key s).isCounter = false := by
  cases g <;> rfl

/-- The streams every store has. -/
def Uns.Stream.all : List Stream :=
  [.metrics, .entities, .commands, .definitions, .audit, .alarms, .annotations, .logs]

theorem Uns.Stream.mem_all {s : Stream} : s ∈ Stream.all ↔ s.isFixed = true := by
  cases s <;> simp [Stream.all, Stream.isFixed]

/-- Retiring an entry writes no counter. -/
theorem deleteKV_not_counter {path : Path} {node : String} {topic : Topic} {w : Write Key Val}
    (hw : w ∈ deleteKV path node topic) : w.key.isCounter = false := by
  rcases mem_cons.mp hw with rfl | hw
  · rfl
  · split at hw
    · rw [mem_singleton.mp hw]
      rfl
    · cases hw

/-! ### Drafts -/

/-- A batch under construction. -/
structure Draft where
  /-- The head of each stream once the batch is written, `0` for an unknown stream. -/
  next : Stream → ℕ
  bytes : Stream → ℕ
  batch : Batch Key Val := []
  changes : List Change := []
  not_counter : ∀ w ∈ batch, w.key.isCounter = false
  next_pos : ∀ s, s.isFixed → 0 < next s
  next_other : ∀ s, ¬ s.isFixed → next s = 0

/-- The empty draft. -/
def Store.draft (s : Store) : Draft where
  next := s.mem.next
  bytes := s.mem.bytes
  not_counter _ h := absurd h not_mem_nil
  next_pos := s.agrees.next_pos
  next_other := s.agrees.next_other

namespace Draft

variable (c : Codec) (b : Draft)

/-- Add a record at the head of a stream. -/
def add (s : Stream) (r : Record) : Draft :=
  if h : s.isFixed then
    { next := update b.next s (b.next s + 1)
      bytes := update b.bytes s (b.bytes s + (addRecord c s (b.next s) r).2)
      batch := b.batch ++ (addRecord c s (b.next s) r).1
      changes := b.changes ++ r.changes (b.next s)
      not_counter := fun w hw ↦ (mem_append.mp hw).elim (b.not_counter w) addRecord_not_counter
      next_pos := fun s' hs' ↦ by
        by_cases heq : s' = s
        · subst heq
          rw [update_self]
          exact Nat.succ_pos _
        · rw [update_of_ne heq]
          exact b.next_pos s' hs'
      next_other := fun s' hs' ↦ by
        have hne : s' ≠ s := fun heq ↦ hs' (heq ▸ h)
        rw [update_of_ne hne]
        exact b.next_other s' hs' }
  else b

/-- Add records in order. -/
def addAll (rs : List (Stream × Record)) : Draft := rs.foldl (fun b x ↦ b.add c x.1 x.2) b

/-- Retire a current-state entry for a record that has been added without its projection. -/
def retire (k : KVKey) : Draft :=
  { b with
    batch := b.batch ++ deleteKV k.path k.node k.topic
    changes := b.changes ++ [.projected k none]
    not_counter := fun w hw ↦ (mem_append.mp hw).elim (b.not_counter w) deleteKV_not_counter }

/-- Evict a current-state entry. -/
def evict (k : KVKey) : Draft :=
  { b with
    batch := b.batch ++ deleteKV k.path k.node k.topic
    changes := b.changes ++ [.evicted k]
    not_counter := fun w hw ↦ (mem_append.mp hw).elim (b.not_counter w) deleteKV_not_counter }

/-- Remove records and index entries of a stream, which shed that many bytes. A count that would fall
below zero stops there. -/
def remove (s : Stream) (gone : List Gone) (shed : ℕ) : Draft :=
  { b with
    bytes := update b.bytes s (b.bytes s - shed)
    batch := b.batch ++ gone.map fun g ↦ .delete (g.key s)
    not_counter := fun w hw ↦ by
      rcases mem_append.mp hw with hw | hw
      · exact b.not_counter w hw
      · obtain ⟨g, -, rfl⟩ := mem_map.mp hw
        exact Gone.key_not_counter s g }

/-- The heads and byte counts the draft changes. -/
def counters (m : Memory) : Batch Key Val :=
  Stream.all.flatMap fun s ↦
    (if b.next s = m.next s then [] else setHead s (b.next s)) ++
      if b.bytes s = m.bytes s then [] else [.set (.bytes s) (.num (b.bytes s))]

/-- The disk once the draft is written. -/
def disk (s : Store) : Disk := Batch.apply s.disk (b.batch ++ b.counters s.mem)

variable {b} {s : Store} {st : Stream}

theorem mem_counters {m : Memory} {w : Write Key Val} :
    w ∈ b.counters m ↔ ∃ st, st.isFixed ∧
      ((b.next st ≠ m.next st ∧
        (w = .set (.head st) (.num (b.next st)) ∨ w = .set (.indexed st) (.num (b.next st)))) ∨
      (b.bytes st ≠ m.bytes st ∧ w = .set (.bytes st) (.num (b.bytes st)))) := by
  simp only [counters, mem_flatMap, Stream.mem_all, mem_append]
  refine exists_congr fun st ↦ and_congr_right fun _ ↦ or_congr ?_ ?_
  · split <;> simp_all [setHead]
  · split <;> simp_all

variable {k : Key}

/-- A key the counters do not write holds what the records of the draft leave. -/
theorem disk_of_not_mem (h : ∀ w ∈ b.counters s.mem, w.key ≠ k) :
    b.disk s k = apply s.disk b.batch k := by
  rw [disk, apply_append, apply_eq_of_forall_ne h]

/-- Records are not touched by the counters. -/
theorem disk_of_not_counter (hk : k.isCounter = false) : b.disk s k = apply s.disk b.batch k := by
  refine disk_of_not_mem fun w hw heq ↦ ?_
  obtain ⟨st, -, ⟨-, rfl | rfl⟩ | ⟨-, rfl⟩⟩ := mem_counters.mp hw <;>
  · rw [← heq] at hk
    cases hk

/-- Counters are not touched by the records. -/
theorem disk_counter_of_not_mem (hk : k.isCounter)
    (h : ∀ w ∈ b.counters s.mem, w.key ≠ k) : b.disk s k = s.disk k := by
  rw [disk_of_not_mem h]
  refine apply_eq_of_forall_ne fun w hw heq ↦ ?_
  rw [← heq, b.not_counter w hw] at hk
  cases hk

/-- A counter the draft writes, unless it stays the same. -/
theorem disk_counter {v : Val} {P : Prop} [Decidable P] (hk : k.isCounter)
    (hmem : ¬ P → Write.set k v ∈ b.counters s.mem)
    (honly : ∀ w ∈ b.counters s.mem, w.key = k → w = .set k v ∧ ¬ P) :
    b.disk s k = if P then s.disk k else some v := by
  rw [disk, apply_append, apply_eq_ite hmem honly, ite_not, apply_eq_of_forall_ne]
  intro w hw heq
  rw [← heq, b.not_counter w hw] at hk
  cases hk

theorem disk_head (hfix : st.isFixed) : b.disk s (.head st) =
    if b.next st = s.mem.next st then s.disk (.head st) else some (.num (b.next st)) := by
  refine disk_counter rfl (fun hne ↦ mem_counters.mpr ⟨st, hfix, .inl ⟨hne, .inl rfl⟩⟩) fun w hw heq ↦ ?_
  obtain ⟨st', -, ⟨hne, rfl | rfl⟩ | ⟨-, rfl⟩⟩ := mem_counters.mp hw <;> cases heq
  exact ⟨rfl, hne⟩

theorem disk_indexed (hfix : st.isFixed) : b.disk s (.indexed st) =
    if b.next st = s.mem.next st then s.disk (.indexed st) else some (.num (b.next st)) := by
  refine disk_counter rfl (fun hne ↦ mem_counters.mpr ⟨st, hfix, .inl ⟨hne, .inr rfl⟩⟩) fun w hw heq ↦ ?_
  obtain ⟨st', -, ⟨hne, rfl | rfl⟩ | ⟨-, rfl⟩⟩ := mem_counters.mp hw <;> cases heq
  exact ⟨rfl, hne⟩

theorem disk_bytes (hfix : st.isFixed) : b.disk s (.bytes st) =
    if b.bytes st = s.mem.bytes st then s.disk (.bytes st) else some (.num (b.bytes st)) := by
  refine disk_counter rfl (fun hne ↦ mem_counters.mpr ⟨st, hfix, .inr ⟨hne, rfl⟩⟩) fun w hw heq ↦ ?_
  obtain ⟨st', -, ⟨-, rfl | rfl⟩ | ⟨hne, rfl⟩⟩ := mem_counters.mp hw <;> cases heq
  exact ⟨rfl, hne⟩

theorem disk_hwm (child : String) : b.disk s (.hwm child st) = s.disk (.hwm child st) := by
  refine disk_counter_of_not_mem rfl fun w hw heq ↦ ?_
  obtain ⟨st', -, ⟨-, rfl | rfl⟩ | ⟨-, rfl⟩⟩ := mem_counters.mp hw <;> cases heq

/-- What is published with the draft agrees with the disk it leaves. -/
theorem agrees (b : Draft) (s : Store) :
    Memory.Agrees { s.mem with next := b.next, bytes := b.bytes } (b.disk s) where
  next_eq st hfix := by
    show b.next st = _
    by_cases hsame : b.next st = s.mem.next st
    · have hdisk : b.disk s (.head st) = s.disk (.head st) := by rw [disk_head hfix, if_pos hsame]
      rw [hsame, readU64_congr hdisk, s.agrees.next_eq st hfix]
    · rw [readU64_of_num (by rw [disk_head hfix, if_neg hsame])]
  next_pos := b.next_pos
  next_other := b.next_other
  bytes_eq st hfix := by
    show b.bytes st = _
    by_cases hsame : b.bytes st = s.mem.bytes st
    · have hdisk : b.disk s (.bytes st) = s.disk (.bytes st) := by
        rw [disk_bytes hfix, if_pos hsame]
      rw [hsame, readU64_congr hdisk, s.agrees.bytes_eq st hfix]
    · rw [readU64_of_num (by rw [disk_bytes hfix, if_neg hsame])]
  hwms_eq k v hk := (readU64_congr (disk_hwm k.child) 0).trans (s.agrees.hwms_eq k v hk)

end Draft

/-- Write a draft as one synced batch and publish what it leaves. -/
def Store.commit (s : Store) (b : Draft) : Store where
  disk := b.disk s
  mem := { s.mem with next := b.next, bytes := b.bytes }
  agrees := b.agrees s

end Colca
