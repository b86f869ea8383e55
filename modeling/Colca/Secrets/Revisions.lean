import Colca.Lib.StateMachine
import Mathlib.Data.Int.Notation
import Mathlib.Logic.Function.Basic

/-!
# Conditional writes of secrets

A secret is written under the revision a caller has read. In every run in which no secret is created a
second time (`writes_hit`), no two records of a secret carry one revision, so a call under a revision is
of the record it was read with. A deletion takes the count away with the record: a secret that is created
again starts at 1 again, and a write that waited meanwhile replaces a record its caller has never seen
(`created_again`).
-/

namespace Colca.Secrets

/-- `validateSegment`. -/
def validSegment (segment : List Char) : Bool :=
  segment ≠ [] && segment ≠ ['.'] && segment ≠ ['.', '.'] &&
    segment.all fun r ↦ r.isAlphanum || r = '-' || r = '_' || r = '.'

/-- `validateIdentity`. -/
def validIdentity (owner name : String) : Bool :=
  owner.utf8ByteSize ≤ 128 && validSegment owner.toList && name ≠ "" && name.utf8ByteSize ≤ 256 &&
    (name.toList.splitOn '/').all validSegment

/-- What the store keeps of a secret; the sealed text is of a type of its own. -/
structure Record (E : Type) where
  owner : String
  name : String
  envelope : E
  revision : UInt64
  expiresAt : Option ℤ
  updatedAt : ℤ
deriving DecidableEq

variable {E : Type}

/-- The key of a record: no two valid owners and names share one. -/
def Record.key (r : Record E) : String × String := (r.owner, r.name)

/-- The records under their keys and, to speak of runs, every record that was written. -/
structure Store (E : Type) where
  disk : String × String → Option (Record E) := fun _ ↦ none
  history : List (Record E) := []

inductive Error
  | invalid | corrupt | conflict | notFound | failed

/-- A call: what `Put` is given besides the owner, the name and the revision it expects, or a `Delete`.
The write of the call succeeds or fails. -/
structure Call (E : Type) where
  owner : String
  name : String
  expected : Option UInt64 := none
  put : Option (E × Option ℤ × ℤ)
  ok : Bool := true

section Calls

variable (sealed : E → Bool) (s : Store E) (owner name : String)

/-- `Store.get`. -/
def Store.get : Except Error (Option (Record E)) :=
  match s.disk (owner, name) with
  | none => .ok none
  | some r => if r.key ≠ (owner, name) ∨ r.revision = 0 then .error .corrupt else .ok (some r)

/-- The record is written. -/
def Store.write (r : Record E) : Store E := ⟨Function.update s.disk r.key (some r), s.history ++ [r]⟩

/-- The check of the revision `Put` is given: 0 is expected of a secret that is not there. -/
def expects (expected : Option UInt64) (current : Option (Record E)) : Bool :=
  match expected, current with
  | none, _ => true
  | some v, none => v = 0
  | some v, some r => v ≠ 0 && r.revision = v

/-- `Store.Put`. -/
def Store.put (expected : Option UInt64) (ok : Bool) (envelope : E) (expiresAt : Option ℤ) (now : ℤ) :
    Except Error (Store E) :=
  if validIdentity owner name && sealed envelope then
    match s.get owner name with
    | .error e => .error e
    | .ok current =>
      if expects expected current then
        if ok then .ok (s.write ⟨owner, name, envelope, current.elim 1 (·.revision + 1), expiresAt, now⟩)
        else .error .failed
      else .error .conflict
  else .error .invalid

/-- `Store.Delete`. -/
def Store.delete (expected : Option UInt64) (ok : Bool) : Except Error (Store E) :=
  if validIdentity owner name then
    match s.get owner name with
    | .error e => .error e
    | .ok none => .error .notFound
    | .ok (some r) =>
      if expected = none ∨ expected = some r.revision then
        if ok then .ok { s with disk := Function.update s.disk (owner, name) none } else .error .failed
      else .error .conflict
  else .error .invalid

def Store.call (c : Call E) : Except Error (Store E) :=
  match c.put with
  | some (envelope, expiresAt, now) => s.put sealed c.owner c.name c.expected c.ok envelope expiresAt now
  | none => s.delete c.owner c.name c.expected c.ok

end Calls

/-- The calls one after the other; one that fails changes nothing. -/
def system (sealed : E → Bool) : StateMachine (Store E) (Call E) :=
  ⟨{}, fun s c ↦ (s.call sealed c).toOption⟩

/-- No two records of a secret carry one revision. -/
def Store.Distinct (s : Store E) : Prop :=
  ∀ r ∈ s.history, ∀ r' ∈ s.history, r.key = r'.key → r.revision = r'.revision → r = r'

/-- **A revision names one record of a secret, and a call under it is of that record**. -/
structure Store.Hits (sealed : E → Bool) (s : Store E) : Prop where
  distinct : s.Distinct
  hits : ∀ (c : Call E) (s' : Store E), s.call sealed c = .ok s' → ∀ v ≠ 0, c.expected = some v →
    ∀ r ∈ s.history, r.key = (c.owner, c.name) → r.revision = v → s.disk (c.owner, c.name) = some r

/-- No secret is created that was there before. -/
def Fresh (s : Store E) (c : Call E) : Prop :=
  c.put.isSome → (s.disk (c.owner, c.name)).isNone → ∀ r ∈ s.history, r.key ≠ (c.owner, c.name)

variable {sealed : E → Bool} {s s' : Store E} {c : Call E}

theorem disk_of_get {owner name : String} {current : Option (Record E)}
    (h : s.get owner name = .ok current) :
    s.disk (owner, name) = current ∧ ∀ r, current = some r → r.revision ≠ 0 := by
  grind [Store.get]

/-- What a call that goes ahead finds and does. -/
theorem call_spec (h : s.call sealed c = .ok s') :
    (∀ r, s.disk (c.owner, c.name) = some r → r.revision ≠ 0) ∧
    (∀ v ≠ 0, c.expected = some v → ∃ r, s.disk (c.owner, c.name) = some r ∧ r.revision = v) ∧
    ((∃ r, c.put.isSome ∧ r.key = (c.owner, c.name) ∧
        r.revision = (s.disk (c.owner, c.name)).elim 1 (·.revision + 1) ∧ s' = s.write r) ∨
      s' = { s with disk := Function.update s.disk (c.owner, c.name) none }) := by
  unfold Store.call at h
  split at h
  · rename_i envelope expiresAt now hput
    obtain ⟨current, hget, hexp, rfl⟩ : ∃ current, s.get c.owner c.name = .ok current ∧
        expects c.expected current ∧
        s' = s.write ⟨c.owner, c.name, envelope, current.elim 1 (·.revision + 1), expiresAt, now⟩ := by
      grind [Store.put]
    obtain ⟨rfl, hpos⟩ := disk_of_get hget
    refine ⟨hpos, fun v h0 hv ↦ ?_, .inl ⟨_, by rw [hput]; rfl, rfl, rfl, rfl⟩⟩
    rw [hv] at hexp
    cases hd : s.disk (c.owner, c.name) <;> simp_all [expects]
  · obtain ⟨r, hget, hexp, rfl⟩ : ∃ r, s.get c.owner c.name = .ok (some r) ∧
        (c.expected = none ∨ c.expected = some r.revision) ∧
        s' = { s with disk := Function.update s.disk (c.owner, c.name) none } := by
      grind [Store.delete]
    obtain ⟨hdisk, hpos⟩ := disk_of_get hget
    rw [hdisk]
    exact ⟨hpos, by grind, .inr rfl⟩

/-- The record on disk is the last one of its secret, unless its number has wrapped to 0. -/
structure Inv (s : Store E) : Prop where
  distinct : s.Distinct
  current : ∀ k r, s.disk k = some r → r ∈ s.history ∧ r.key = k ∧
    (r.revision ≠ 0 → ∀ r' ∈ s.history, r'.key = k → r'.revision ≠ 0 ∧ r'.revision ≤ r.revision)

/-- A record above all of its secret, or numbered 0 when none of them is, is written. -/
theorem Inv.write (h : Inv s) {r : Record E} (hnew : ∀ r' ∈ s.history, r'.key = r.key →
    r'.revision ≠ 0 ∧ (r.revision ≠ 0 → r'.revision < r.revision)) : Inv (s.write r) where
  distinct := by
    have := h.distinct
    grind [Store.write, Store.Distinct]
  current k c hc := by
    rcases eq_or_ne k r.key with rfl | hk
    · obtain rfl : r = c := by simpa [Store.write] using hc
      refine ⟨List.mem_append_right _ (List.mem_singleton_self r), rfl, fun h0 ↦
        forall_mem_concat (fun r' hr' hk ↦ ?_) fun _ ↦ ⟨h0, UInt64.le_refl _⟩⟩
      obtain ⟨h0', hlt⟩ := hnew r' hr' hk
      exact ⟨h0', UInt64.le_of_lt (hlt h0)⟩
    · obtain ⟨hmem, hkey, hlast⟩ := h.current k c (by simpa [Store.write, hk] using hc)
      exact ⟨List.mem_append_left _ hmem, hkey, fun h0 ↦
        forall_mem_concat (hlast h0) fun heq ↦ absurd heq.symm hk⟩

theorem Inv.call (h : Inv s) (hC : Fresh s c) (hs : s.call sealed c = .ok s') : Inv s' := by
  obtain ⟨hpos, -, ⟨r, hput, hkey, hrev, rfl⟩ | rfl⟩ := call_spec hs
  · refine h.write fun r' hr' hk ↦ ?_
    rw [hkey] at hk
    cases hd : s.disk (c.owner, c.name) with
    | none => exact absurd hk (hC hput (by rw [hd]; rfl) r' hr')
    | some r₀ =>
      obtain ⟨h0, hle⟩ := (h.current _ r₀ hd).2.2 (hpos r₀ hd) r' hr' hk
      rw [hrev, hd]
      exact ⟨h0, fun hne ↦ by grind⟩
  · refine ⟨h.distinct, fun k r hr ↦ h.current k r ?_⟩
    rcases eq_or_ne k (c.owner, c.name) with rfl | hk
    · simp at hr
    · simpa [hk] using hr

theorem Inv.hits (h : Inv s) : s.Hits sealed := by
  refine ⟨h.distinct, fun c s' hs v h0 hv r hr hkey hrev ↦ ?_⟩
  obtain ⟨r', hdisk, hrev'⟩ := (call_spec hs).2.1 v h0 hv
  obtain ⟨hmem, hkey', -⟩ := h.current _ r' hdisk
  rw [hdisk, h.distinct r hr r' hmem (hkey.trans hkey'.symm) (hrev.trans hrev'.symm)]

/-- **In every run in which no secret is created again** a call under a revision is of the record it was
read with. -/
theorem writes_hit (sealed : E → Bool) (s : Store E) (h : (system sealed).Reach Fresh s) :
    s.Hits sealed := by
  have hinv : Inv s := h.invariant ⟨fun _ h ↦ absurd h List.not_mem_nil, fun _ _ h ↦ by cases h⟩
    fun s c s' hi hC hs ↦ by
      cases hcall : s.call sealed c with
      | error e => simp [system, hcall, Except.toOption] at hs
      | ok s₁ =>
        simp [system, hcall, Except.toOption] at hs
        exact hs ▸ hi.call hC hcall
  exact hinv.hits

instance (s : Store E) (c : Call E) : Decidable (Fresh s c) := inferInstanceAs (Decidable (_ → _))

theorem writes_hit_update : ∃ s : Store Bool, (system fun _ ↦ true).Reach Fresh s ∧
    s.history.map (·.revision) = [1, 2] ∧ s.Hits fun _ ↦ true := by
  obtain ⟨s, hs, hp⟩ := (system fun _ : Bool ↦ true).exists_reach Fresh
    [⟨"hmi", "plc/key", some 0, some (true, none, 0), true⟩,
      ⟨"hmi", "plc/key", some 1, some (false, none, 1), true⟩] (fun s ↦ s.history.map (·.revision) = [1, 2])
  exact ⟨s, hs, hp, writes_hit _ s hs⟩

/-- **A write under the revision of a secret that was deleted replaces the one that was created since.** -/
theorem created_again : ¬ ∀ s : Store Bool, (system fun _ ↦ true).Reachable s → s.Hits fun _ ↦ true := by
  intro hall
  obtain ⟨s, hs, hp⟩ := (system fun _ : Bool ↦ true).exists_reachable
    [⟨"hmi", "key", none, some (true, none, 0), true⟩, ⟨"hmi", "key", none, none, true⟩,
      ⟨"hmi", "key", none, some (false, none, 1), true⟩]
    (fun s ↦ s.history = [⟨"hmi", "key", true, 1, none, 0⟩, ⟨"hmi", "key", false, 1, none, 1⟩])
  have hone := (hall s hs).distinct
  rw [Store.Distinct, hp] at hone
  exact absurd (hone _ List.mem_cons_self _ (List.mem_cons_of_mem _ List.mem_cons_self) rfl rfl) (by decide)

end Colca.Secrets
