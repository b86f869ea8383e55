import Colca.Lib.BoundedScan
import Colca.Store.Record

/-!
# A poll at the parent

`handleDownlink` on the commands stream. A poll arrives with the child's position, keeps the mount the
child has then, and reads on as the stream grows. What it crosses without finding a command for the child
it does not read again. It answers with the commands for the child's subtree in the child's own
coordinates, without those it refuses to forward, and with the position to ask from next.

The engine's classes of contracts come from a bundle outside the modelled code, so they are a parameter.
-/

namespace Colca.Downlink

open Uns OffsetLog

/-- The filter of `handleDownlink`: a command below the child's mount. -/
def forChild (classOf : String → Uns.Class) (mount : Path) (t : Topic) : Bool :=
  match parse t with
  | .error _ => false
  | .ok p => (classOf p.contract).isCommand && underMount p.path mount

/-- A command below the mount can be handed in the child's coordinates. -/
theorem mountStrip_isSome_of_forChild {classOf : String → Uns.Class} {mount : Path} {t : Topic}
    (h : forChild classOf mount t) : (mountStrip t mount).isSome := by
  unfold forChild at h
  split at h
  · cases h
  · rename_i p hp
    rw [Bool.and_eq_true] at h
    exact mountStrip_isSome hp h.2

/-- What a child asks with. -/
structure Request where
  after : ℕ
  max : ℕ
  confirm : Bool

/-- The page size of a request. -/
def pageLimit (max : ℕ) : ℕ := if max = 0 ∨ 500 < max then 200 else max

/-- A poll that the parent has not answered. -/
structure Poll where
  /-- The request it answers. -/
  id : ℕ
  /-- The first offset it has not read. -/
  after : ℕ
  limit : ℕ
  mount : Path
  /-- The child asks what waits now: the poll is not held. -/
  confirm : Bool
  deriving DecidableEq, Repr

/-- An answer to a poll. -/
structure Answer where
  id : ℕ
  records : List (ℕ × RecEnc)
  next : ℕ
  deriving DecidableEq, Repr

namespace Poll

/-- The poll of a request that arrives when the child has the mount. -/
def arrive (id : ℕ) (r : Request) (mount : Path) : Poll where
  id := id
  after := if r.after = 0 then 1 else r.after
  limit := pageLimit r.max
  mount := mount
  confirm := r.confirm

variable (classOf : String → Uns.Class) (l : OffsetLog RecEnc) (p : Poll)

/-- What the poll finds, and how far it read. -/
def read : List (ℕ × RecEnc) × ℕ := l.read p.after p.limit fun x ↦ forChild classOf p.mount x.2.topic

/-- There is no reason to answer yet: no command, no gap, and nobody who asks for what waits now. -/
def mayWait : Bool := (p.read classOf l).1.isEmpty && decide (l.lwm ≤ p.after) && !p.confirm

/-- Nothing to answer: read on from where the read ended. -/
def wait : Poll := { p with after := (p.read classOf l).2 }

/-- A record on the wire, in the child's coordinates; one that cannot be rewritten is never sent. -/
def strip (x : ℕ × RecEnc) : Option (ℕ × RecEnc) :=
  (mountStrip x.2.topic p.mount).map fun t ↦
    (x.1, { x.2 with
      topic := t, sourceLocalOnly := false, originOffset := 0, door := "", signalID := "" })

/-- The position after the answer, past a gap. -/
def next : ℕ :=
  if p.after < l.lwm ∧ (p.read classOf l).2 < l.lwm then l.lwm else (p.read classOf l).2

/-- The answer, without the commands whose forwarding is refused. -/
def answer (refused : ℕ × RecEnc → Bool) : Answer where
  id := p.id
  records := ((p.read classOf l).1.filter fun x ↦ !refused x).filterMap p.strip
  next := p.next classOf l

variable {classOf l p} {refused : ℕ × RecEnc → Bool} {x y : ℕ × RecEnc}

theorem strip_fst (h : p.strip x = some y) : y.1 = x.1 := by
  obtain ⟨t, -, rfl⟩ := Option.map_eq_some_iff.mp h
  rfl

theorem le_next (classOf : String → Uns.Class) (l : OffsetLog RecEnc) (p : Poll) :
    (p.read classOf l).2 ≤ p.next classOf l := by
  unfold next
  split <;> omega

theorem after_le_read (classOf : String → Uns.Class) (l : OffsetLog RecEnc) (p : Poll) :
    p.after ≤ (p.read classOf l).2 := le_read_next _ _ _ _

theorem read_le (h : p.after ≤ l.next) : (p.read classOf l).2 ≤ l.next := read_next_le h

theorem next_le (h : p.after ≤ l.next) : p.next classOf l ≤ l.next := by
  have hread : (p.read classOf l).2 ≤ l.next := read_le h
  have hlwm := l.lwm_le_next
  unfold next
  split <;> omega

/-- A poll that goes on waiting crossed no command for the child. -/
theorem le_of_mayWait (h : p.mayWait classOf l) (hx : x ∈ l.entries)
    (hfor : forChild classOf p.mount x.2.topic) (hle : p.after ≤ x.1) : (p.read classOf l).2 ≤ x.1 := by
  simp only [mayWait, Bool.and_eq_true, List.isEmpty_iff] at h
  by_contra hlt
  have hmem : x ∈ (p.read classOf l).1 := mem_read.mpr ⟨hx, hle, not_le.mp hlt, hfor⟩
  rw [h.1.1] at hmem
  cases hmem

theorem mem_answer : y ∈ (p.answer classOf l refused).records ↔
    ∃ x ∈ l.entries, (p.after ≤ x.1 ∧ x.1 < (p.read classOf l).2) ∧
      forChild classOf p.mount x.2.topic ∧ refused x = false ∧ p.strip x = some y := by
  simp only [answer, List.mem_filterMap, List.mem_filter, Bool.not_eq_true']
  constructor
  · rintro ⟨x, ⟨hx, hr⟩, hs⟩
    obtain ⟨hx, hle, hlt, hfor⟩ := mem_read.mp hx
    exact ⟨x, hx, ⟨hle, hlt⟩, hfor, hr, hs⟩
  · rintro ⟨x, hx, ⟨hle, hlt⟩, hfor, hr, hs⟩
    exact ⟨x, ⟨mem_read.mpr ⟨hx, hle, hlt, hfor⟩, hr⟩, hs⟩

/-- What is for the child up to where an answer ends was read. -/
theorem mem_read_of_lt_next (hx : x ∈ l.entries) (hle : p.after ≤ x.1) (hlt : x.1 < p.next classOf l)
    (hfor : forChild classOf p.mount x.2.topic) : x ∈ (p.read classOf l).1 := by
  refine mem_read.mpr ⟨hx, hle, ?_, hfor⟩
  show x.1 < (p.read classOf l).2
  have hlwm := (l.bounds x hx).1
  unfold next at hlt
  split at hlt <;> omega

/-- **An answer skips nothing**: a command for the child up to where it ends is in it, or was refused. -/
theorem exists_mem_answer (hx : x ∈ l.entries) (hle : p.after ≤ x.1) (hlt : x.1 < p.next classOf l)
    (hfor : forChild classOf p.mount x.2.topic) (hr : refused x = false) :
    ∃ y ∈ (p.answer classOf l refused).records, y.1 = x.1 := by
  obtain ⟨-, -, hread, -⟩ := mem_read.mp (mem_read_of_lt_next hx hle hlt hfor)
  obtain ⟨t, ht⟩ := Option.isSome_iff_exists.mp (mountStrip_isSome_of_forChild hfor)
  obtain ⟨y, hy⟩ : ∃ y, p.strip x = some y := by
    rw [strip, ht]
    exact ⟨_, rfl⟩
  exact ⟨y, mem_answer.mpr ⟨x, hx, ⟨hle, hread⟩, hfor, hr, hy⟩, strip_fst hy⟩

theorem answer_increasing (classOf : String → Uns.Class) (l : OffsetLog RecEnc) (p : Poll)
    (refused : ℕ × RecEnc → Bool) : (p.answer classOf l refused).records.Pairwise (·.1 < ·.1) := by
  refine List.pairwise_filterMap.mpr (((read_increasing _ _ _ _).filter _).imp ?_)
  intro x z hxz y hy w hw
  rw [strip_fst hy, strip_fst hw]
  exact hxz

end Poll

/-! ### Polls and answers while the stream changes -/

/-- What appends and retention do to a stream. -/
structure ParentMoves (l l' : OffsetLog RecEnc) : Prop extends l.Evolves l' where
  lwm_le : l.lwm ≤ l'.lwm
  kept : ∀ x ∈ l.entries, x.1 < l'.lwm ∨ x ∈ l'.entries

theorem ParentMoves.refl (l : OffsetLog RecEnc) : ParentMoves l l :=
  ⟨.refl l, le_rfl, fun _ hx ↦ .inr hx⟩

theorem parentMoves_append (l : OffsetLog RecEnc) (e : RecEnc) : ParentMoves l (l.append e) where
  toEvolves := evolves_append l e
  lwm_le := le_rfl
  kept _ hx := .inr (List.mem_append_left _ hx)

theorem parentMoves_prune (l : OffsetLog RecEnc) (upTo : ℕ) : ParentMoves l (l.prune upTo) where
  toEvolves := evolves_prune l upTo
  lwm_le := le_max_left _ _
  kept x hx := by
    rcases lt_or_ge x.1 (l.prune upTo).lwm with hlt | hge
    · exact .inl hlt
    · exact .inr (List.mem_filter.mpr ⟨hx, decide_eq_true hge⟩)

theorem ParentMoves.trans {a b c : OffsetLog RecEnc} (h : ParentMoves a b) (h' : ParentMoves b c) :
    ParentMoves a c where
  next_le := h.next_le.trans h'.next_le
  retained x hx := (h'.retained x hx).elim (h.retained x) fun hle ↦ .inr (h.next_le.trans hle)
  lwm_le := h.lwm_le.trans h'.lwm_le
  kept x hx := (h.kept x hx).elim (fun hlt ↦ .inl (hlt.trans_le h'.lwm_le)) (h'.kept x)

/-- A poll of a child at position `q` has crossed nothing for it. -/
structure Crossed (classOf : String → Uns.Class) (l : OffsetLog RecEnc) (q : ℕ) (p : Poll) : Prop where
  le_after : q ≤ p.after
  after_le : p.after ≤ l.next
  nothing : ∀ x ∈ l.entries, forChild classOf p.mount x.2.topic → q ≤ x.1 → p.after ≤ x.1

/-- **An answer read from `q` on**: all that is below the mount up to where it ends, in order. -/
structure Page (classOf : String → Uns.Class) (mount : Path) (l : OffsetLog RecEnc) (withheld : List ℕ)
    (q : ℕ) (a : Answer) : Prop where
  increasing : a.records.Pairwise (·.1 < ·.1)
  bounds : ∀ y ∈ a.records, q ≤ y.1 ∧ y.1 < a.next
  next_le : a.next ≤ l.next
  covers : ∀ x ∈ l.entries, forChild classOf mount x.2.topic → q ≤ x.1 → x.1 < a.next →
    (∃ y ∈ a.records, y.1 = x.1) ∨ x.1 ∈ withheld
  /-- What is handed is a command below the mount, as long as the parent has it. -/
  real : ∀ y ∈ a.records, y.1 < l.lwm ∨
    ∃ x ∈ l.entries, x.1 = y.1 ∧ forChild classOf mount x.2.topic

variable {classOf : String → Uns.Class} {l l' : OffsetLog RecEnc} {q : ℕ} {p : Poll} {mount : Path}
  {withheld withheld' : List ℕ} {a : Answer}

theorem crossed_arrive {id : ℕ} {r : Request} (hone : 1 ≤ r.after) (hle : r.after ≤ l.next) :
    Crossed classOf l r.after (.arrive id r mount) := by
  have hafter : (Poll.arrive id r mount).after = r.after := if_neg (by omega)
  exact ⟨hafter.ge, hafter.trans_le hle, fun _ _ _ h ↦ hafter.trans_le h⟩

theorem Crossed.moves (h : Crossed classOf l q p) (hm : ParentMoves l l') : Crossed classOf l' q p where
  le_after := h.le_after
  after_le := h.after_le.trans hm.next_le
  nothing x hx hfor hle := by
    rcases hm.retained x hx with hx | hnew
    · exact h.nothing x hx hfor hle
    · exact h.after_le.trans hnew

theorem Crossed.wait (h : Crossed classOf l q p) (hwait : p.mayWait classOf l) :
    Crossed classOf l q (p.wait classOf l) where
  le_after := h.le_after.trans (Poll.after_le_read _ _ _)
  after_le := Poll.read_le h.after_le
  nothing x hx hfor hle := Poll.le_of_mayWait hwait hx hfor (h.nothing x hx hfor hle)

theorem Crossed.answer (h : Crossed classOf l q p) (refused : ℕ × RecEnc → Bool)
    (hw : ∀ x ∈ (p.read classOf l).1, refused x = true → x.1 ∈ withheld) :
    Page classOf p.mount l withheld q (p.answer classOf l refused) where
  increasing := Poll.answer_increasing _ _ _ _
  bounds y hy := by
    obtain ⟨x, -, ⟨hle, hlt⟩, -, -, hs⟩ := Poll.mem_answer.mp hy
    rw [Poll.strip_fst hs]
    exact ⟨h.le_after.trans hle, hlt.trans_le (Poll.le_next _ _ _)⟩
  next_le := Poll.next_le h.after_le
  covers x hx hfor hle hlt := by
    have hafter := h.nothing x hx hfor hle
    cases hr : refused x with
    | false => exact .inl (Poll.exists_mem_answer hx hafter hlt hfor hr)
    | true => exact .inr (hw x (Poll.mem_read_of_lt_next hx hafter hlt hfor) hr)
  real y hy := by
    obtain ⟨x, hx, -, hfor, -, hs⟩ := Poll.mem_answer.mp hy
    exact .inr ⟨x, hx, (Poll.strip_fst hs).symm, hfor⟩

theorem Page.moves (h : Page classOf mount l withheld q a) (hm : ParentMoves l l')
    (hw : ∀ o ∈ withheld, o ∈ withheld') : Page classOf mount l' withheld' q a :=
  { h with
    next_le := h.next_le.trans hm.next_le
    covers x hx hfor hle hlt :=
      (h.covers x (hm.mem_of_lt hx (hlt.trans_le h.next_le)) hfor hle hlt).imp_right (hw x.1)
    real y hy := by
      rcases h.real y hy with hlt | ⟨x, hx, heq, hfor⟩
      · exact .inl (hlt.trans_le hm.lwm_le)
      · exact (hm.kept x hx).imp (fun hlt ↦ heq ▸ hlt) fun hx ↦ ⟨x, hx, heq, hfor⟩ }

end Colca.Downlink
