import Mathlib.Logic.Basic
import Mathlib.Data.Option.Basic

/-!
# Event-driven state machines, their runs, and invariants

A machine has one start state and a **partial** step: `step s e = none` says that the event `e`
cannot happen in the state `s`. All nondeterminism (which party moves, what the network does, which
choice the environment makes) sits in the event, so a machine is data and its runs can be evaluated.

## Reachability under a condition on the steps

`M.Reach C s` is "some run that starts at `M.start` ends in `s`, and **every** step of that run met
the condition `C`". The condition sees the state *before* the step and the event, never the state
after it. `M.Reachable` is the case of no condition.

* `Reach.invariant` is the one induction of this file: an invariant that holds at the start and is
  kept by every step meeting `C` holds in every state reached.
* `exists_reach` turns an evaluated run into a reachability proof; it is how a concrete run enters a
  theorem.
-/

/-- A machine driven by events; `step s e = none` when `e` cannot happen in `s`. -/
structure StateMachine (σ ε : Type*) where
  /-- The state every run starts in. -/
  start : σ
  /-- The state after an event, `none` when the event cannot happen. -/
  step : σ → ε → Option σ

/-- What holds of the elements of a list and of one more. -/
theorem forall_mem_concat {α : Type*} {P : α → Prop} {xs : List α} {x : α} (h : ∀ y ∈ xs, P y) (hx : P x) :
    ∀ y ∈ xs ++ [x], P y :=
  List.forall_mem_append.mpr ⟨h, List.forall_mem_singleton.mpr hx⟩

namespace StateMachine

variable {σ ε : Type*} (M : StateMachine σ ε)

/-- The states of runs all of whose steps met `C`. -/
inductive Reach (C : σ → ε → Prop) : σ → Prop
  | start : Reach C M.start
  | step {s s' : σ} {e : ε} : Reach C s → C s e → M.step s e = some s' → Reach C s'

/-- The states of all runs. -/
def Reachable (s : σ) : Prop := M.Reach (fun _ _ ↦ True) s

variable {M} {C : σ → ε → Prop}

/-- **The invariant rule.** What holds at the start and is kept by every step meeting `C` holds in
every state such a run reaches. -/
theorem Reach.invariant {I : σ → Prop} (h0 : I M.start)
    (hstep : ∀ s e s', I s → C s e → M.step s e = some s' → I s') {s : σ} (h : M.Reach C s) : I s := by
  induction h with
  | start => exact h0
  | step _ hC hs ih => exact hstep _ _ _ ih hC hs

/-- The invariant rule for runs under no condition. -/
theorem Reachable.invariant {I : σ → Prop} (h0 : I M.start)
    (hstep : ∀ s e s', I s → M.step s e = some s' → I s') {s : σ} (h : M.Reachable s) : I s :=
  Reach.invariant h0 (fun s e s' hI _ hs ↦ hstep s e s' hI hs) h

/-! ### Evaluated runs -/

variable (M) in
/-- Take the events in order from `s`; `none` as soon as one of them cannot happen or does not meet
`C`. -/
def runWithin (C : σ → ε → Prop) [∀ s e, Decidable (C s e)] : σ → List ε → Option σ
  | s, [] => some s
  | s, e :: es => if C s e then (M.step s e).bind (runWithin C · es) else none

theorem Reach.runWithin [∀ s e, Decidable (C s e)] {s s' : σ} {es : List ε} (h : M.Reach C s)
    (hrun : M.runWithin C s es = some s') : M.Reach C s' := by
  induction es generalizing s with
  | nil =>
    cases hrun
    exact h
  | cons e es ih =>
    rw [StateMachine.runWithin] at hrun
    split at hrun
    · rename_i hC
      obtain ⟨t, ht, hrun⟩ := Option.bind_eq_some_iff.mp hrun
      exact ih (h.step hC ht) hrun
    · cases hrun

variable (M) in
/-- A run from the start whose last state is evaluated to have the property `p` reaches such a state. -/
theorem exists_reach (C : σ → ε → Prop) [∀ s e, Decidable (C s e)] (es : List ε) (p : σ → Prop)
    [DecidablePred p] (h : (M.runWithin C M.start es).any (p ·) = true := by decide +kernel) :
    ∃ s, M.Reach C s ∧ p s := by
  obtain ⟨s, hrun, hp⟩ := (Option.any_eq_true _ _).mp h
  exact ⟨s, Reach.start.runWithin hrun, of_decide_eq_true hp⟩

variable (M) in
theorem exists_reachable (es : List ε) (p : σ → Prop) [DecidablePred p]
    (h : (M.runWithin (fun _ _ ↦ True) M.start es).any (p ·) = true := by decide +kernel) :
    ∃ s, M.Reachable s ∧ p s :=
  M.exists_reach _ es p h

end StateMachine
