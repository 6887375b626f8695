import Mathlib.Tactic

/-!
# Reachable states of a deterministic transition system

A system takes a step for each event; a step may be undefined. `allowed` restricts the events
that may be taken in a state, so that one system serves both for all its runs and for the runs
that meet a condition at every step.

## Main definitions

* `Reachable start allowed step s`: some run of allowed events from a start state ends in `s`
* `exec allowed step s es`: the executable run of the events `es`

## Main results

* `Reachable.invariant`: what holds at the start and survives every allowed step holds in every
  reachable state
* `Reachable.of_exec`, `Reachable.of_exec_all`: an executed run witnesses reachability
* `Reachable.mono`: more allowed events reach more states
-/

set_option autoImplicit false

namespace Transition

variable {σ ε : Type} {start : σ → Prop} {allowed : σ → ε → Prop} {step : σ → ε → Option σ}

/-- The states at the end of a run of allowed events from a start state. -/
inductive Reachable (start : σ → Prop) (allowed : σ → ε → Prop) (step : σ → ε → Option σ) :
    σ → Prop
  | start {s : σ} (h : start s) : Reachable start allowed step s
  | step {s s' : σ} {e : ε} (h : Reachable start allowed step s) (ha : allowed s e)
      (hs : step s e = some s') : Reachable start allowed step s'

/-- **The invariant rule.** -/
theorem Reachable.invariant {I : σ → Prop} {s : σ} (h : Reachable start allowed step s)
    (hstart : ∀ s, start s → I s)
    (hstep : ∀ s e s', I s → allowed s e → step s e = some s' → I s') : I s := by
  induction h with
  | start h => exact hstart _ h
  | step _ ha hs ih => exact hstep _ _ _ ih ha hs

theorem Reachable.mono {allowed' : σ → ε → Prop} {s : σ} (h : Reachable start allowed step s)
    (ha : ∀ s e, allowed s e → allowed' s e) : Reachable start allowed' step s := by
  induction h with
  | start h => exact .start h
  | step _ hal hs ih => exact .step ih (ha _ _ hal) hs

/-- A run continued from a reachable state. -/
theorem Reachable.trans {s s' : σ} (h : Reachable start allowed step s)
    (h' : Reachable (· = s) allowed step s') : Reachable start allowed step s' := by
  induction h' with
  | start h' => exact h' ▸ h
  | step _ ha hs ih => exact .step ih ha hs

/-- The run of the events `es`, undefined where an event is not allowed or has no step. -/
def exec (allowed : σ → ε → Prop) [∀ s e, Decidable (allowed s e)] (step : σ → ε → Option σ) :
    σ → List ε → Option σ
  | s, [] => some s
  | s, e :: es => if allowed s e then (step s e).bind fun s' => exec allowed step s' es else none

theorem Reachable.of_exec [∀ s e, Decidable (allowed s e)] {s s' : σ} {es : List ε}
    (h : Reachable start allowed step s) (he : exec allowed step s es = some s') :
    Reachable start allowed step s' := by
  induction es generalizing s with
  | nil =>
    cases he
    exact h
  | cons e es ih =>
    unfold exec at he
    split at he
    · rename_i ha
      obtain ⟨t, ht, hrest⟩ := Option.bind_eq_some_iff.mp he
      exact ih (.step h ha ht) hrest
    · cases he

/-- An executed run of events that all satisfy a further condition. -/
theorem Reachable.of_exec_all [∀ s e, Decidable (allowed s e)] {q : ε → Prop} {s s' : σ} {es : List ε}
    (hq : ∀ e ∈ es, q e) (h : Reachable start (fun s e => allowed s e ∧ q e) step s)
    (he : exec allowed step s es = some s') :
    Reachable start (fun s e => allowed s e ∧ q e) step s' := by
  induction es generalizing s with
  | nil =>
    cases he
    exact h
  | cons e es ih =>
    unfold exec at he
    split at he
    · rename_i ha
      obtain ⟨t, ht, hrest⟩ := Option.bind_eq_some_iff.mp he
      refine ih (fun e' he' => hq e' (List.mem_cons_of_mem e he')) ?_ hrest
      exact .step h ⟨ha, hq e List.mem_cons_self⟩ ht
    · cases he

end Transition
