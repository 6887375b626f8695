import Mathlib.Tactic

/-!
# Loops over lists

A loop takes the elements of a list one after the other. What a reflexive and transitive relation
says of each step it says of the loop, and each element is taken in a state in between.

## Main results

* `foldl_rel`: a relation kept by every step is kept by the loop
* `foldl_at`: the state in which an element is taken
* `foldl_invariant`, `foldlM_invariant`: invariants of loops
-/

set_option autoImplicit false

namespace Folding

variable {α σ : Type} {step : σ → α → σ} {r : σ → σ → Prop} {l : List α} {s : σ} {x : α}

theorem foldl_rel (hrefl : ∀ s, r s s) (htrans : ∀ {s t u}, r s t → r t u → r s u)
    (hstep : ∀ s, ∀ x ∈ l, r s (step s x)) : r s (l.foldl step s) := by
  induction l generalizing s with
  | nil => exact hrefl s
  | cons x l ih =>
    exact htrans (hstep s x List.mem_cons_self)
      (ih fun s y hy => hstep s y (List.mem_cons_of_mem x hy))

/-- **Each element is taken** in a state that the loop reaches and goes on from. -/
theorem foldl_at (hrefl : ∀ s, r s s) (htrans : ∀ {s t u}, r s t → r t u → r s u)
    (hstep : ∀ s, ∀ x ∈ l, r s (step s x)) (hx : x ∈ l) :
    ∃ t, r s t ∧ r (step t x) (l.foldl step s) := by
  induction l generalizing s with
  | nil => cases hx
  | cons y l ih =>
    have hrest : ∀ s, ∀ x ∈ l, r s (step s x) := fun s x hx => hstep s x (List.mem_cons_of_mem y hx)
    rcases List.mem_cons.mp hx with rfl | hx
    · exact ⟨s, hrefl s, foldl_rel hrefl htrans hrest⟩
    · obtain ⟨t, hbefore, hafter⟩ := ih (s := step s y) hrest hx
      exact ⟨t, htrans (hstep s y List.mem_cons_self) hbefore, hafter⟩

/-- An invariant that every step keeps holds at the end. -/
theorem foldl_invariant {I : σ → Prop} (hstep : ∀ s, ∀ x ∈ l, I s → I (step s x)) (hs : I s) :
    I (l.foldl step s) := by
  induction l generalizing s with
  | nil => exact hs
  | cons x l ih =>
    exact ih (fun s y hy => hstep s y (List.mem_cons_of_mem x hy)) (hstep s x List.mem_cons_self hs)

/-- The same for a loop that may stop. -/
theorem foldlM_invariant {step : σ → α → Option σ} {I : σ → Prop}
    (hstep : ∀ s, ∀ x ∈ l, I s → ∀ s' ∈ step s x, I s') (hs : I s) :
    ∀ s' ∈ l.foldlM step s, I s' := by
  induction l generalizing s with
  | nil =>
    intro s' h
    exact Option.some.inj h ▸ hs
  | cons x l ih =>
    intro s' h
    rw [List.foldlM_cons] at h
    obtain ⟨t, ht, h⟩ := Option.bind_eq_some_iff.mp h
    exact ih (fun s y hy => hstep s y (List.mem_cons_of_mem x hy))
      (hstep s x List.mem_cons_self hs t ht) s' h

end Folding
