import Semalloc.Library.Multigraph

/-!
# Numbering the walks of a graph

Give each edge out of a vertex an offset, so that the edges reserve intervals that do not overlap:
the interval of an edge is as wide as the walks from its target need. Then the offsets along a walk
to a sink add up to a number that no other walk from the same vertex to a sink has.

## Main definitions

* `Numbered G offset width v`: the intervals of the edges out of `v` do not overlap and fit

## Main results

* `Walk.sum_lt`: the number of a walk is below the width of its start
* `Walk.eq_of_sum_eq`: two walks to sinks with the same number are the same
-/

set_option autoImplicit false

namespace Multigraph

variable {V E : Type} {G : Multigraph V E} {u v v' : V} {es es' : List E}
  {offset : E → ℕ} {width : V → ℕ} {room : V → ℕ}

/-- Each edge out of `v` reserves `room` for its target; the reserved intervals do not overlap and
fit in the width of `v`. -/
structure Numbered (G : Multigraph V E) (offset : E → ℕ) (width room : V → ℕ) (v : V) : Prop where
  apart : (G.out v).Pairwise fun e e' => offset e + room (G.target e) ≤ offset e'
  within : ∀ e ∈ G.out v, offset e + room (G.target e) ≤ width v

namespace Walk

section Numbers

variable (hnum : ∀ u, G.Numbered offset width room u)
  (hroom : ∀ u, 0 < room u ∧ width u ≤ room u)

include hnum hroom

/-- The number of a walk to a sink fits in the room reserved for its start. -/
theorem sum_lt_room (h : G.Walk u es v) (hv : G.IsSink v) : (es.map offset).sum < room u := by
  induction h with
  | nil v => exact (hroom v).1
  | @cons u v e es he _ ih =>
    have hrest := ih hv
    have hfit := (hnum u).within e he
    have hwidth := (hroom u).2
    rw [List.map_cons, List.sum_cons]
    omega

/-- **The number of a walk is below the width of its start**, unless the start is a sink. -/
theorem sum_lt (h : G.Walk u es v) (hv : G.IsSink v) (hu : ¬ G.IsSink u) :
    (es.map offset).sum < width u := by
  cases h with
  | nil => exact absurd hv hu
  | @cons _ _ e es he h =>
    have hrest := h.sum_lt_room hnum hroom hv
    have hfit := (hnum u).within e he
    rw [List.map_cons, List.sum_cons]
    omega

/-- **A walk to a sink is determined by its number.** -/
theorem eq_of_sum_eq (h : G.Walk u es v) (h' : G.Walk u es' v') (hv : G.IsSink v)
    (hv' : G.IsSink v') (hsum : (es.map offset).sum = (es'.map offset).sum) : es = es' := by
  induction h generalizing es' with
  | nil v => exact (h'.eq_nil_of_isSink hv).symm
  | @cons u v e es he hrest ih =>
    cases h' with
    | nil => exact absurd hv' (List.ne_nil_of_mem he)
    | @cons _ _ e' es' he' hrest' =>
      have hlt := hrest.sum_lt_room hnum hroom hv
      have hlt' := hrest'.sum_lt_room hnum hroom hv'
      rw [List.map_cons, List.map_cons, List.sum_cons, List.sum_cons] at hsum
      by_cases hee : e = e'
      · subst hee
        rw [ih hrest' hv (Nat.add_left_cancel hsum)]
      · -- the intervals of two different edges do not overlap
        let Apart : E → E → Prop := fun e e' => offset e + room (G.target e) ≤ offset e' ∨
          offset e' + room (G.target e') ≤ offset e
        have hsymm : Std.Symm Apart := ⟨fun _ _ => Or.symm⟩
        have hpair : (G.out u).Pairwise Apart := (hnum u).apart.imp Or.inl
        have hapart : Apart e e' := hpair.forall he he' hee
        simp only [Apart] at hapart
        omega

end Numbers

end Walk

end Multigraph
