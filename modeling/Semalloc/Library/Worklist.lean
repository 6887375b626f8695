import Mathlib.Data.List.Dedup
import Mathlib.Algebra.BigOperators.Group.List.Basic
import Mathlib.Logic.Relation
import Mathlib.Tactic

/-!
# Worklists

A worklist is gone through from its front; what is found at a node is put at its end, and nodes that
were visited before are passed over. The loop visits exactly the nodes that lie behind those it
starts from, each once, provided it may take enough steps.

## Main definitions

* `order`: the nodes in the order in which they are visited
* `loop`: a state carried along the visits
* `steps`: how many steps are enough

## Main results

* `loop_eq`: the loop is a fold over the visits
* `mem_order`: the nodes that are visited
* `order_before`: a node is visited after one that it was found at
-/

set_option autoImplicit false

namespace Worklist

variable {α σ : Type} [DecidableEq α] {succ : α → List α} {visit : σ → α → σ}
  {fuel : ℕ} {todo visited U : List α} {x y root : α}

/-- The loop over a worklist, for a bounded number of steps. -/
def loop (succ : α → List α) (visit : σ → α → σ) : ℕ → List α → List α → σ → σ
  | 0, _, _, s => s
  | _ + 1, [], _, s => s
  | fuel + 1, x :: todo, visited, s =>
    if x ∈ visited then loop succ visit fuel todo visited s
    else loop succ visit fuel (todo ++ succ x) (visited ++ [x]) (visit s x)

/-- The nodes that the loop visits, in order. -/
def order (succ : α → List α) : ℕ → List α → List α → List α
  | 0, _, _ => []
  | _ + 1, [], _ => []
  | fuel + 1, x :: todo, visited =>
    if x ∈ visited then order succ fuel todo visited
    else x :: order succ fuel (todo ++ succ x) (visited ++ [x])

/-- **The loop is a fold** over the visits. -/
theorem loop_eq (s : σ) :
    loop succ visit fuel todo visited s = (order succ fuel todo visited).foldl visit s := by
  induction fuel generalizing todo visited s with
  | zero => rfl
  | succ fuel ih =>
    cases todo with
    | nil => rfl
    | cons x todo =>
      unfold loop order
      split
      · exact ih s
      · exact ih (visit s x)

/-- What the nodes of `U` that were not visited would still put on the worklist. -/
def pending (succ : α → List α) (U visited : List α) : ℕ :=
  ((U.filter (· ∉ visited)).map fun u => (succ u).length).sum

/-- Enough steps to visit the nodes of `U` from a worklist of one. -/
def steps (succ : α → List α) (U : List α) : ℕ := pending succ U.dedup [] + 2

/-- A visit uses up what its node puts on the worklist. -/
theorem pending_visit (succ : α → List α) (hU : U.Nodup) (hx : x ∈ U) (hnew : x ∉ visited) :
    pending succ U (visited ++ [x]) + (succ x).length = pending succ U visited := by
  induction U with
  | nil => cases hx
  | cons u U ih =>
    obtain ⟨hnot, hU⟩ := List.nodup_cons.mp hU
    unfold pending at ih ⊢
    by_cases hux : u = x
    · subst hux
      -- no other node of the list is the visited one
      have hsame : U.filter (· ∉ visited ++ [u]) = U.filter (· ∉ visited) := by
        refine List.filter_congr fun v hv => ?_
        have hne : v ≠ u := fun h => hnot (h ▸ hv)
        simp [hne]
      rw [List.filter_cons_of_neg (by simp), List.filter_cons_of_pos (by simpa using hnew), hsame,
        List.map_cons, List.sum_cons]
      omega
    · have hx' : x ∈ U := (List.mem_cons.mp hx).resolve_left fun h => hux h.symm
      by_cases hu : u ∈ visited
      · rw [List.filter_cons_of_neg (by simp [hu]), List.filter_cons_of_neg (by simpa using hu)]
        exact ih hU hx'
      · rw [List.filter_cons_of_pos (by simp [hu, hux]), List.filter_cons_of_pos (by simpa using hu),
          List.map_cons, List.sum_cons, List.map_cons, List.sum_cons, add_assoc, ih hU hx']

/-- The nodes that are visited lie behind those the worklist starts with. -/
theorem order_sound (h : y ∈ order succ fuel todo visited) :
    ∃ x ∈ todo, Relation.ReflTransGen (fun a b => b ∈ succ a) x y := by
  induction fuel generalizing todo visited with
  | zero => cases h
  | succ fuel ih =>
    cases todo with
    | nil => cases h
    | cons x todo =>
      unfold order at h
      split at h
      · obtain ⟨z, hz, hreach⟩ := ih h
        exact ⟨z, List.mem_cons_of_mem _ hz, hreach⟩
      · rcases List.mem_cons.mp h with rfl | h
        · exact ⟨y, List.mem_cons_self, .refl⟩
        · obtain ⟨z, hz, hreach⟩ := ih h
          rcases List.mem_append.mp hz with hz | hz
          · exact ⟨z, List.mem_cons_of_mem _ hz, hreach⟩
          · exact ⟨x, List.mem_cons_self, hreach.head hz⟩

/-- A node was on the worklist from the start, or was found at a node that was visited before it. -/
theorem order_before {before after : List α}
    (h : order succ fuel todo visited = before ++ y :: after) :
    y ∈ todo ∨ ∃ x ∈ before, y ∈ succ x := by
  induction fuel generalizing todo visited before with
  | zero => simp [order] at h
  | succ fuel ih =>
    cases todo with
    | nil => simp [order] at h
    | cons x todo =>
      unfold order at h
      split at h
      · exact (ih h).imp_left (List.mem_cons_of_mem x)
      · cases before with
        | nil => exact .inl ((List.cons.inj h).1 ▸ List.mem_cons_self)
        | cons x' before =>
          obtain ⟨rfl, hrest⟩ := List.cons.inj h
          rcases ih hrest with hy | ⟨z, hz, hy⟩
          · rcases List.mem_append.mp hy with hy | hy
            · exact .inl (List.mem_cons_of_mem _ hy)
            · exact .inr ⟨x, List.mem_cons_self, hy⟩
          · exact .inr ⟨z, List.mem_cons_of_mem _ hz, hy⟩

/-- Each node on the worklist is visited, and so is what is found at a node that is visited. -/
theorem order_complete (hnodup : U.Nodup) (hU : ∀ u ∈ U, ∀ v ∈ succ u, v ∈ U)
    (htodo : ∀ x ∈ todo, x ∈ U) (hfuel : todo.length + pending succ U visited < fuel) :
    (∀ x ∈ todo, x ∈ visited ∨ x ∈ order succ fuel todo visited) ∧
      ∀ u ∈ order succ fuel todo visited, ∀ v ∈ succ u,
        v ∈ visited ∨ v ∈ order succ fuel todo visited := by
  induction fuel generalizing todo visited with
  | zero => exact absurd hfuel (Nat.not_lt_zero _)
  | succ fuel ih =>
    cases todo with
    | nil => exact ⟨fun x hx => absurd hx List.not_mem_nil, fun u hu => by cases hu⟩
    | cons x todo =>
      rw [List.length_cons] at hfuel
      have hxU : x ∈ U := htodo x List.mem_cons_self
      unfold order
      split
      · rename_i hx
        obtain ⟨hon, hbehind⟩ :=
          @ih todo visited (fun y hy => htodo y (List.mem_cons_of_mem _ hy)) (by omega)
        refine ⟨fun y hy => ?_, hbehind⟩
        rcases List.mem_cons.mp hy with rfl | hy
        · exact .inl hx
        · exact hon y hy
      · rename_i hx
        have hpending := pending_visit succ hnodup hxU hx
        obtain ⟨hon, hbehind⟩ := @ih (todo ++ succ x) (visited ++ [x])
          (fun y hy => (List.mem_append.mp hy).elim
            (fun h => htodo y (List.mem_cons_of_mem _ h)) fun h => hU x hxU y h)
          (by rw [List.length_append]; omega)
        -- what counts as visited for the rest of the loop is `x` and what was visited before
        have hsplit : ∀ {y},
            y ∈ visited ++ [x] ∨ y ∈ order succ fuel (todo ++ succ x) (visited ++ [x]) →
              y ∈ visited ∨ y ∈ x :: order succ fuel (todo ++ succ x) (visited ++ [x]) := by
          intro y hy
          simp only [List.mem_append, List.mem_cons] at hy ⊢
          tauto
        refine ⟨fun y hy => ?_, fun u hu v hv => ?_⟩
        · rcases List.mem_cons.mp hy with rfl | hy
          · exact .inr List.mem_cons_self
          · exact hsplit (hon y (List.mem_append_left _ hy))
        · rcases List.mem_cons.mp hu with rfl | hu
          · exact hsplit (hon v (List.mem_append_right _ hv))
          · exact hsplit (hbehind u hu v hv)

/-- **The nodes that are visited** are those behind the one the worklist starts with. -/
theorem mem_order (hroot : root ∈ U) (hU : ∀ u ∈ U, ∀ v ∈ succ u, v ∈ U) :
    y ∈ order succ (steps succ U) [root] [] ↔
      Relation.ReflTransGen (fun a b => b ∈ succ a) root y := by
  constructor
  · intro hy
    obtain ⟨x, hx, hreach⟩ := order_sound hy
    exact List.mem_singleton.mp hx ▸ hreach
  · intro hreach
    obtain ⟨hon, hbehind⟩ := @order_complete α _ succ (steps succ U) [root] [] U.dedup
      U.nodup_dedup (fun u hu v hv => List.mem_dedup.mpr (hU u (List.mem_dedup.mp hu) v hv))
      (fun x hx => List.mem_dedup.mpr (List.mem_singleton.mp hx ▸ hroot))
      (by unfold steps; simp only [List.length_singleton]; omega)
    induction hreach with
    | refl => exact (hon root List.mem_cons_self).resolve_left List.not_mem_nil
    | tail _ hstep ih => exact (hbehind _ ih _ hstep).resolve_left List.not_mem_nil

end Worklist
