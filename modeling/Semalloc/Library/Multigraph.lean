import Mathlib.Tactic
import Mathlib.Data.Fintype.EquivFin
import Mathlib.Logic.Relation
import Mathlib.Order.WellFounded

/-!
# Directed multigraphs

A multigraph gives the edges that leave each vertex, in order; parallel edges are different edges.
A topological order lists the vertices with every target before its sources; read backwards it
lists the sources first.

## Main definitions

* `Multigraph V E`: the edges out of each vertex, and where each edge leads
* `Walk G u es v`: the edges `es` lead from `u` to `v`
* `SourcesFirst G l`: every edge out of a vertex of `l` leads further down `l`

## Main results

* `exists_sink`: an acyclic graph restricted to finitely many vertices has one without edges
* `acyclic_of_contraction`: a graph of strongly connected components is acyclic
* `SourcesFirst.acyclic`: a list with the sources first orders an acyclic graph
* `SourcesFirst.induction_down`, `SourcesFirst.induction_up`: induction along the edges
* `Walk.sum_potential`: two edge weightings that differ by a potential agree on closed sums
* `Walk.sums_eq_iff_edges`: when the sums from sources to ends are determined edge by edge
-/

set_option autoImplicit false

/-- The edges that leave each vertex, in order, and the vertex each edge leads to. -/
structure Multigraph (V E : Type) where
  out : V → List E
  target : E → V

namespace Multigraph

variable {V E : Type} {G : Multigraph V E} {u v w : V} {e : E} {es es' : List E} {l : List V}

/-- Some edge leads from `u` to `v`. -/
def Adj (G : Multigraph V E) (u v : V) : Prop := ∃ e ∈ G.out u, G.target e = v

/-- No vertex can be reached from itself by one edge or more. -/
def Acyclic (G : Multigraph V E) : Prop := ∀ v, ¬ Relation.TransGen G.Adj v v

/-- No edge leaves the vertex. -/
def IsSink (G : Multigraph V E) (v : V) : Prop := G.out v = []

/-- The edges `es` lead from `u` to `v`, one after the other. -/
inductive Walk (G : Multigraph V E) : V → List E → V → Prop
  | nil (v : V) : Walk G v [] v
  | cons {u v : V} {e : E} {es : List E} (he : e ∈ G.out u) (h : Walk G (G.target e) es v) :
    Walk G u (e :: es) v

namespace Walk

theorem append (h : G.Walk u es v) (h' : G.Walk v es' w) : G.Walk u (es ++ es') w := by
  induction h with
  | nil v => exact h'
  | cons he _ ih => exact .cons he (ih h')

theorem concat (h : G.Walk u es v) (he : e ∈ G.out v) : G.Walk u (es ++ [e]) (G.target e) :=
  h.append (.cons he (.nil _))

/-- A walk out of a sink has no edges. -/
theorem eq_nil_of_isSink (h : G.Walk u es v) (hu : G.IsSink u) : es = [] := by
  cases h with
  | nil => rfl
  | cons he _ =>
    rw [show G.out u = [] from hu] at he
    cases he

/-- **Telescoping.** Two weightings whose difference on every edge is a difference of potentials
differ on a walk by the potentials at its ends. -/
theorem sum_potential {M : Type} [AddCommMonoid M] {f g : E → M} {κ : V → M}
    (hstep : ∀ u, ∀ e ∈ G.out u, f e + κ (G.target e) = g e + κ u) (h : G.Walk u es v) :
    (es.map f).sum + κ v = (es.map g).sum + κ u := by
  induction h with
  | nil v => rfl
  | @cons u v e es he _ ih =>
    rw [List.map_cons, List.map_cons, List.sum_cons, List.sum_cons, add_assoc, ih,
      add_left_comm, hstep u e he, ← add_assoc, add_comm ((es.map g).sum)]

/-- A walk has no edges, or an edge of it leads to its end. -/
theorem eq_nil_or_target (h : G.Walk u es v) :
    es = [] ∨ ∃ w, ∃ e ∈ G.out w, e ∈ es ∧ G.target e = v := by
  induction h with
  | nil v => exact .inl rfl
  | @cons u v e es he hrest ih =>
    right
    rcases ih with rfl | ⟨w, e', he', hmem, htarget⟩
    · cases hrest with
      | nil => exact ⟨u, e, he, List.mem_cons_self, rfl⟩
    · exact ⟨w, e', he', List.mem_cons_of_mem e hmem, htarget⟩

/-- **Sums and single edges.** Where a walk from a source leads to every vertex, and from every
target a walk with sum `0` leads to an end at which nothing is due, all walks from a source to an end
have the sum that is due there exactly when every edge has the value `0`, and nothing is due at any
end. -/
theorem sums_eq_iff_edges {M : Type} [AddGroup M] {δ : E → M} {due : V → M} {source sink : V → Prop}
    (hreach : ∀ v, ∃ u es, source u ∧ G.Walk u es v)
    (hdown : ∀ u, ∀ e ∈ G.out u, ∃ es w, sink w ∧ due w = 0 ∧ G.Walk (G.target e) es w ∧
      (es.map δ).sum = 0) :
    (∀ u es v, source u → sink v → G.Walk u es v → (es.map δ).sum = due v) ↔
      (∀ u, ∀ e ∈ G.out u, δ e = 0) ∧ ∀ v, sink v → due v = 0 := by
  constructor
  · intro hsums
    -- what leads to a vertex can be completed with sum `0`
    have hprefix : ∀ u es v, source u → G.Walk u es v → (es.map δ).sum = 0 := by
      intro u es v hu hwalk
      rcases hwalk.eq_nil_or_target with rfl | ⟨x, e, he, -, rfl⟩
      · rfl
      · obtain ⟨rest, w, hw, hdue, hrest, hzero⟩ := hdown x e he
        have hsum := hsums u _ w hu hw (hwalk.append hrest)
        rwa [List.map_append, List.sum_append, hzero, add_zero, hdue] at hsum
    refine ⟨fun u e he => ?_, fun v hv => ?_⟩
    · obtain ⟨r, before, hr, hbefore⟩ := hreach u
      have hsum := hprefix r _ _ hr (hbefore.concat he)
      rwa [List.map_append, List.sum_append, hprefix r before u hr hbefore, zero_add,
        List.map_singleton, List.sum_singleton] at hsum
    · obtain ⟨r, before, hr, hbefore⟩ := hreach v
      rw [← hsums r before v hr hv hbefore, hprefix r before v hr hbefore]
  · rintro ⟨hedges, hsinks⟩ u es v - hv hwalk
    rw [hsinks v hv]
    induction hwalk with
    | nil v => rfl
    | @cons u v e es he _ ih =>
      rw [List.map_cons, List.sum_cons, hedges u e he, ih hv, zero_add]

end Walk

/-- **An acyclic graph has a sink** among any finite set of vertices: one whose edges lead out of
the set. -/
theorem exists_sink (hG : G.Acyclic) (hl : l ≠ []) : ∃ v ∈ l, ∀ e ∈ G.out v, G.target e ∉ l := by
  obtain ⟨x, hx⟩ := List.exists_mem_of_ne_nil l hl
  have hfin : Finite {v // v ∈ l} := by
    classical
    exact Finite.of_injective (fun v => (⟨v.1, List.mem_toFinset.mpr v.2⟩ : l.toFinset))
      fun a b hab => Subtype.ext (congrArg (fun c => c.1) hab)
  let below : {v // v ∈ l} → {v // v ∈ l} → Prop := fun a b => Relation.TransGen G.Adj b.1 a.1
  have htrans : IsTrans _ below := ⟨fun a b c hab hbc => hbc.trans hab⟩
  have hirrefl : Std.Irrefl below := ⟨fun a => hG a.1⟩
  have hwf : WellFounded below := Finite.wellFounded_of_trans_of_irrefl below
  obtain ⟨v, -, hv⟩ := hwf.has_min Set.univ ⟨⟨x, hx⟩, trivial⟩
  refine ⟨v.1, v.2, fun e he hmem => ?_⟩
  exact hv ⟨G.target e, hmem⟩ trivial (.single ⟨e, he, rfl⟩)

/-- **Contracting components leaves an acyclic graph.** Every edge joins different vertices and comes
from an edge of the relation, and the vertices are the classes of ends that reach each other. -/
theorem acyclic_of_contraction {X : Type} {R : X → X → Prop} {node : X → V} {ends : X → Prop}
    (hends : ∀ x y, R x y → ends x ∧ ends y)
    (hadj : ∀ u v, G.Adj u v → u ≠ v ∧ ∃ x y, R x y ∧ node x = u ∧ node y = v)
    (hsame : ∀ x y, ends x → ends y →
      (node x = node y ↔ Relation.ReflTransGen R x y ∧ Relation.ReflTransGen R y x)) :
    G.Acyclic := by
  -- a path of the graph comes from a path of the relation, from any end of its first class
  have hlift : ∀ y v, ends y → Relation.ReflTransGen G.Adj (node y) v →
      ∃ x, ends x ∧ node x = v ∧ Relation.ReflTransGen R y x := by
    intro y v hy hpath
    induction hpath with
    | refl => exact ⟨y, hy, rfl, .refl⟩
    | tail _ hstep ih =>
      obtain ⟨x, hx, rfl, hyx⟩ := ih
      obtain ⟨-, a, b, hab, hax, rfl⟩ := hadj _ _ hstep
      obtain ⟨ha, hb⟩ := hends a b hab
      exact ⟨b, hb, rfl, (hyx.trans ((hsame x a hx ha).mp hax.symm).1).tail hab⟩
  intro u hcycle
  obtain ⟨v, hstep, hback⟩ := Relation.TransGen.head'_iff.mp hcycle
  obtain ⟨hne, x, y, hxy, rfl, rfl⟩ := hadj _ _ hstep
  obtain ⟨hx, hy⟩ := hends x y hxy
  obtain ⟨z, hz, hzx, hyz⟩ := hlift y _ hy hback
  exact hne ((hsame x y hx hy).mpr ⟨.single hxy, hyz.trans ((hsame z x hz hx).mp hzx).1⟩)

/-- Every edge out of a vertex of `l` leads further down `l`. -/
def SourcesFirst (G : Multigraph V E) : List V → Prop
  | [] => True
  | v :: l => (∀ e ∈ G.out v, G.target e ∈ l) ∧ SourcesFirst G l

namespace SourcesFirst

theorem target_mem (h : G.SourcesFirst l) (hv : v ∈ l) (he : e ∈ G.out v) : G.target e ∈ l := by
  induction l with
  | nil => cases hv
  | cons x l ih =>
    rcases List.mem_cons.mp hv with rfl | hv
    · exact List.mem_cons_of_mem v (h.1 e he)
    · exact List.mem_cons_of_mem x (ih h.2 hv)

/-- Where a vertex stands, its edges lead to what follows. -/
theorem target_mem_of_append {l' : List V} (h : G.SourcesFirst (l ++ v :: l')) (he : e ∈ G.out v) :
    G.target e ∈ l' := by
  induction l with
  | nil => exact h.1 e he
  | cons x l ih => exact ih h.2

theorem of_append {l' : List V} (h : G.SourcesFirst (l ++ l')) : G.SourcesFirst l' := by
  induction l with
  | nil => exact h
  | cons x l ih => exact ih h.2

/-- Edges leave the vertices of the list only. -/
theorem mem_of_edge (hout : ∀ v ∉ l, G.out v = []) (he : e ∈ G.out v) : v ∈ l := by
  by_contra hv
  rw [hout v hv] at he
  cases he

theorem adj_mem (h : G.SourcesFirst l) (hv : v ∈ l) (hadj : Relation.ReflTransGen G.Adj v w) :
    w ∈ l := by
  induction hadj with
  | refl => exact hv
  | tail _ hstep ih =>
    obtain ⟨e, he, rfl⟩ := hstep
    exact h.target_mem ih he

/-- The vertices further down do not lead back. -/
theorem acyclic (h : G.SourcesFirst l) (hnodup : l.Nodup) (hv : v ∈ l) :
    ¬ Relation.TransGen G.Adj v v := by
  induction l with
  | nil => cases hv
  | cons x l ih =>
    obtain ⟨hx, hnodup⟩ := List.nodup_cons.mp hnodup
    rcases List.mem_cons.mp hv with rfl | hv
    · intro hcycle
      obtain ⟨w, ⟨e, he, rfl⟩, hback⟩ := (Relation.TransGen.head'_iff).mp hcycle
      exact hx (h.2.adj_mem (h.1 e he) hback)
    · exact ih h.2 hnodup hv

/-- A graph without edges outside such a list is acyclic. -/
theorem acyclic_of_outside (h : G.SourcesFirst l) (hnodup : l.Nodup)
    (hout : ∀ v ∉ l, G.out v = []) : G.Acyclic := by
  intro v hcycle
  by_cases hv : v ∈ l
  · exact h.acyclic hnodup hv hcycle
  · obtain ⟨w, ⟨e, he, -⟩, -⟩ := Relation.TransGen.head'_iff.mp hcycle
    rw [hout v hv] at he
    cases he

/-- What a vertex takes over from all it leads to, every vertex of the list has. -/
theorem induction_down {P : V → Prop} (h : G.SourcesFirst l)
    (hstep : ∀ v ∈ l, (∀ e ∈ G.out v, P (G.target e)) → P v) (hv : v ∈ l) : P v := by
  induction l generalizing v with
  | nil => cases hv
  | cons x l ih =>
    have hrest : ∀ v ∈ l, P v := fun v hv =>
      ih h.2 (fun v hv => hstep v (List.mem_cons_of_mem x hv)) hv
    rcases List.mem_cons.mp hv with rfl | hv
    · exact hstep v List.mem_cons_self fun e he => hrest _ (h.1 e he)
    · exact hrest v hv

/-- What a vertex takes over from all that lead to it, every vertex has. -/
theorem induction_up {P : V → Prop} (h : G.SourcesFirst l) (hnodup : l.Nodup)
    (hout : ∀ v ∉ l, G.out v = []) (hstep : ∀ v, (∀ u, ∀ e ∈ G.out u, G.target e = v → P u) → P v)
    (v : V) : P v := by
  have hprefix : ∀ a b, l = a ++ b → ∀ v ∈ a, P v := by
    intro a
    induction a using List.reverseRecOn with
    | nil => exact fun _ _ v hv => nomatch hv
    | append_singleton a x ih =>
      intro b hsplit v hv
      rw [List.append_assoc, List.singleton_append] at hsplit
      have hbefore := ih (x :: b) hsplit
      rcases List.mem_append.mp hv with hv | hv
      · exact hbefore v hv
      · obtain rfl := List.mem_singleton.mp hv
        refine hstep v fun u e he htarget => hbefore u ?_
        -- the source is in the list, and not behind its target
        have hu : u ∈ a ++ v :: b := hsplit ▸ mem_of_edge hout he
        rcases List.mem_append.mp hu with hu | hu
        · exact hu
        · have hsuffix : G.SourcesFirst (v :: b) := of_append (hsplit ▸ h)
          have hmem : v ∈ b := by
            rw [← htarget]
            rcases List.mem_cons.mp hu with rfl | hu
            · exact hsuffix.1 e he
            · exact hsuffix.2.target_mem hu he
          exact absurd hmem (List.nodup_cons.mp (hsplit ▸ hnodup).of_append_right).1
  by_cases hv : v ∈ l
  · exact hprefix l [] (List.append_nil l).symm v hv
  · refine hstep v fun u e he htarget => absurd ?_ hv
    exact htarget ▸ h.target_mem (mem_of_edge hout he) he

end SourcesFirst

end Multigraph
