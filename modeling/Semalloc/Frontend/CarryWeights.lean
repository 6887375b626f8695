import Semalloc.Frontend.EdgeWeight
import Mathlib.Data.BitVec

/-!
# Pushing weights down keeps the sums of paths

A call without a mark gets no code, so `doModulePass` first adds its weight to the calls in its
callee. Such a call is the only final call of its callee, so nothing else reaches the calls that get
the weight; and since the functions are visited with the callers first, the weight that is carried
on is complete.

What was carried to the calls in a function is a potential: on every edge, what the edge counts and
the potential of its callee are the weight of the edge and the potential of its caller.

## Main definitions

* `BranchesMarked`: the path types that `ConstructFinalCFG` leaves
* `counted`: the weights of the marked calls
* `carried`: what is carried to the calls in a function

## Main results

* `carryWeights_spec`: the loop carries `carried`, and marks the last calls
* `carry_preserves_sums`: the marked calls of a complete path have the sum of all its calls
-/

set_option autoImplicit false

namespace Semalloc

namespace InstrumentIRPass

open Multigraph

variable {s t t' : InstrumentIRPass} {f g : String} {p q : ℕ}

/-- A function with several final calls has no unmarked one. -/
def BranchesMarked (s : InstrumentIRPass) : Prop :=
  ∀ f ∈ s.relevantAllFunctionSet, (s.finalCallerMap.get f).length > 1 →
    ∀ p ∈ s.finalCallerMap.get f, (s.callPaths p).pathType ≠ .default

instance (s : InstrumentIRPass) : Decidable s.BranchesMarked :=
  inferInstanceAs (Decidable (∀ f ∈ s.relevantAllFunctionSet, _ → ∀ p ∈ s.finalCallerMap.get f, _))

/-- What a call adds to the sum of a path: its weight, if it is marked. -/
def counted (s : InstrumentIRPass) (p : ℕ) : BitVec 32 :=
  if (s.callPaths p).pathType = .default then 0 else (s.callPaths p).edgeWeight

/-- Only weights and path types may change. -/
structure Recounts (s t : InstrumentIRPass) : Prop where
  callee : ∀ p, (t.callPaths p).callee = (s.callPaths p).callee
  caller : ∀ p, (t.callPaths p).caller = (s.callPaths p).caller
  callInst : ∀ p, (t.callPaths p).callInst = (s.callPaths p).callInst
  relevant : t.relevantAllFunctionSet = s.relevantAllFunctionSet
  callees : t.finalCalleeMap = s.finalCalleeMap
  callers : t.finalCallerMap = s.finalCallerMap

namespace Recounts

theorem refl (s : InstrumentIRPass) : Recounts s s :=
  ⟨fun _ => rfl, fun _ => rfl, fun _ => rfl, rfl, rfl, rfl⟩

theorem trans (h : Recounts s t) (h' : Recounts t t') : Recounts s t' where
  callee p := (h'.callee p).trans (h.callee p)
  caller p := (h'.caller p).trans (h.caller p)
  callInst p := (h'.callInst p).trans (h.callInst p)
  relevant := h'.relevant.trans h.relevant
  callees := h'.callees.trans h.callees
  callers := h'.callers.trans h.callers

end Recounts

/-! ## One call -/

/-- A call that is carried on: it has no mark, and its callee has final calls. -/
def IsCarried (s : InstrumentIRPass) (p : ℕ) : Prop :=
  (s.callPaths p).pathType = .default ∧ s.finalCalleeMap.get (s.callPaths p).callee ≠ []

instance (s : InstrumentIRPass) : DecidablePred s.IsCarried :=
  fun _ => inferInstanceAs (Decidable (_ ∧ _))

theorem carryEdge_recounts : Recounts s (s.carryEdge p) := by
  unfold carryEdge
  dsimp only
  split
  · split
    · refine ⟨fun q => ?_, fun q => ?_, fun q => ?_, rfl, rfl, rfl⟩
      · apply modifyAll_invariant CallPath.callee
        exact fun _ _ => rfl
      · apply modifyAll_invariant CallPath.caller
        exact fun _ _ => rfl
      · apply modifyAll_invariant CallPath.callInst
        exact fun _ _ => rfl
    · refine ⟨fun q => ?_, fun q => ?_, fun q => ?_, rfl, rfl, rfl⟩
      all_goals
        by_cases hq : q = p
        · subst hq
          simp
        · dsimp only
          rw [modifyAt_of_ne hq]
  · exact .refl s

/-- The weight of a call that is carried on is added to the calls in its callee. -/
theorem carryEdge_weight (hnodup : ∀ f, (s.finalCalleeMap.get f).Nodup) :
    ((s.carryEdge p).callPaths q).edgeWeight = (s.callPaths q).edgeWeight +
      if s.IsCarried p ∧ q ∈ s.finalCalleeMap.get (s.callPaths p).callee then
        (s.callPaths p).edgeWeight else 0 := by
  unfold carryEdge IsCarried
  dsimp only
  by_cases hdefault : (s.callPaths p).pathType = .default
  · by_cases hchildren : s.finalCalleeMap.get (s.callPaths p).callee = []
    · simp only [if_pos hdefault, hchildren, ne_eq, not_true, if_false, and_false, false_and, add_zero]
      by_cases hq : q = p
      · subst hq
        simp
      · rw [modifyAt_of_ne hq]
    · simp only [ne_eq, hchildren, not_false_eq_true, if_true, hdefault, and_self, true_and]
      by_cases hq : q ∈ s.finalCalleeMap.get (s.callPaths p).callee
      · rw [modifyAll_of_mem (hnodup _) hq, if_pos hq]
      · rw [modifyAll_of_not_mem hq, if_neg hq, add_zero]
  · simp [hdefault]

/-- A call without a mark is marked when its callee has no final calls. -/
theorem carryEdge_pathType : ((s.carryEdge p).callPaths q).pathType =
    if q = p ∧ (s.callPaths p).pathType = .default ∧ ¬ s.IsCarried p then .markBranch
    else (s.callPaths q).pathType := by
  unfold carryEdge IsCarried
  dsimp only
  by_cases hdefault : (s.callPaths p).pathType = .default
  · by_cases hchildren : s.finalCalleeMap.get (s.callPaths p).callee = []
    · by_cases hq : q = p
      · subst hq
        simp [hdefault, hchildren]
      · simp [hdefault, hchildren, hq, modifyAt_of_ne hq]
    · simp only [ne_eq, hchildren, not_false_eq_true, if_true, hdefault, and_self, not_true,
        and_false, if_false]
      apply modifyAll_invariant CallPath.pathType
      exact fun _ _ => rfl
  · simp [hdefault]

/-! ## The calls in one function, and in all -/

/-- The calls that are carried to the calls in `g`. -/
def carriedTo (s : InstrumentIRPass) (g : String) (ps : List ℕ) : List ℕ :=
  ps.filter fun p => s.IsCarried p ∧ (s.callPaths p).callee = g

/-- A graph in which every call is in the function that lists it, once. -/
structure CallsListed (s : InstrumentIRPass) : Prop where
  nodup : ∀ f, (s.finalCalleeMap.get f).Nodup
  caller : ∀ f, ∀ p ∈ s.finalCalleeMap.get f, (s.callPaths p).caller = f

theorem Recounts.callsListed (h : Recounts s t) (hs : s.CallsListed) : t.CallsListed where
  nodup f := by
    rw [h.callees]
    exact hs.nodup f
  caller f p hp := by
    rw [h.callees] at hp
    rw [h.caller]
    exact hs.caller f p hp

/-- What a run over calls that do not lead to each other's functions does: the weights of the
carried ones are added to the calls in their callees. -/
theorem carryEdges_spec {ps : List ℕ} (hs : s.CallsListed) (hps : ps.Nodup)
    (happart : ∀ p ∈ ps, ∀ q ∈ ps, q ∉ s.finalCalleeMap.get (s.callPaths p).callee) :
    Recounts s (ps.foldl carryEdge s) ∧
      (∀ g, ∀ q ∈ s.finalCalleeMap.get g, ((ps.foldl carryEdge s).callPaths q).edgeWeight =
        (s.callPaths q).edgeWeight + ((s.carriedTo g ps).map fun p => (s.callPaths p).edgeWeight).sum) ∧
      ∀ q, ((ps.foldl carryEdge s).callPaths q).pathType =
        if q ∈ ps ∧ (s.callPaths q).pathType = .default ∧ ¬ s.IsCarried q then .markBranch
        else (s.callPaths q).pathType := by
  induction ps generalizing s with
  | nil => exact ⟨.refl s, fun g q _ => by simp [carriedTo], fun q => by simp⟩
  | cons p ps ih =>
    obtain ⟨hp, hps⟩ := List.nodup_cons.mp hps
    have hstep : Recounts s (s.carryEdge p) := carryEdge_recounts
    have htype : ∀ q ∈ ps, ((s.carryEdge p).callPaths q).pathType = (s.callPaths q).pathType := by
      intro q hq
      rw [carryEdge_pathType, if_neg]
      rintro ⟨rfl, -⟩
      exact hp hq
    have hcarried : ∀ q ∈ ps, (s.carryEdge p).IsCarried q ↔ s.IsCarried q := by
      intro q hq
      unfold IsCarried
      rw [htype q hq, hstep.callees, hstep.callee]
    -- the weights of the calls to come are not touched
    have hweight : ∀ q ∈ ps, ((s.carryEdge p).callPaths q).edgeWeight = (s.callPaths q).edgeWeight := by
      intro q hq
      rw [carryEdge_weight hs.nodup, if_neg, add_zero]
      rintro ⟨-, hmem⟩
      exact happart p List.mem_cons_self q (List.mem_cons_of_mem p hq) hmem
    obtain ⟨hrest, hweights, htypes⟩ := ih (hstep.callsListed hs) hps fun q hq r hr => by
      rw [hstep.callees, hstep.callee]
      exact happart q (List.mem_cons_of_mem p hq) r (List.mem_cons_of_mem p hr)
    refine ⟨hstep.trans hrest, fun g q hq => ?_, fun q => ?_⟩
    · rw [List.foldl_cons, hweights g q (by rwa [hstep.callees]), carryEdge_weight hs.nodup, add_assoc]
      congr 1
      have hlist : (s.carryEdge p).carriedTo g ps = s.carriedTo g ps := by
        refine List.filter_congr fun r hr => ?_
        simp only [hcarried r hr, hstep.callee]
      have hmap : ((s.carriedTo g ps).map fun r => ((s.carryEdge p).callPaths r).edgeWeight) =
          (s.carriedTo g ps).map fun r => (s.callPaths r).edgeWeight :=
        List.map_congr_left fun r hr => hweight r (List.mem_of_mem_filter hr)
      -- a call lies in one function, so it is in the callee exactly if that is `g`
      have hcallee : q ∈ s.finalCalleeMap.get (s.callPaths p).callee ↔ (s.callPaths p).callee = g := by
        constructor
        · intro hmem
          rw [← hs.caller _ q hmem, hs.caller g q hq]
        · rintro rfl
          exact hq
      rw [hlist, hmap]
      unfold carriedTo
      rw [List.filter_cons]
      by_cases hcarry : s.IsCarried p ∧ (s.callPaths p).callee = g
      · rw [if_pos (decide_eq_true hcarry), if_pos ⟨hcarry.1, hcallee.mpr hcarry.2⟩,
          List.map_cons, List.sum_cons]
      · have hnot : ¬ (s.IsCarried p ∧ q ∈ s.finalCalleeMap.get (s.callPaths p).callee) :=
          fun h => hcarry ⟨h.1, hcallee.mp h.2⟩
        rw [if_neg hnot, if_neg (by simpa using hcarry), zero_add]
    · rw [List.foldl_cons, htypes]
      by_cases hq : q ∈ ps
      · simp only [hcarried q hq, htype q hq]
        simp [hq]
      · rw [if_neg fun h => hq h.1, carryEdge_pathType]
        by_cases hqp : q = p
        · subst hqp
          simp
        · simp [hqp, hq]

/-- **The loop carries** to the calls in each function the weights, as they end up, of the carried
calls of it, and marks the unmarked calls that are not carried. -/
theorem carryFunctions_spec {order : List String} (hs : s.CallsListed) (horder : order.Nodup)
    (hsorted : s.finalGraph.SourcesFirst order) :
    Recounts s (order.foldl carryFunction s) ∧
      (∀ g, ∀ q ∈ s.finalCalleeMap.get g, ((order.foldl carryFunction s).callPaths q).edgeWeight =
        (s.callPaths q).edgeWeight + ((s.carriedTo g (order.flatMap s.finalCalleeMap.get)).map
          fun p => ((order.foldl carryFunction s).callPaths p).edgeWeight).sum) ∧
      ∀ q, ((order.foldl carryFunction s).callPaths q).pathType =
        if (∃ f ∈ order, q ∈ s.finalCalleeMap.get f) ∧ (s.callPaths q).pathType = .default ∧
          ¬ s.IsCarried q then .markBranch
        else (s.callPaths q).pathType := by
  induction order generalizing s with
  | nil => exact ⟨.refl s, fun g q _ => by simp [carriedTo], fun q => by simp⟩
  | cons f order ih =>
    obtain ⟨hf, horder⟩ := List.nodup_cons.mp horder
    obtain ⟨htarget, hsorted⟩ := hsorted
    -- no call in `f` leads to `f`, so the calls in `f` are complete
    have hcallee : ∀ p ∈ s.finalCalleeMap.get f, (s.callPaths p).callee ≠ f := fun p hp h =>
      hf (h ▸ htarget p hp)
    obtain ⟨hstep, hweight, htype⟩ := carryEdges_spec hs (hs.nodup f) fun p hp q hq hmem =>
      hcallee p hp ((hs.caller _ q hmem).symm.trans (hs.caller f q hq))
    change Recounts s (s.carryFunction f) at hstep
    change ∀ g, ∀ q ∈ s.finalCalleeMap.get g, ((s.carryFunction f).callPaths q).edgeWeight = _
      at hweight
    change ∀ q, ((s.carryFunction f).callPaths q).pathType = _ at htype
    have hgraph : (s.carryFunction f).finalGraph = s.finalGraph := by
      unfold finalGraph
      rw [hstep.callees, funext hstep.callee]
    obtain ⟨hrest, hweights, htypes⟩ := ih (hstep.callsListed hs) horder (hgraph ▸ hsorted)
    rw [hstep.callees] at hweights htypes
    rw [List.foldl_cons]
    -- the calls in the functions to come keep their types
    have hother : ∀ g ∈ order, ∀ q ∈ s.finalCalleeMap.get g, q ∉ s.finalCalleeMap.get f :=
      fun g hg q hq hmem => hf ((hs.caller f q hmem).symm.trans (hs.caller g q hq) ▸ hg)
    have hkeep : ∀ q, q ∉ s.finalCalleeMap.get f →
        ((s.carryFunction f).callPaths q).pathType = (s.callPaths q).pathType := by
      intro q hq
      rw [htype, if_neg fun h => hq h.1]
    have hcarried : ∀ q, q ∉ s.finalCalleeMap.get f →
        ((s.carryFunction f).IsCarried q ↔ s.IsCarried q) := by
      intro q hq
      unfold IsCarried
      rw [hkeep q hq, hstep.callees, hstep.callee]
    have hlist : ∀ g, (s.carryFunction f).carriedTo g (order.flatMap s.finalCalleeMap.get) =
        s.carriedTo g (order.flatMap s.finalCalleeMap.get) := by
      intro g
      refine List.filter_congr fun q hq => ?_
      obtain ⟨h, hh, hq⟩ := List.mem_flatMap.mp hq
      simp only [hcarried q (hother h hh q hq), hstep.callee]
    simp only [hlist] at hweights
    -- nothing is carried to `f`
    have hnone : ∀ l : List ℕ, (∀ p ∈ l, (s.callPaths p).callee ≠ f) → s.carriedTo f l = [] := by
      intro l hl
      refine List.filter_eq_nil_iff.mpr fun p hp => ?_
      simp [hl p hp]
    have hfinal : ∀ p ∈ s.finalCalleeMap.get f, ((order.foldl carryFunction
        (s.carryFunction f)).callPaths p).edgeWeight = (s.callPaths p).edgeWeight := by
      intro p hp
      rw [hweights f p hp, hweight f p hp, hnone _ hcallee, hnone]
      · simp
      · intro q hq h
        obtain ⟨g, hg, hq⟩ := List.mem_flatMap.mp hq
        exact hf (h ▸ hsorted.target_mem hg hq)
    refine ⟨hstep.trans hrest, fun g q hq => ?_, fun q => ?_⟩
    · have hmap : ((s.carriedTo g (s.finalCalleeMap.get f)).map fun p => (s.callPaths p).edgeWeight) =
          (s.carriedTo g (s.finalCalleeMap.get f)).map fun p =>
            ((order.foldl carryFunction (s.carryFunction f)).callPaths p).edgeWeight :=
        List.map_congr_left fun p hp => (hfinal p (List.mem_of_mem_filter hp)).symm
      rw [hweights g q hq, hweight g q hq, hmap, add_assoc, List.flatMap_cons]
      unfold carriedTo
      rw [List.filter_append, List.map_append, List.sum_append]
    · rw [htypes]
      by_cases hq : q ∈ s.finalCalleeMap.get f
      · rw [if_neg, htype]
        · simp [hq]
        · rintro ⟨⟨g, hg, hmem⟩, -⟩
          exact hother g hg q hmem hq
      · simp only [hkeep q hq, hcarried q hq]
        simp [hq]

/-! ## The potential -/

/-- What is carried to the calls in `f`, once the loop is done. -/
def carried (s : InstrumentIRPass) (f : String) : BitVec 32 :=
  ((s.carriedTo f (s.topologicalOrder.reverse.flatMap s.finalCalleeMap.get)).map
    fun p => (s.carryWeights.callPaths p).edgeWeight).sum

/-- A final call graph in order: what `ComputeEdgeWeight` accepts and orders, with the path types of
`ConstructFinalCFG`. -/
structure Ordered (s : InstrumentIRPass) : Prop where
  listed : s.CallsListed
  orderNodup : s.topologicalOrder.Nodup
  sorted : s.finalGraph.SourcesFirst s.topologicalOrder.reverse
  ordered : ∀ f, f ∉ s.topologicalOrder → s.finalCalleeMap.get f = []
  callersListed : ∀ f, ∀ p ∈ s.finalCalleeMap.get f,
    p ∈ s.finalCallerMap.get (s.callPaths p).callee
  branches : ∀ f, (s.finalCallerMap.get f).length > 1 →
    ∀ p ∈ s.finalCallerMap.get f, (s.callPaths p).pathType ≠ .default

namespace Ordered

theorem of_computeEdgeWeight (hs : s.FinalMaps) (hbranches : s.BranchesMarked)
    (hok : s.computeEdgeWeight = .ok t) : t.Ordered := by
  obtain ⟨hc, -⟩ := computeEdgeWeight_eq_ok.mp hok
  obtain ⟨hshape, hperm, hsorted, -⟩ := computeEdgeWeight_spec hs hok
  have hempty : ∀ f, f ∉ s.relevantAllFunctionSet →
      s.finalCalleeMap.get f = [] ∧ s.finalCallerMap.get f = [] := fun f hf =>
    ⟨hs.calleesOutside f hf, hs.callersOutside f hf⟩
  refine {
    listed := ⟨?_, ?_⟩
    orderNodup := hperm.nodup_iff.mpr hs.nodup
    sorted := hshape.finalGraph_eq ▸ hsorted
    ordered := ?_
    callersListed := ?_
    branches := ?_ }
  · rw [hshape.callees]
    exact hs.calleesNodup
  · intro f p hp
    rw [hshape.callees] at hp
    rw [hshape.caller_eq]
    by_cases hf : f ∈ s.relevantAllFunctionSet
    · exact (hc.callees f hf p hp).2
    · rw [(hempty f hf).1] at hp
      cases hp
  · intro f hf
    rw [hshape.callees]
    exact (hempty f fun h => hf (hperm.mem_iff.mpr h)).1
  · intro f p hp
    rw [hshape.callees] at hp
    rw [hshape.callers, hshape.callee_eq]
    by_cases hf : f ∈ s.relevantAllFunctionSet
    · exact hc.calleesListed f hf p hp
    · rw [(hempty f hf).1] at hp
      cases hp
  · intro f hlen p hp
    rw [hshape.callers] at hlen hp
    rw [hshape.pathType_eq]
    by_cases hf : f ∈ s.relevantAllFunctionSet
    · exact hbranches f hf hlen p hp
    · rw [(hempty f hf).2] at hp
      cases hp

variable (hs : s.Ordered)
include hs

theorem mem_order (hp : p ∈ s.finalCalleeMap.get f) : f ∈ s.topologicalOrder := by
  by_contra hf
  rw [hs.ordered f hf] at hp
  cases hp

/-- All final calls, each once. -/
theorem calls_nodup : (s.topologicalOrder.reverse.flatMap s.finalCalleeMap.get).Nodup := by
  rw [List.nodup_flatMap]
  refine ⟨fun f _ => hs.listed.nodup f, ?_⟩
  refine (List.nodup_reverse.mpr hs.orderNodup).imp fun hne => ?_
  intro p hp hq
  exact hne ((hs.listed.caller _ p hp).symm.trans (hs.listed.caller _ p hq))

theorem mem_calls (hp : p ∈ s.finalCalleeMap.get f) :
    p ∈ s.topologicalOrder.reverse.flatMap s.finalCalleeMap.get :=
  List.mem_flatMap.mpr ⟨f, List.mem_reverse.mpr (hs.mem_order hp), hp⟩

/-- A call that is carried is the only final call of its callee. -/
theorem eq_of_isCarried (hp : p ∈ s.finalCalleeMap.get f) (hq : q ∈ s.finalCalleeMap.get g)
    (hcarried : s.IsCarried p) (hcallee : (s.callPaths p).callee = (s.callPaths q).callee) :
    p = q := by
  by_contra hne
  have hpl := hs.callersListed f p hp
  have hql := hs.callersListed g q hq
  rw [← hcallee] at hql
  refine hs.branches _ ?_ p hpl hcarried.1
  by_contra hlen
  have hone : (s.finalCallerMap.get (s.callPaths p).callee).length = 1 := by
    have hpos := List.length_pos_of_mem hpl
    omega
  obtain ⟨r, hr⟩ := List.length_eq_one_iff.mp hone
  rw [hr, List.mem_singleton] at hpl hql
  exact hne (hpl.trans hql.symm)

/-- The path types that the loop leaves: the last calls are marked as branches. -/
theorem carryWeights_pathType (hp : p ∈ s.finalCalleeMap.get f) :
    (s.carryWeights.callPaths p).pathType =
      if (s.callPaths p).pathType = .default ∧ ¬ s.IsCarried p then .markBranch
      else (s.callPaths p).pathType := by
  obtain ⟨-, -, htypes⟩ :=
    carryFunctions_spec hs.listed (List.nodup_reverse.mpr hs.orderNodup) hs.sorted
  have htype := htypes p
  change (s.carryWeights.callPaths p).pathType = _ at htype
  have hmem : ∃ g ∈ s.topologicalOrder.reverse, p ∈ s.finalCalleeMap.get g :=
    ⟨f, List.mem_reverse.mpr (hs.mem_order hp), hp⟩
  simp only [hmem, true_and] at htype
  exact htype

/-- **The loop**, call by call: the weight of a call grows by what is carried to its function, and
an unmarked call stays unmarked exactly if it is carried. -/
theorem carryWeights_spec : Recounts s s.carryWeights ∧
    (∀ f, ∀ p ∈ s.finalCalleeMap.get f,
      (s.carryWeights.callPaths p).edgeWeight = (s.callPaths p).edgeWeight + s.carried f) ∧
    ∀ f, ∀ p ∈ s.finalCalleeMap.get f,
      ((s.carryWeights.callPaths p).pathType = .default ↔ s.IsCarried p) := by
  obtain ⟨hshape, hweights, -⟩ :=
    carryFunctions_spec hs.listed (List.nodup_reverse.mpr hs.orderNodup) hs.sorted
  refine ⟨hshape, hweights, fun f p hp => ?_⟩
  rw [hs.carryWeights_pathType hp]
  by_cases hcarried : s.IsCarried p
  · simp [hcarried, hcarried.1]
  · by_cases hdefault : (s.callPaths p).pathType = .default
    · rw [if_pos ⟨hdefault, hcarried⟩]
      simp [hcarried]
    · simp [hdefault, hcarried]

/-- What is carried to a function is the weight of its only call, if that is carried. -/
theorem carried_callee (hp : p ∈ s.finalCalleeMap.get f) :
    s.carried (s.callPaths p).callee =
      if s.IsCarried p then (s.carryWeights.callPaths p).edgeWeight else 0 := by
  have hall := hs.mem_calls hp
  have honly : ∀ q ∈ s.topologicalOrder.reverse.flatMap s.finalCalleeMap.get,
      s.IsCarried q ∧ (s.callPaths q).callee = (s.callPaths p).callee → q = p := by
    rintro q hq ⟨hcarried, hcallee⟩
    obtain ⟨g, -, hq⟩ := List.mem_flatMap.mp hq
    exact hs.eq_of_isCarried hq hp hcarried hcallee
  unfold carried carriedTo
  by_cases hcarried : s.IsCarried p
  · have hfilter : (s.topologicalOrder.reverse.flatMap s.finalCalleeMap.get).filter (fun q =>
        s.IsCarried q ∧ (s.callPaths q).callee = (s.callPaths p).callee) = [p] := by
      have hcongr : (s.topologicalOrder.reverse.flatMap s.finalCalleeMap.get).filter (fun q =>
          s.IsCarried q ∧ (s.callPaths q).callee = (s.callPaths p).callee) =
          (s.topologicalOrder.reverse.flatMap s.finalCalleeMap.get).filter (· = p) := by
        refine List.filter_congr fun q hq => ?_
        simp only [decide_eq_decide]
        constructor
        · exact honly q hq
        · rintro rfl
          exact ⟨hcarried, rfl⟩
      rw [hcongr, List.filter_eq, List.count_eq_one_of_mem hs.calls_nodup hall]
      rfl
    rw [hfilter, if_pos hcarried]
    simp
  · have hfilter : (s.topologicalOrder.reverse.flatMap s.finalCalleeMap.get).filter (fun q =>
        s.IsCarried q ∧ (s.callPaths q).callee = (s.callPaths p).callee) = [] := by
      refine List.filter_eq_nil_iff.mpr fun q hq => ?_
      rw [decide_eq_true_eq]
      intro h
      exact hcarried (honly q hq h ▸ h.1)
    rw [hfilter, if_neg hcarried]
    rfl

/-- **What is carried is a potential** for the difference between what is counted and the weights. -/
theorem counted_add_carried (f : String) (p : ℕ) (hp : p ∈ s.finalGraph.out f) :
    s.carryWeights.counted p + s.carried (s.finalGraph.target p) =
      (s.callPaths p).edgeWeight + s.carried f := by
  obtain ⟨-, hweights, htypes⟩ := hs.carryWeights_spec
  rw [← hweights f p hp]
  change _ + s.carried (s.callPaths p).callee = _
  rw [hs.carried_callee hp]
  unfold counted
  by_cases hcarried : s.IsCarried p
  · rw [if_pos ((htypes f p hp).mpr hcarried), if_pos hcarried, zero_add]
  · rw [if_neg (mt (htypes f p hp).mp hcarried), if_neg hcarried, add_zero]

omit hs in
/-- Nothing is carried to a function if none of its calls is. -/
theorem carried_eq_zero (hf : ∀ g, ∀ q ∈ s.finalCalleeMap.get g,
    (s.callPaths q).callee = f → ¬ s.IsCarried q) : s.carried f = 0 := by
  have hnone : s.carriedTo f (s.topologicalOrder.reverse.flatMap s.finalCalleeMap.get) = [] := by
    refine List.filter_eq_nil_iff.mpr fun q hq => ?_
    rw [decide_eq_true_eq]
    rintro ⟨hcarried, hcallee⟩
    obtain ⟨g, -, hq⟩ := List.mem_flatMap.mp hq
    exact hf g q hq hcallee hcarried
  unfold carried
  rw [hnone]
  rfl

/-- Nothing is carried to a function without final callers. -/
theorem carried_root (hf : s.finalCallerMap.get f = []) : s.carried f = 0 := by
  refine carried_eq_zero fun g q hq hcallee _ => ?_
  have hlisted := hs.callersListed g q hq
  rw [hcallee, hf] at hlisted
  cases hlisted

omit hs in
/-- Nothing is carried to a function without final calls. -/
theorem carried_sink (hf : s.finalCalleeMap.get f = []) : s.carried f = 0 :=
  carried_eq_zero fun _ _ _ hcallee hcarried => hcarried.2 (hcallee ▸ hf)

end Ordered

/-- The sum of the marked calls of a path. -/
theorem sum_counted (es : List ℕ) : (es.map t.counted).sum =
    ((es.filter fun p => (t.callPaths p).pathType ≠ .default).map
      fun p => (t.callPaths p).edgeWeight).sum := by
  induction es with
  | nil => rfl
  | cons p es ih =>
    rw [List.map_cons, List.sum_cons, ih, List.filter_cons]
    unfold counted
    by_cases hp : (t.callPaths p).pathType = .default
    · simp [hp]
    · simp [hp]

/-- **Pushing weights down keeps the sums of complete paths.** After the first loop of
`doModulePass`, the weights of the marked calls on a path from a function without final callers to
one without final calls add up to what `ComputeEdgeWeight` gave all its calls. -/
theorem carry_preserves_sums (hs : s.FinalMaps) (hbranches : s.BranchesMarked)
    (hok : s.computeEdgeWeight = .ok t) {es : List ℕ} (hwalk : s.finalGraph.Walk f es g)
    (hroot : s.finalCallerMap.get f = []) (hleaf : s.finalCalleeMap.get g = []) :
    ((es.filter fun p => (t.carryWeights.callPaths p).pathType ≠ .default).map
        fun p => (t.carryWeights.callPaths p).edgeWeight).sum =
      (es.map fun p => (t.callPaths p).edgeWeight).sum := by
  have ht := Ordered.of_computeEdgeWeight hs hbranches hok
  obtain ⟨hshape, -⟩ := computeEdgeWeight_spec hs hok
  rw [← hshape.finalGraph_eq] at hwalk
  have hsum := hwalk.sum_potential ht.counted_add_carried
  rw [ht.carried_root (f := f) (by rw [hshape.callers]; exact hroot),
    Ordered.carried_sink (f := g) (by rw [hshape.callees]; exact hleaf), add_zero, add_zero] at hsum
  rw [← sum_counted]
  exact hsum

/-- The call graph `diamond` with the types that `ConstructFinalCFG` gives its calls: only `left` is
called once. -/
def markedDiamond : InstrumentIRPass :=
  { diamond with
    callPaths := fun p =>
      if p = 0 then diamond.callPaths p
      else { diamond.callPaths p with pathType := .markBranch } }

/-- The path through `left` keeps its number `1` although its first call gets no code. -/
theorem carry_preserves_sums_diamond : ∃ t, markedDiamond.computeEdgeWeight = .ok t ∧
    [0, 4].filter (fun p => (t.carryWeights.callPaths p).pathType ≠ .default) = [4] ∧
    ([4].map fun p => (t.carryWeights.callPaths p).edgeWeight).sum = 1 := by
  have hmaps : markedDiamond.FinalMaps := { diamond_finalMaps with }
  have hrun : markedDiamond.computeEdgeWeight.toOption.map (fun t =>
      ([0, 4].filter (fun p => (t.carryWeights.callPaths p).pathType ≠ .default),
        ([0, 4].map fun p => (t.callPaths p).edgeWeight).sum)) = some ([4], 1) := by decide +kernel
  cases hok : markedDiamond.computeEdgeWeight with
  | error e =>
    rw [hok] at hrun
    cases hrun
  | ok t =>
    rw [hok] at hrun
    simp only [Except.toOption, Option.map_some, Option.some.injEq, Prod.mk.injEq] at hrun
    obtain ⟨hmarked, hsum⟩ := hrun
    have hwalk : markedDiamond.finalGraph.Walk "main" [0, 4] "malloc" :=
      .cons (by decide +kernel) (.cons (by decide +kernel) (.nil _))
    have hkeep := carry_preserves_sums hmaps (by decide +kernel) hok hwalk (by decide +kernel)
      (by decide +kernel)
    rw [hmarked, hsum] at hkeep
    exact ⟨t, rfl, hmarked, hkeep⟩

end InstrumentIRPass

end Semalloc
