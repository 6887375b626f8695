import Semalloc.Frontend.ContractedGraph
import Semalloc.Frontend.EdgeWeight

/-!
# The pipeline reaches a topological order

The relevant functions are marked functions outside cycles, and nodes of cycles. The final maps list
calls between them that join two nodes, each under both of its ends, and the components of a graph
form an acyclic one: so the checks pass and the sort ends.

## Main definitions

* `Finished`: the state after `constructFinalCFG`

## Main results

* `constructFinalCFG_finished`: the final maps over the contracted graph
* `Finished.acyclic`: the final graph has no cycle
* `pipeline_reaches_order`: the analysis returns with a topological order
-/

set_option autoImplicit false

namespace Semalloc

namespace InstrumentIRPass

open Multigraph

variable {s t u v : InstrumentIRPass} {r : SCCResult} {f g : String} {p q : ℕ}

/-! ## The relevant functions -/

/-- The searches find loop functions and marked functions. -/
theorem searchFrom_found (fs : List String) (x : Search String) :
    (∀ f ∈ (fs.foldl s.searchFrom x).found, f ∈ x.found ∨ f ∈ s.functionMarkSet) ∧
      (x.found.Nodup → (fs.foldl s.searchFrom x).found.Nodup) := by
  induction fs generalizing x with
  | nil => exact ⟨fun _ hf => .inl hf, id⟩
  | cons f fs ih =>
    obtain ⟨hfound, hnodup⟩ := ih (s.searchFrom x f)
    have hstep : ∀ g ∈ (s.searchFrom x f).found, g ∈ x.found ∨ g ∈ s.functionMarkSet := by
      intro g hg
      unfold searchFrom at hg
      rcases Search.mem_finish_found hg with hg | hg
      · rcases Search.mem_finish_found hg with hg | hg
        · exact .inl hg
        · exact .inr (of_decide_eq_true hg)
      · exact .inr (of_decide_eq_true hg)
    refine ⟨fun g hg => ?_, fun hx => hnodup ?_⟩
    · rcases hfound g hg with hg | hg
      · exact hstep g hg
      · exact .inr hg
    · unfold searchFrom
      exact Search.nodup_finish_found (Search.nodup_finish_found hx)

/-- The relevant functions are marked functions outside cycles, and nodes of cycles. -/
theorem Contracted.relevant (h : Contracted r s t) :
    t.markLoopRelevantFunctions.relevantAllFunctionSet.Nodup ∧
      ∀ f ∈ t.markLoopRelevantFunctions.relevantAllFunctionSet,
        f ∉ t.flippedIntraFunctionMap.keys ∧
          (f ∈ s.functionMarkSet ∨ f ∈ t.intraFunctionMap.keys) := by
  unfold markLoopRelevantFunctions
  dsimp only
  rw [h.all]
  obtain ⟨hfound, -⟩ := searchFrom_found (s := t) t.relevantLoopFunctionSet
    { queue := [], visited := [], found := t.relevantLoopFunctionSet }
  generalize (t.relevantLoopFunctionSet.foldl t.searchFrom _).found = found at hfound ⊢
  refine ⟨(nodup_insertKeys (nodup_insertKeys List.nodup_nil)).filter _, fun f hf => ?_⟩
  rw [List.mem_filter, mem_insertKeys, mem_insertKeys, decide_eq_true_eq] at hf
  obtain ⟨hf, hremoved⟩ := hf
  have hall : ∀ g, g ∈ insertKeys found ([] : List String) ↔ g ∈ found := fun g => by simp
  rcases hf with hf | hf | hf
  · obtain ⟨g, hg, rfl⟩ := List.mem_map.mp hf
    have hkey := of_decide_eq_true (List.mem_filter.mp hg).2
    have hname : t.flippedIntraFunctionMap.get g = t.node g := (node_of_mem hkey).symm
    refine ⟨hname ▸ h.named.node_not_mem h.cycles g, .inr ?_⟩
    exact (h.named.names _).mpr ⟨g, hkey, rfl⟩
  · refine ⟨fun hkey => hremoved ?_, ?_⟩
    · rw [List.mem_filter]
      exact ⟨(hall f).mpr hf, decide_eq_true hkey⟩
    · rcases hfound f hf with hf | hf
      · exact h.loops f hf
      · exact .inl (h.marks ▸ hf)
  · cases hf

/-! ## The final maps -/

/-- What a loop of insertions leaves in two maps. -/
theorem foldl_insert_pair {α : Type} (fs : List String) (a b : String → α)
    (m : KeyMap String α × KeyMap String α) (f : String) :
    (fs.foldl (fun (m : KeyMap String α × KeyMap String α) f =>
        (m.1.insert f (a f), m.2.insert f (b f))) m).1.get f = (if f ∈ fs then a f else m.1.get f) ∧
      (fs.foldl (fun (m : KeyMap String α × KeyMap String α) f =>
        (m.1.insert f (a f), m.2.insert f (b f))) m).2.get f =
          if f ∈ fs then b f else m.2.get f := by
  induction fs generalizing m with
  | nil => exact ⟨rfl, rfl⟩
  | cons g fs ih =>
    obtain ⟨hfirst, hsecond⟩ := ih (m.1.insert g (a g), m.2.insert g (b g))
    rw [List.foldl_cons, hfirst, hsecond]
    by_cases hf : f ∈ fs
    · simp [hf]
    · by_cases hfg : f = g
      · subst hfg
        simp
      · simp [hf, hfg, KeyMap.insert_get_of_ne hfg]

/-- Marking branches changes path types. -/
theorem markBranches_fold (fs : List String) (s : InstrumentIRPass) :
    ∃ callPaths, fs.foldl markBranches s = { s with callPaths := callPaths } ∧
      ∀ p, callPaths p = { s.callPaths p with pathType := (callPaths p).pathType } := by
  induction fs generalizing s with
  | nil => exact ⟨_, rfl, fun _ => rfl⟩
  | cons f fs ih =>
    have hstep : ∃ callPaths, s.markBranches f = { s with callPaths := callPaths } ∧
        ∀ p, callPaths p = { s.callPaths p with pathType := (callPaths p).pathType } := by
      unfold markBranches
      split
      · refine ⟨_, rfl, modifyAll_pathType fun _ e => ?_⟩
        split <;> rfl
      · exact ⟨_, rfl, fun _ => rfl⟩
    obtain ⟨callPaths, heq, htypes⟩ := hstep
    obtain ⟨callPaths', heq', htypes'⟩ := ih (s.markBranches f)
    rw [heq] at heq' htypes'
    refine ⟨callPaths', ?_, fun p => ?_⟩
    · rw [List.foldl_cons, heq]
      exact heq'
    · have hp := htypes' p
      dsimp only at hp
      rw [htypes p] at hp
      exact hp

/-- The state after `constructFinalCFG`, over the call graph `s` and its contraction `t`. -/
structure Finished (r : SCCResult) (s t v : InstrumentIRPass) : Prop where
  contracted : Contracted r s t
  cycles : v.flippedIntraFunctionMap = t.flippedIntraFunctionMap
  callPaths : ∀ p, v.callPaths p = { t.callPaths p with pathType := (v.callPaths p).pathType }
  nodup : v.relevantAllFunctionSet.Nodup
  relevant : ∀ f ∈ v.relevantAllFunctionSet, f ∉ t.flippedIntraFunctionMap.keys ∧
    (f ∈ s.functionMarkSet ∨ f ∈ t.intraFunctionMap.keys)
  callers : ∀ f, v.finalCallerMap.get f = if f ∈ v.relevantAllFunctionSet then
    (t.functionMap.get f).filter fun p => (t.callPaths p).caller ≠ (t.callPaths p).callee ∧
      (t.callPaths p).caller ∈ v.relevantAllFunctionSet else []
  callees : ∀ f, v.finalCalleeMap.get f = if f ∈ v.relevantAllFunctionSet then
    (t.flippedFunctionMap.get f).filter fun p => (t.callPaths p).caller ≠ (t.callPaths p).callee ∧
      (t.callPaths p).callee ∈ v.relevantAllFunctionSet else []
  order : v.topologicalOrder = []

/-- A function without an entry has no final calls; so the test for an entry changes nothing. -/
theorem finalPaths_eq {m : KeyMap String (List ℕ)} (hm : m.Outside []) (other : CallPath → String)
    (f : String) : s.finalPaths m other f =
      (m.get f).filter fun p => (s.callPaths p).caller ≠ (s.callPaths p).callee ∧
        other (s.callPaths p) ∈ s.relevantAllFunctionSet := by
  unfold finalPaths
  split
  · rfl
  · rename_i hkey
    rw [hm f hkey]
    rfl

/-- **The final maps over the contracted graph.** -/
theorem constructFinalCFG_finished (h : Contracted r s t) :
    Finished r s t t.markLoopRelevantFunctions.constructFinalCFG := by
  obtain ⟨hnodup, hrelevant⟩ := h.relevant
  have hcallees : t.markLoopRelevantFunctions.finalCalleeMap = .empty [] := h.callees
  have hcallers : t.markLoopRelevantFunctions.finalCallerMap = .empty [] := h.callers
  have hmap : t.markLoopRelevantFunctions.functionMap = t.functionMap := rfl
  have hflipped : t.markLoopRelevantFunctions.flippedFunctionMap = t.flippedFunctionMap := rfl
  have hpaths : t.markLoopRelevantFunctions.callPaths = t.callPaths := rfl
  have hcycles : t.markLoopRelevantFunctions.flippedIntraFunctionMap = t.flippedIntraFunctionMap :=
    rfl
  have horder : t.markLoopRelevantFunctions.topologicalOrder = [] := h.order
  generalize t.markLoopRelevantFunctions = u at *
  unfold constructFinalCFG
  dsimp only
  have hget := foldl_insert_pair u.relevantAllFunctionSet
    (u.finalPaths u.functionMap CallPath.caller) (u.finalPaths u.flippedFunctionMap CallPath.callee)
    (u.finalCallerMap, u.finalCalleeMap)
  generalize u.relevantAllFunctionSet.foldl _ (u.finalCallerMap, u.finalCalleeMap) = maps at hget ⊢
  obtain ⟨callPaths, heq, htypes⟩ := markBranches_fold u.relevantAllFunctionSet
    { u with finalCallerMap := maps.1, finalCalleeMap := maps.2 }
  rw [heq]
  exact {
    contracted := h
    cycles := hcycles
    callPaths := by
      intro p
      rw [← hpaths]
      exact htypes p
    nodup := hnodup
    relevant := hrelevant
    callers := by
      intro f
      have hf := (hget f).1
      rw [finalPaths_eq (hmap ▸ h.outside), hcallers, hmap, hpaths] at hf
      exact hf
    callees := by
      intro f
      have hf := (hget f).2
      rw [finalPaths_eq (hflipped ▸ h.flippedOutside), hcallees, hflipped, hpaths] at hf
      exact hf
    order := horder }

namespace Finished

theorem callee_eq (h : Finished r s t v) (p : ℕ) :
    (v.callPaths p).callee = (t.callPaths p).callee := by
  rw [h.callPaths p]

theorem caller_eq (h : Finished r s t v) (p : ℕ) :
    (v.callPaths p).caller = (t.callPaths p).caller := by
  rw [h.callPaths p]

theorem mem_callees (h : Finished r s t v) : p ∈ v.finalCalleeMap.get f ↔
    f ∈ v.relevantAllFunctionSet ∧ p ∈ t.flippedFunctionMap.get f ∧
      (t.callPaths p).caller ≠ (t.callPaths p).callee ∧
        (t.callPaths p).callee ∈ v.relevantAllFunctionSet := by
  rw [h.callees f]
  split
  · rename_i hf
    rw [List.mem_filter, decide_eq_true_eq]
    tauto
  · rename_i hf
    simp [hf]

theorem mem_callers (h : Finished r s t v) : p ∈ v.finalCallerMap.get f ↔
    f ∈ v.relevantAllFunctionSet ∧ p ∈ t.functionMap.get f ∧
      (t.callPaths p).caller ≠ (t.callPaths p).callee ∧
        (t.callPaths p).caller ∈ v.relevantAllFunctionSet := by
  rw [h.callers f]
  split
  · rename_i hf
    rw [List.mem_filter, decide_eq_true_eq]
    tauto
  · rename_i hf
    simp [hf]

/-- A call that joins two nodes does not join two cycles, so both ends written in it are right. -/
theorem ends (h : Finished r s t v) (hp : p ∈ s.paths)
    (hne : (t.callPaths p).caller ≠ (t.callPaths p).callee) :
    (t.callPaths p).caller = t.node (s.callPaths p).caller ∧
      (t.callPaths p).callee = t.node (s.callPaths p).callee := by
  refine ⟨h.contracted.caller_eq hp, h.contracted.callee_eq hp ?_⟩
  rintro ⟨hcaller, hcallee⟩
  refine hne ((h.contracted.caller_eq hp).trans ?_)
  exact (h.contracted.inner hp hcaller hcallee).1.symm

theorem finalMaps (h : Finished r s t v) (hs : s.CallGraph) : v.FinalMaps where
  nodup := h.nodup
  nonempty := by
    intro f hf
    rcases (h.relevant f hf).2 with hf | hf
    · exact hs.wellFormed.nonempty f (hs.marks f hf)
    · obtain ⟨n, rfl⟩ := h.contracted.named.exists_intraName hf
      exact intraName_ne_empty n
  calleesNodup := by
    intro f
    rw [h.callees f]
    split
    · exact (h.contracted.flippedNodup f).filter _
    · exact List.nodup_nil
  callersNodup := by
    intro f
    rw [h.callers f]
    split
    · exact (h.contracted.functionMapNodup f).filter _
    · exact List.nodup_nil
  calleesOutside := fun f hf => by rw [h.callees f, if_neg hf]
  callersOutside := fun f hf => by rw [h.callers f, if_neg hf]
  unsorted := h.order

/-- **The final maps agree.** -/
theorem consistent (h : Finished r s t v) : v.Consistent where
  callees := by
    intro f _ p hp
    obtain ⟨-, hlisted, hne, hcallee⟩ := h.mem_callees.mp hp
    obtain ⟨hpath, rfl⟩ := (h.contracted.mem_flipped p f).mp hlisted
    rw [h.callee_eq, h.caller_eq, h.cycles]
    exact ⟨(h.relevant _ hcallee).1, (h.ends hpath hne).1⟩
  callers := by
    intro f _ p hp
    obtain ⟨-, hlisted, hne, hcaller⟩ := h.mem_callers.mp hp
    obtain ⟨hpath, rfl⟩ := (h.contracted.mem_functionMap p f).mp hlisted
    rw [h.callee_eq, h.caller_eq, h.cycles]
    exact ⟨(h.relevant _ hcaller).1, (h.ends hpath hne).2⟩
  calleesListed := by
    intro f hf p hp
    obtain ⟨-, hlisted, hne, hcallee⟩ := h.mem_callees.mp hp
    obtain ⟨hpath, rfl⟩ := (h.contracted.mem_flipped p f).mp hlisted
    obtain ⟨hcaller', hcallee'⟩ := h.ends hpath hne
    rw [h.callee_eq, h.mem_callers]
    refine ⟨hcallee, (h.contracted.mem_functionMap p _).mpr ⟨hpath, hcallee'.symm⟩, hne, ?_⟩
    rwa [hcaller']
  callersListed := by
    intro f hf p hp
    obtain ⟨-, hlisted, hne, hcaller⟩ := h.mem_callers.mp hp
    obtain ⟨hpath, rfl⟩ := (h.contracted.mem_functionMap p f).mp hlisted
    obtain ⟨hcaller', hcallee'⟩ := h.ends hpath hne
    rw [h.caller_eq, h.mem_callees]
    refine ⟨hcaller, (h.contracted.mem_flipped p _).mpr ⟨hpath, hcaller'.symm⟩, hne, ?_⟩
    rwa [hcallee']

/-- A function whose node is relevant is marked. -/
theorem marked_of_node (h : Finished r s t v) (hs : s.CallGraph) (hr : r.Correct s.markedEdges)
    (hf : IsFunction f) (hrelevant : t.node f ∈ v.relevantAllFunctionSet) :
    f ∈ s.functionMarkSet := by
  by_cases hcycle : f ∈ t.flippedIntraFunctionMap.keys
  · exact hs.marked_of_mem hr ((h.contracted.named.functions f).mp hcycle).1
  · rcases (h.relevant _ hrelevant).2 with hmark | hname
    · rwa [node_of_not_mem hcycle] at hmark
    · exact absurd (h.contracted.named.mem_of_node_mem hf hname) hcycle

/-- **The final graph has no cycle**: its edges come from calls between marked functions of
different components. -/
theorem acyclic (h : Finished r s t v) (hs : s.CallGraph) (hr : r.Correct s.markedEdges) :
    v.finalGraph.Acyclic := by
  refine @Multigraph.acyclic_of_contraction _ _ _ String (fun x y => (x, y) ∈ s.markedEdges) t.node
    (· ∈ r.nodeSet) ?_ ?_ ?_
  · intro x y hxy
    exact ⟨(hr.mem x).mpr ⟨y, .inl hxy⟩, (hr.mem y).mpr ⟨x, .inr hxy⟩⟩
  · rintro f g ⟨p, hp, rfl⟩
    obtain ⟨hf, hlisted, hne, hcallee⟩ := h.mem_callees.mp hp
    obtain ⟨hpath, rfl⟩ := (h.contracted.mem_flipped p f).mp hlisted
    obtain ⟨hcaller', hcallee'⟩ := h.ends hpath hne
    have htarget : v.finalGraph.target p = t.node (s.callPaths p).callee :=
      (h.callee_eq p).trans hcallee'
    rw [htarget]
    rw [hcaller', hcallee'] at hne
    refine ⟨hne, _, _, hs.mem_markedEdges.mpr ⟨?_, ?_, p, hpath, rfl, rfl⟩, rfl, rfl⟩
    · exact h.marked_of_node hs hr (hs.isFunction (hs.caller_mem hpath)) hf
    · exact h.marked_of_node hs hr (hs.isFunction (hs.callee_mem hpath)) (hcallee' ▸ hcallee)
  · intro x y hx hy
    have hfunction : ∀ z ∈ r.nodeSet, IsFunction z := fun z hz =>
      hs.isFunction (hs.marks z (hs.marked_of_mem hr hz))
    rw [← SameComponent, ← hr.component x hx y hy]
    constructor
    · intro heq
      by_contra hne
      exact h.contracted.node_ne (hfunction x hx) (hfunction y hy) hne heq
    · intro heq
      by_cases hxy : x = y
      · rw [hxy]
      · have hxc : x ∈ t.flippedIntraFunctionMap.keys :=
          (h.contracted.named.functions x).mpr ⟨hx, y, hy, Ne.symm hxy, heq.symm⟩
        have hyc : y ∈ t.flippedIntraFunctionMap.keys :=
          (h.contracted.named.functions y).mpr ⟨hy, x, hx, hxy, heq⟩
        rw [node_of_mem hxc, node_of_mem hyc]
        exact (h.contracted.named.same x hxc y hyc).mpr heq

end Finished

/-! ## The order -/

variable {callPaths : ℕ → CallPath} {functionMap : KeyMap String (List ℕ)}
  {kosaraju : List (String × String) → SCCResult}

/-- **The analysis returns with a topological order**: no check fails, the sort ends, and the order
has every relevant function once, with the callees of every function before it. -/
theorem pipeline_reaches_order (h : WellFormed callPaths functionMap) (inLoop : ℕ → Bool)
    (hr : (kosaraju (initial callPaths functionMap).doInitialization.markedEdges).Correct
      (initial callPaths functionMap).doInitialization.markedEdges) :
    ∃ s', (initial callPaths functionMap).analyze inLoop kosaraju = .ok s' ∧
      s'.topologicalOrder.Nodup ∧
      (∀ f, f ∈ s'.topologicalOrder ↔ f ∈ s'.relevantAllFunctionSet) ∧
      ∀ before f after, s'.topologicalOrder = before ++ f :: after →
        ∀ p ∈ s'.finalCalleeMap.get f, (s'.callPaths p).callee ∈ before := by
  have hs := doInitialization_callGraph h
  have hcontracted := instrIsInaLoop_contracted hs (doInitialization_fresh (initial_fresh ..))
    inLoop hr
  have hfinished := constructFinalCFG_finished hcontracted
  have hmaps := hfinished.finalMaps hs
  obtain ⟨s', hok⟩ := computeEdgeWeight_ok hmaps hfinished.consistent (hfinished.acyclic hs hr)
  obtain ⟨hshape, hperm, hsorted, -⟩ := computeEdgeWeight_spec hmaps hok
  refine ⟨s', hok, hperm.nodup_iff.mpr hmaps.nodup, fun f => ?_, ?_⟩
  · rw [hshape.relevant]
    exact hperm.mem_iff
  · intro before f after horder p hp
    rw [horder, List.reverse_append, List.reverse_cons, List.append_assoc] at hsorted
    rw [hshape.callees] at hp
    have hmem := hsorted.target_mem_of_append (e := p) hp
    rw [hshape.callee_eq p]
    exact List.mem_reverse.mp hmem

/-- The heap function comes before the pair that calls it. The call of the other pair is lost. -/
theorem pipeline_reaches_order_twoCycles :
    ∃ s', twoCycles.analyze (fun _ => false) (fun _ => twoCyclesComponents) = .ok s' ∧
      s'.topologicalOrder = [intraName 0, "malloc", intraName 1] ∧
      s'.topologicalOrder.Nodup ∧
      (∀ f, f ∈ s'.topologicalOrder ↔ f ∈ s'.relevantAllFunctionSet) ∧
      ∀ before f after, s'.topologicalOrder = before ++ f :: after →
        ∀ p ∈ s'.finalCalleeMap.get f, (s'.callPaths p).callee ∈ before := by
  have hrun : (twoCycles.analyze (fun _ => false) fun _ => twoCyclesComponents).toOption.map
      (fun s' => s'.topologicalOrder) = some [intraName 0, "malloc", intraName 1] := by
    decide +kernel
  obtain ⟨s', hok, hall⟩ := @pipeline_reaches_order _ _ (fun _ => twoCyclesComponents)
    twoCycles_wellFormed (fun _ => false) twoCyclesComponents_correct
  change twoCycles.analyze _ _ = _ at hok
  rw [hok] at hrun
  exact ⟨s', hok, Option.some.inj hrun, hall⟩

end InstrumentIRPass

end Semalloc
