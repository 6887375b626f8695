import Semalloc.Frontend.FinalCallGraph

/-!
# Branching calls inside a cycle

`doModulePass` looks for branching calls inside a cycle under the names of the functions of the
cycle, and passes their instructions to `extendInLoopRecursiveCall`. By then `instrIsInaLoop` has
moved the calls of these functions to the node of the cycle, so the loop finds none.

## Main definitions

* `innerBranchCalls`: the instructions that are passed to `extendInLoopRecursiveCall`

## Main results

* `innerBranchCalls_eq_nil`: there are none
* `inner_branches_tracked`: so every branching call is tracked exactly when there is none
-/

set_option autoImplicit false

namespace Semalloc

namespace InstrumentIRPass

variable {s t u v : InstrumentIRPass} {r : SCCResult} {f g : String} {p q : ℕ}

/-- The loop of `doModulePass` over the functions of cycles: the instructions that it passes to
`extendInLoopRecursiveCall`, in order. -/
def innerBranchCalls (s : InstrumentIRPass) : List ℕ :=
  s.flippedIntraFunctionMap.keys.flatMap fun f =>
    ((s.functionMap.get f).filter fun p => (s.callPaths p).pathType = .markInnerBranch).map
      fun p => (s.callPaths p).callInst

/-- What the passes after `instrIsInaLoop` leave alone. -/
structure SameNodes (s t : InstrumentIRPass) : Prop where
  functionMap : t.functionMap = s.functionMap
  cycles : t.flippedIntraFunctionMap = s.flippedIntraFunctionMap

namespace SameNodes

theorem refl (s : InstrumentIRPass) : SameNodes s s := ⟨rfl, rfl⟩

theorem trans (h : SameNodes s t) (h' : SameNodes t u) : SameNodes s u :=
  ⟨h'.functionMap.trans h.functionMap, h'.cycles.trans h.cycles⟩

/-- What one step leaves alone, a loop leaves alone. -/
theorem foldl {α : Type} {step : InstrumentIRPass → α → InstrumentIRPass}
    (hstep : ∀ s x, SameNodes s (step s x)) (l : List α) (s : InstrumentIRPass) :
    SameNodes s (l.foldl step s) := by
  induction l generalizing s with
  | nil => exact .refl s
  | cons x l ih => exact (hstep s x).trans (ih (step s x))

end SameNodes

theorem constructFinalCFG_sameNodes (s : InstrumentIRPass) : SameNodes s s.constructFinalCFG := by
  have hmark : ∀ (s : InstrumentIRPass) (f : String), SameNodes s (s.markBranches f) := by
    intro s f
    unfold markBranches
    split <;> exact ⟨rfl, rfl⟩
  unfold constructFinalCFG
  dsimp only
  generalize s.relevantAllFunctionSet.foldl _ (s.finalCallerMap, s.finalCalleeMap) = maps
  have h := SameNodes.foldl hmark s.relevantAllFunctionSet
    { s with finalCallerMap := maps.1, finalCalleeMap := maps.2 }
  exact ⟨h.functionMap, h.cycles⟩

theorem assignWeights_sameNodes (ps : List ℕ) (w : BitVec 32) (s : InstrumentIRPass) :
    SameNodes s (s.assignWeights ps w).1 := by
  induction ps generalizing s w with
  | nil => exact .refl s
  | cons p ps ih => exact .trans (t := s.setWeight p w) ⟨rfl, rfl⟩ (ih _ _)

theorem computeEdgeWeight_sameNodes (hok : s.computeEdgeWeight = .ok t) : SameNodes s t := by
  obtain ⟨-, order, -, rfl⟩ := computeEdgeWeight_eq_ok.mp hok
  refine SameNodes.trans (t := { s with topologicalOrder := order }) ⟨rfl, rfl⟩
    (SameNodes.foldl (fun s f => ?_) _ _)
  have h := assignWeights_sameNodes (s.finalCalleeMap.get f) 0 s
  exact ⟨h.functionMap, h.cycles⟩

theorem carryWeights_sameNodes (s : InstrumentIRPass) : SameNodes s s.carryWeights := by
  unfold carryWeights
  refine SameNodes.foldl (fun s f => SameNodes.foldl (fun s p => ?_) _ s) _ s
  unfold carryEdge
  dsimp only
  split
  · split <;> exact ⟨rfl, rfl⟩
  · exact .refl s

/-- The functions of cycles have no calls left under their own names. -/
theorem Contracted.functionMap_eq_nil (h : Contracted r s t)
    (hf : f ∈ t.flippedIntraFunctionMap.keys) : t.functionMap.get f = [] := by
  rw [List.eq_nil_iff_forall_not_mem]
  intro p hp
  obtain ⟨-, rfl⟩ := (h.mem_functionMap p f).mp hp
  exact h.named.node_not_mem h.cycles _ hf

/-- **No instruction is passed to `extendInLoopRecursiveCall`.** -/
theorem innerBranchCalls_eq_nil (h : Contracted r s t) (hsame : SameNodes t u) :
    u.innerBranchCalls = [] := by
  unfold innerBranchCalls
  rw [hsame.functionMap, hsame.cycles, List.flatMap_eq_nil_iff]
  intro f hf
  rw [h.functionMap_eq_nil hf]
  rfl

/-- **Which calls are left as branching calls inside a cycle**: those between functions of cycles
whose callee is called more than once. -/
theorem Contracted.innerBranch_iff (h : Contracted r s t)
    (hnew : ∀ p, (s.callPaths p).pathType = .default) (hp : p ∈ s.paths) :
    (t.callPaths p).pathType = .markInnerBranch ↔
      r.InCycle (s.callPaths p).caller ∧ r.InCycle (s.callPaths p).callee ∧
        (s.functionMap.get (s.callPaths p).callee).length > 1 := by
  rw [← h.named.functions, ← h.named.functions]
  by_cases hends : (s.callPaths p).caller ∈ t.flippedIntraFunctionMap.keys ∧
      (s.callPaths p).callee ∈ t.flippedIntraFunctionMap.keys
  · rw [(h.inner hp hends.1 hends.2).2]
    split
    · rename_i hlen
      exact ⟨fun _ => ⟨hends.1, hends.2, hlen⟩, fun _ => rfl⟩
    · rename_i hlen
      exact ⟨fun heq => (nomatch heq), fun hall => absurd hall.2.2 hlen⟩
  · constructor
    · intro htype
      obtain ⟨pathType, hold, heq⟩ := h.callPaths p hp
      rw [heq] at htype
      unfold contractedPath at htype
      dsimp only at htype
      split at htype
      · rename_i hcaller
        rw [if_neg fun hcallee => hends ⟨hcaller, hcallee⟩] at htype
        cases htype
      · split at htype
        · cases htype
        · -- a call outside the cycles keeps its type
          rw [hnew p] at hold
          rcases hold with rfl | rfl <;> cases htype
    · rintro ⟨hcaller, hcallee, -⟩
      exact absurd ⟨hcaller, hcallee⟩ hends

variable {callPaths : ℕ → CallPath} {functionMap : KeyMap String (List ℕ)}
  {kosaraju : List (String × String) → SCCResult}

/-- **Tracking of branching calls.** The analysis returns, and then every instruction of a call that
is left as a branching call inside a cycle is passed to `extendInLoopRecursiveCall` once exactly when
no function of a cycle that is called from one is called more than once. -/
theorem inner_branches_tracked (h : WellFormed callPaths functionMap)
    (hnew : ∀ p, (callPaths p).pathType = .default) (inLoop : ℕ → Bool)
    (hr : (kosaraju (initial callPaths functionMap).doInitialization.markedEdges).Correct
      (initial callPaths functionMap).doInitialization.markedEdges) :
    let s := (initial callPaths functionMap).doInitialization
    let r := kosaraju s.markedEdges
    let t := s.instrIsInaLoop inLoop kosaraju
    ∃ s', (initial callPaths functionMap).analyze inLoop kosaraju = .ok s' ∧
      ((∀ p ∈ s.paths, (t.callPaths p).pathType = .markInnerBranch →
          s'.carryWeights.innerBranchCalls.count (t.callPaths p).callInst = 1) ↔
        ∀ p ∈ (initial callPaths functionMap).paths, r.InCycle (callPaths p).caller →
          r.InCycle (callPaths p).callee → (functionMap.get (callPaths p).callee).length ≤ 1) := by
  intro s r t
  have hs : s.CallGraph := doInitialization_callGraph h
  have hcontracted : Contracted r s t :=
    instrIsInaLoop_contracted hs (doInitialization_fresh (initial_fresh ..)) inLoop hr
  have hfinished := constructFinalCFG_finished hcontracted
  obtain ⟨s', hok⟩ := computeEdgeWeight_ok (hfinished.finalMaps hs) hfinished.consistent
    (hfinished.acyclic hs hr)
  refine ⟨s', hok, ?_⟩
  have hsame : SameNodes t s'.carryWeights :=
    SameNodes.trans (t := t.markLoopRelevantFunctions) ⟨rfl, rfl⟩
      ((constructFinalCFG_sameNodes _).trans
        ((computeEdgeWeight_sameNodes hok).trans (carryWeights_sameNodes s')))
  rw [innerBranchCalls_eq_nil hcontracted hsame]
  have hkept : ∀ p, (s.callPaths p).pathType = (callPaths p).pathType ∧
      (s.callPaths p).callee = (callPaths p).callee ∧
      (s.callPaths p).caller = (callPaths p).caller ∧
      (s.callPaths p).callInst = (callPaths p).callInst ∧ s.functionMap = functionMap :=
    doInitialization_callPaths (initial callPaths functionMap)
  clear_value s
  have hpaths : s.paths = (initial callPaths functionMap).paths := by
    unfold paths
    rw [(hkept 0).2.2.2.2]
    rfl
  have hbranch : ∀ p ∈ s.paths, ((t.callPaths p).pathType = .markInnerBranch ↔
      r.InCycle (callPaths p).caller ∧ r.InCycle (callPaths p).callee ∧
        (functionMap.get (callPaths p).callee).length > 1) := by
    intro p hp
    have hiff := hcontracted.innerBranch_iff (fun q => (hkept q).1.trans (hnew q)) hp
    rwa [(hkept p).2.1, (hkept p).2.2.1, (hkept p).2.2.2.2] at hiff
  constructor
  · intro hall p hp hcaller hcallee
    by_contra hlen
    have hone := hall p (hpaths ▸ hp) ((hbranch p (hpaths ▸ hp)).mpr ⟨hcaller, hcallee, by omega⟩)
    simp at hone
  · intro hnone p hp htype
    obtain ⟨hcaller, hcallee, hlen⟩ := (hbranch p hp).mp htype
    have hle := hnone p (hpaths ▸ hp) hcaller hcallee
    omega

/-- In two functions that call each other, and that nothing else calls, no call is left as a branching
call. -/
theorem inner_branches_tracked_mutualPair :
    let s := mutualPair.doInitialization
    let t := s.instrIsInaLoop (fun _ => false) fun _ => mutualPairComponents
    ∃ s', mutualPair.analyze (fun _ => false) (fun _ => mutualPairComponents) = .ok s' ∧
      (∀ p ∈ s.paths, (t.callPaths p).pathType = .markInnerBranch →
          s'.carryWeights.innerBranchCalls.count (t.callPaths p).callInst = 1) ∧
      [0, 1].map (fun p => (t.callPaths p).pathType) = [.markSimpleInner, .markSimpleInner] := by
  have hone : ∀ p ∈ mutualPair.paths,
      (mutualPair.functionMap.get (mutualPair.callPaths p).callee).length ≤ 1 := by decide +kernel
  have htracked : let s := mutualPair.doInitialization
      let t := s.instrIsInaLoop (fun _ => false) fun _ => mutualPairComponents
      ∃ s', mutualPair.analyze (fun _ => false) (fun _ => mutualPairComponents) = .ok s' ∧
        ((∀ p ∈ s.paths, (t.callPaths p).pathType = .markInnerBranch →
            s'.carryWeights.innerBranchCalls.count (t.callPaths p).callInst = 1) ↔
          ∀ p ∈ mutualPair.paths, mutualPairComponents.InCycle (mutualPair.callPaths p).caller →
            mutualPairComponents.InCycle (mutualPair.callPaths p).callee →
              (mutualPair.functionMap.get (mutualPair.callPaths p).callee).length ≤ 1) :=
    @inner_branches_tracked _ _ (fun _ => mutualPairComponents) mutualPair_wellFormed
      (fun _ => rfl) (fun _ => false) mutualPairComponents_correct
  obtain ⟨s', hok, hiff⟩ := htracked
  exact ⟨s', hok, hiff.mpr fun p hp _ _ => hone p hp, by decide +kernel⟩

/-- In two functions that call each other, where one is also called from outside, the call back is
never tracked. -/
theorem inner_branch_untracked :
    let t := twoCycles.doInitialization.instrIsInaLoop (fun _ => false) fun _ => twoCyclesComponents
    (t.callPaths 4).pathType = .markInnerBranch ∧
      ∃ s', twoCycles.analyze (fun _ => false) (fun _ => twoCyclesComponents) = .ok s' ∧
        s'.carryWeights.innerBranchCalls.count (t.callPaths 4).callInst = 0 := by
  have hrun : (twoCycles.analyze (fun _ => false) fun _ => twoCyclesComponents).toOption.map
      (fun s' => s'.carryWeights.innerBranchCalls.count 4) = some 0 := by decide +kernel
  intro t
  refine ⟨by decide +kernel, ?_⟩
  have hinst : (t.callPaths 4).callInst = 4 := by decide +kernel
  rw [hinst]
  cases hok : twoCycles.analyze (fun _ => false) fun _ => twoCyclesComponents with
  | error e =>
    rw [hok] at hrun
    cases hrun
  | ok s' =>
    rw [hok] at hrun
    exact ⟨s', rfl, Option.some.inj hrun⟩

end InstrumentIRPass

end Semalloc
