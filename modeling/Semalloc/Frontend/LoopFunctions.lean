import Semalloc.Frontend.LoopRelevance

/-!
# Recursion as a loop

`instrIsInaLoop` takes the functions of every cycle of several functions for loop functions, through
the node of the cycle. A component of one function is no cycle to it, so a function that calls
itself directly counts only when it lies on a longer cycle as well, or is called in a loop of some
function.

## Main definitions

* `OnCallCycle`: a marked function on a cycle of calls of any length
* `LoopMember`: a loop function, or a member of a cycle that is one

## Main results

* `mem_relevantLoopFunctionSet`: the loop functions, exactly
* `recursion_loop_iff`: when all functions on cycles of calls are loop functions
-/

set_option autoImplicit false

namespace Semalloc

namespace InstrumentIRPass

open Relation

variable {r : SCCResult} {s t : InstrumentIRPass} {f g name : String}
  {callPaths : ℕ → CallPath} {functionMap : KeyMap String (List ℕ)}
  {kosaraju : List (String × String) → SCCResult}

/-- Some call of the function lies in a loop of its caller. -/
def CalledInLoop (s : InstrumentIRPass) (inLoop : ℕ → Bool) (f : String) : Prop :=
  ∃ p ∈ s.functionMap.get f, inLoop (s.callPaths p).callInst = true

/-! ## The loop functions -/

/-- One function more is a loop function when it is called in a loop. -/
theorem markSimpleLoops_loops (inLoop : ℕ → Bool) (f : String) :
    g ∈ (s.markSimpleLoops inLoop f).relevantLoopFunctionSet ↔
      g ∈ s.relevantLoopFunctionSet ∨ g = f ∧ s.CalledInLoop inLoop f := by
  have hloop : (s.functionMap.get f).filter (fun p => inLoop (s.callPaths p).callInst) = [] ↔
      ¬ s.CalledInLoop inLoop f := by
    unfold CalledInLoop
    simp [List.filter_eq_nil_iff]
  unfold markSimpleLoops
  dsimp only
  split
  · rename_i hnil
    have hnot := hloop.mp hnil
    tauto
  · rename_i hne
    have hcalled : s.CalledInLoop inLoop f := not_not.mp fun h => hne (hloop.mpr h)
    rw [mem_insertKey]
    tauto

/-- The calls in loops do not depend on the path types. -/
theorem calledInLoop_congr {inLoop : ℕ → Bool} (hmap : t.functionMap = s.functionMap)
    (hinst : ∀ p, (t.callPaths p).callInst = (s.callPaths p).callInst) :
    t.CalledInLoop inLoop f ↔ s.CalledInLoop inLoop f := by
  unfold CalledInLoop
  simp only [hmap, hinst]

theorem markSimpleLoops_fold_loops (inLoop : ℕ → Bool) (fs : List String) (s : InstrumentIRPass) :
    g ∈ (fs.foldl (markSimpleLoops inLoop) s).relevantLoopFunctionSet ↔
      g ∈ s.relevantLoopFunctionSet ∨ g ∈ fs ∧ s.CalledInLoop inLoop g := by
  induction fs generalizing s with
  | nil => simp
  | cons f fs ih =>
    obtain ⟨callPaths, loops, heq, htypes, -⟩ := markSimpleLoops_fold inLoop [f] s
    have hsame : (s.markSimpleLoops inLoop f).CalledInLoop inLoop g ↔ s.CalledInLoop inLoop g := by
      rw [List.foldl_cons, List.foldl_nil] at heq
      rw [heq]
      exact calledInLoop_congr rfl fun p => (congrArg CallPath.callInst (htypes p)).trans rfl
    rw [List.foldl_cons, ih, markSimpleLoops_loops, hsame, List.mem_cons]
    constructor
    · rintro ((hg | ⟨rfl, hg⟩) | ⟨hmem, hg⟩)
      · exact .inl hg
      · exact .inr ⟨.inl rfl, hg⟩
      · exact .inr ⟨.inr hmem, hg⟩
    · rintro (hg | ⟨rfl | hmem, hg⟩)
      · exact .inl (.inl hg)
      · exact .inl (.inr ⟨rfl, hg⟩)
      · exact .inr ⟨hmem, hg⟩

/-- Naming the cycles keeps the loop functions, and adds functions of cycles only. -/
theorem nameCycle_fold_loops (cycles : List (List String)) (s : InstrumentIRPass) :
    (f ∈ s.relevantLoopFunctionSet → f ∈ (cycles.foldl nameCycle s).relevantLoopFunctionSet) ∧
      (f ∈ (cycles.foldl nameCycle s).relevantLoopFunctionSet →
        f ∈ s.relevantLoopFunctionSet ∨ ∃ c ∈ cycles, f ∈ c) := by
  induction cycles generalizing s with
  | nil => exact ⟨id, .inl⟩
  | cons c cycles ih =>
    obtain ⟨hkeep, honly⟩ := ih (s.nameCycle c)
    have hstep : (f ∈ s.relevantLoopFunctionSet → f ∈ (s.nameCycle c).relevantLoopFunctionSet) ∧
        (f ∈ (s.nameCycle c).relevantLoopFunctionSet → f ∈ s.relevantLoopFunctionSet ∨ f ∈ c) := by
      unfold nameCycle
      split
      · exact ⟨fun hf => mem_insertKeys.mpr (.inr hf), fun hf => (mem_insertKeys.mp hf).symm⟩
      · exact ⟨id, .inl⟩
    rw [List.foldl_cons]
    refine ⟨fun hf => hkeep (hstep.1 hf), fun hf => ?_⟩
    rcases honly hf with hf | ⟨c', hc', hf⟩
    · rcases hstep.2 hf with hf | hf
      · exact .inl hf
      · exact .inr ⟨c, List.mem_cons_self, hf⟩
    · exact .inr ⟨c', List.mem_cons_of_mem c hc', hf⟩

/-- What is in no cycle that is contracted stays a loop function or none, and the nodes of the
cycles become loop functions. -/
theorem contractCycle_fold_loops (names : List String) (s : InstrumentIRPass)
    (hf : ∀ n ∈ names, f ∉ s.intraFunctionMap.get n) :
    f ∈ (names.foldl contractCycle s).relevantLoopFunctionSet ↔
      f ∈ s.relevantLoopFunctionSet ∨ f ∈ names := by
  have herase : ∀ (fs l : List String), f ∉ fs → (f ∈ fs.foldl List.erase l ↔ f ∈ l) := by
    intro fs
    induction fs with
    | nil => exact fun l _ => Iff.rfl
    | cons x fs ih =>
      intro l hmem
      rw [List.mem_cons, not_or] at hmem
      rw [List.foldl_cons, ih _ hmem.2, List.mem_erase_of_ne hmem.1]
  induction names generalizing s with
  | nil => simp
  | cons n names ih =>
    have hstep : (s.contractCycle n).relevantLoopFunctionSet =
        (s.intraFunctionMap.get n).foldl List.erase
          (insertKey n s.relevantLoopFunctionSet) := by
      unfold contractCycle
      rw [moveToCycle_fold]
    have hintra : (s.contractCycle n).intraFunctionMap = s.intraFunctionMap := by
      unfold contractCycle
      rw [moveToCycle_fold]
    have hrest : ∀ m ∈ names, f ∉ (s.contractCycle n).intraFunctionMap.get m := by
      rw [hintra]
      exact fun m hm => hf m (List.mem_cons_of_mem n hm)
    rw [List.foldl_cons]
    refine (ih (s.contractCycle n) hrest).trans ?_
    rw [hstep, herase _ _ (hf n List.mem_cons_self), mem_insertKey, List.mem_cons]
    tauto

/-- **The loop functions** after `instrIsInaLoop`: the nodes of the cycles, and the marked functions
that are in no cycle and called in a loop. -/
theorem mem_relevantLoopFunctionSet (hs : s.CallGraph) (hfresh : s.Fresh) (inLoop : ℕ → Bool)
    (hr : (kosaraju s.markedEdges).Correct s.markedEdges)
    (hf : ¬ (kosaraju s.markedEdges).InCycle f) :
    f ∈ (s.instrIsInaLoop inLoop kosaraju).relevantLoopFunctionSet ↔
      (f ∈ s.functionMarkSet ∧ s.CalledInLoop inLoop f) ∨
        f ∈ (s.instrIsInaLoop inLoop kosaraju).intraFunctionMap.keys := by
  have hcontracted := instrIsInaLoop_contracted hs hfresh inLoop hr
  have hloops := markSimpleLoops_fold_loops (g := f) inLoop s.functionMarkSet s
  rw [hfresh.loops] at hloops
  obtain ⟨callPaths, loops, heq, htypes, -⟩ := markSimpleLoops_fold inLoop s.functionMarkSet s
  have hedges : (s.functionMarkSet.foldl (markSimpleLoops inLoop) s).markedEdges =
      s.markedEdges := by
    have hcallee : ∀ p, (callPaths p).callee = (s.callPaths p).callee := fun p => by rw [htypes p]
    have hcaller : ∀ p, (callPaths p).caller = (s.callPaths p).caller := fun p => by rw [htypes p]
    rw [heq]
    unfold markedEdges
    simp only [hcallee, hcaller]
  revert hcontracted
  unfold instrIsInaLoop
  dsimp only
  rw [hedges]
  generalize s.functionMarkSet.foldl (markSimpleLoops inLoop) s = s₁ at hloops
  generalize kosaraju s.markedEdges = r at *
  intro hcontracted
  have hname := nameCycle_fold_loops (f := f) (cyclesOf r)
    { s₁ with functionCycles := s₁.functionCycles ++ cyclesOf r }
  generalize (cyclesOf r).foldl nameCycle
    { s₁ with functionCycles := s₁.functionCycles ++ cyclesOf r } = s₂ at hname hcontracted ⊢
  -- naming changes loop functions of cycles only
  have hnamed : f ∈ s₂.markCycleCalls.relevantLoopFunctionSet ↔ f ∈ s₁.relevantLoopFunctionSet := by
    constructor
    · intro hmem
      rcases hname.2 hmem with hmem | ⟨c, hc, hfc⟩
      · exact hmem
      · obtain ⟨x, ⟨hx, y, hy, hne, hyx⟩, rfl⟩ := (mem_cyclesOf hr.nodup).mp hc
        obtain ⟨hfNode, hfx⟩ := SCCResult.mem_componentOf.mp hfc
        refine absurd ⟨hfNode, ?_⟩ hf
        by_cases hyf : y = f
        · exact ⟨x, hx, fun hxf => hne (hyf.trans hxf.symm), hfx.symm⟩
        · exact ⟨y, hy, hyf, hyx.trans hfx.symm⟩
    · exact hname.1
  generalize s₂.markCycleCalls = s₃ at hnamed hcontracted ⊢
  obtain ⟨loops₃, heq₃, -, -⟩ := contractCycle_fold s₃.intraFunctionMap.keys s₃
  have hintra : (s₃.intraFunctionMap.keys.foldl contractCycle s₃).intraFunctionMap =
      s₃.intraFunctionMap := by rw [heq₃]
  have hmembers : ∀ n ∈ s₃.intraFunctionMap.keys, f ∉ s₃.intraFunctionMap.get n := by
    intro n hn hmem
    rw [← hintra] at hn hmem
    exact hf ((hcontracted.named.functions f).mp ((hcontracted.named.members n hn f).mp hmem).1)
  rw [contractCycle_fold_loops s₃.intraFunctionMap.keys s₃ hmembers, hnamed, hloops, hintra]
  simp only [List.not_mem_nil, false_or]

/-! ## Cycles of calls -/

/-- A marked function on a cycle of calls, of any length. -/
def OnCallCycle (s : InstrumentIRPass) (f : String) : Prop :=
  f ∈ s.functionMarkSet ∧ TransGen s.Calls f f

/-- A loop function, or a member of a cycle whose node is one. -/
def LoopMember (t : InstrumentIRPass) (f : String) : Prop :=
  f ∈ t.relevantLoopFunctionSet ∨
    ∃ name ∈ t.intraFunctionMap.keys, name ∈ t.relevantLoopFunctionSet ∧
      f ∈ t.intraFunctionMap.get name

/-- The calls lead from the function to another one and back. -/
def OnLongCycle (s : InstrumentIRPass) (f : String) : Prop :=
  ∃ g, g ≠ f ∧ ReflTransGen s.Calls f g ∧ ReflTransGen s.Calls g f

/-- Calls that lead to a marked function are edges of the graph of the marked functions. -/
theorem CallGraph.reach_markedEdges (hs : s.CallGraph)
    (hmarked : ∀ f g, s.Calls f g → g ∈ s.functionMarkSet → f ∈ s.functionMarkSet)
    (hg : g ∈ s.functionMarkSet) (hreach : ReflTransGen s.Calls f g) :
    f ∈ s.functionMarkSet ∧ ReflTransGen (fun a b => (a, b) ∈ s.markedEdges) f g := by
  induction hreach using ReflTransGen.head_induction_on with
  | refl => exact ⟨hg, .refl⟩
  | head hcall hrest ih =>
    have ha := hmarked _ _ hcall ih.1
    exact ⟨ha, .head (hs.mem_markedEdges.mpr ⟨ha, ih.1, hcall⟩) ih.2⟩

/-- The cycles of several functions that `kosaraju` finds are those of the calls. -/
theorem CallGraph.inCycle_iff (hs : s.CallGraph) (hr : r.Correct s.markedEdges)
    (hmarked : ∀ f g, s.Calls f g → g ∈ s.functionMarkSet → f ∈ s.functionMarkSet)
    (hf : f ∈ s.functionMarkSet) : r.InCycle f ↔ s.OnLongCycle f := by
  have hcalls : ∀ a b, ReflTransGen (fun a b => (a, b) ∈ s.markedEdges) a b →
      ReflTransGen s.Calls a b := by
    refine ReflTransGen.mono fun a b hab => ?_
    exact (hs.mem_markedEdges.mp hab).2.2
  constructor
  · rintro ⟨hfNode, g, hg, hne, hsame⟩
    obtain ⟨hforth, hback⟩ := (hr.component f hfNode g hg).mp hsame.symm
    exact ⟨g, hne, hcalls f g hforth, hcalls g f hback⟩
  · rintro ⟨g, hne, hforth, hback⟩
    obtain ⟨hg, hback⟩ := hs.reach_markedEdges hmarked hf hback
    obtain ⟨-, hforth⟩ := hs.reach_markedEdges hmarked hg hforth
    -- a path between different functions has a first edge
    obtain ⟨a, hfa, -⟩ := (ReflTransGen.cases_head hforth).resolve_left fun h => hne h.symm
    obtain ⟨b, hgb, -⟩ := (ReflTransGen.cases_head hback).resolve_left hne
    have hfNode : f ∈ r.nodeSet := (hr.mem f).mpr ⟨a, .inl hfa⟩
    have hgNode : g ∈ r.nodeSet := (hr.mem g).mpr ⟨b, .inl hgb⟩
    exact ⟨hfNode, g, hgNode, hne, ((hr.component f hfNode g hgNode).mpr ⟨hforth, hback⟩).symm⟩

/-- A marked function is a loop function, or a member of one, exactly if it lies on a cycle of
several functions or is called in a loop. -/
theorem loopMember_iff (hs : s.CallGraph) (hfresh : s.Fresh) (inLoop : ℕ → Bool)
    (hr : (kosaraju s.markedEdges).Correct s.markedEdges)
    (hmarked : ∀ f g, s.Calls f g → g ∈ s.functionMarkSet → f ∈ s.functionMarkSet)
    (hf : f ∈ s.functionMarkSet) :
    (s.instrIsInaLoop inLoop kosaraju).LoopMember f ↔
      s.OnLongCycle f ∨ s.CalledInLoop inLoop f := by
  have hcontracted := instrIsInaLoop_contracted hs hfresh inLoop hr
  have hloops := fun g => mem_relevantLoopFunctionSet (f := g) hs hfresh inLoop hr
  rw [← hs.inCycle_iff hr hmarked hf]
  generalize s.instrIsInaLoop inLoop kosaraju = t at hcontracted hloops ⊢
  constructor
  · rintro (hmem | ⟨name, hname, -, hmem⟩)
    · by_cases hcycle : (kosaraju s.markedEdges).InCycle f
      · exact .inl hcycle
      · rcases (hloops f hcycle).mp hmem with ⟨-, hcalled⟩ | hkey
        · exact .inr hcalled
        · -- no function has the name of a node
          obtain ⟨n, hn⟩ := hcontracted.named.exists_intraName hkey
          exact absurd hn (hs.isFunction (hs.marks f hf) n)
    · exact .inl ((hcontracted.named.functions f).mp
        ((hcontracted.named.members name hname f).mp hmem).1)
  · intro h
    by_cases hcycle : (kosaraju s.markedEdges).InCycle f
    · have hkey := (hcontracted.named.functions f).mpr hcycle
      obtain ⟨n, hn⟩ := hcontracted.named.named f hkey
      have hname := (hcontracted.named.names (t.flippedIntraFunctionMap.get f)).mpr ⟨f, hkey, rfl⟩
      have hnot : ¬ (kosaraju s.markedEdges).InCycle (t.flippedIntraFunctionMap.get f) := by
        intro hin
        exact hcontracted.cycles _ ((hcontracted.named.functions _).mpr hin) n hn
      refine .inr ⟨t.flippedIntraFunctionMap.get f, hname, ?_, ?_⟩
      · exact (hloops _ hnot).mpr (.inr hname)
      · exact (hcontracted.named.members _ hname f).mpr ⟨hkey, rfl⟩
    · exact .inl ((hloops f hcycle).mpr (.inl ⟨hf, h.resolve_left hcycle⟩))

/-- A cycle of calls goes through another function, or is a call of the function by itself. -/
theorem onLongCycle_or_calls (hcycle : TransGen s.Calls f f) : s.OnLongCycle f ∨ s.Calls f f := by
  obtain ⟨g, hcall, hback⟩ := TransGen.head'_iff.mp hcycle
  by_cases hgf : g = f
  · exact .inr (hgf ▸ hcall)
  · exact .inl ⟨g, hgf, .single hcall, hback⟩

/-- **Recursion as a loop.** All marked functions on cycles of calls become loop functions, or
members of one, exactly when each of them that calls itself directly lies on a cycle of several
functions as well, or is called in a loop. -/
theorem recursion_loop_iff (hwf : WellFormed callPaths functionMap)
    (hnew : ∀ p, (callPaths p).callsHMF = false) (inLoop : ℕ → Bool)
    (hr : (kosaraju (initial callPaths functionMap).doInitialization.markedEdges).Correct
      (initial callPaths functionMap).doInitialization.markedEdges) :
    let s := (initial callPaths functionMap).doInitialization
    let t := s.instrIsInaLoop inLoop kosaraju
    (∀ f, s.OnCallCycle f → t.LoopMember f) ↔
      ∀ f ∈ s.functionMarkSet, s.Calls f f → s.OnLongCycle f ∨ s.CalledInLoop inLoop f := by
  intro s t
  have hs : s.CallGraph := doInitialization_callGraph hwf
  have hmember : ∀ f ∈ s.functionMarkSet,
      (t.LoopMember f ↔ s.OnLongCycle f ∨ s.CalledInLoop inLoop f) := fun f hf =>
    loopMember_iff hs (doInitialization_fresh (initial_fresh ..)) inLoop hr
      (marked_of_calls hwf hnew) hf
  constructor
  · intro hall f hf hcall
    exact (hmember f hf).mp (hall f ⟨hf, .single hcall⟩)
  · rintro hself f ⟨hf, hcycle⟩
    refine (hmember f hf).mpr ?_
    rcases onLongCycle_or_calls hcycle with hlong | hcall
    · exact .inl hlong
    · exact hself f hf hcall

/-- In the two pairs of functions no function calls itself, so all functions of the pairs are members
of loop functions. -/
theorem recursion_loop_iff_twoCycles :
    let s := twoCycles.doInitialization
    let t := s.instrIsInaLoop (fun _ => false) fun _ => twoCyclesComponents
    (∀ f, s.OnCallCycle f → t.LoopMember f) ∧ s.OnCallCycle "eval" ∧ t.LoopMember "eval" := by
  intro s t
  have hall : ∀ f, s.OnCallCycle f → t.LoopMember f := by
    refine (@recursion_loop_iff _ _ (fun _ => twoCyclesComponents) twoCycles_wellFormed (fun _ => rfl)
      (fun _ => false) twoCyclesComponents_correct).mpr ?_
    have hself : ∀ p ∈ s.paths, (s.callPaths p).caller ≠ (s.callPaths p).callee := by decide +kernel
    rintro f - ⟨p, hp, rfl, hcallee⟩
    exact absurd hcallee.symm (hself p hp)
  have hcycle : s.OnCallCycle "eval" :=
    ⟨by decide +kernel, .tail (.single ⟨0, by decide +kernel, by decide +kernel, rfl⟩)
      ⟨1, by decide +kernel, by decide +kernel, by decide +kernel⟩⟩
  exact ⟨hall, hcycle, hall "eval" hcycle⟩

/-- A function that calls itself and allocates. -/
def selfCall : InstrumentIRPass :=
  callGraph ["fill", "malloc"] [(0, "fill", "fill"), (1, "fill", "malloc")]

/-- Its components. -/
def selfCallComponents : SCCResult where
  nodeSet := ["fill", "malloc"]
  sccMap f := if f = "fill" then 0 else 1

theorem selfCall_wellFormed : WellFormed selfCall.callPaths selfCall.functionMap :=
  callGraph_wellFormed (by decide +kernel) (by decide +kernel)

theorem selfCallComponents_correct :
    selfCallComponents.Correct selfCall.doInitialization.markedEdges :=
  SCCResult.correct_of_numbering (by decide +kernel) (by decide +kernel) (by decide +kernel)
    (by decide +kernel)

/-- The function that calls itself is on a cycle of calls, but is no loop function. -/
theorem self_call_no_loop : ¬ ∀ (callPaths : ℕ → CallPath) (functionMap : KeyMap String (List ℕ))
    (inLoop : ℕ → Bool) (kosaraju : List (String × String) → SCCResult),
    WellFormed callPaths functionMap → (∀ p, (callPaths p).callsHMF = false) →
    (kosaraju (initial callPaths functionMap).doInitialization.markedEdges).Correct
      (initial callPaths functionMap).doInitialization.markedEdges →
    let s := (initial callPaths functionMap).doInitialization
    let t := s.instrIsInaLoop inLoop kosaraju
    ∀ f, s.OnCallCycle f → t.LoopMember f := by
  intro hall
  have hloop := hall _ _ (fun _ => false) (fun _ => selfCallComponents) selfCall_wellFormed
    (fun _ => rfl) selfCallComponents_correct "fill"
    ⟨by decide +kernel, .single ⟨0, by decide +kernel, by decide +kernel, by decide +kernel⟩⟩
  have hnone : ¬ (selfCall.doInitialization.instrIsInaLoop (fun _ => false)
      fun _ => selfCallComponents).LoopMember "fill" := by
    unfold LoopMember
    decide +kernel
  exact hnone hloop

end InstrumentIRPass

end Semalloc
