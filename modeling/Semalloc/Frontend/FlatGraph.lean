import Semalloc.Frontend.CarryWeights
import Semalloc.Frontend.ContextWidth
import Semalloc.Frontend.InnerBranches
import Semalloc.Frontend.LoopRelevance

/-!
# Final call graphs without cycles

Where no function is on a cycle of several functions, the final call graph has no nodes of cycles.
Then the calls keep their ends, a function that is called more than once has only marked calls, and
every relevant function that is not a heap function calls another relevant one: so all paths of
calls lead on to a heap function.

## Main definitions

* `Continues`: a set of functions that the calls do not leave at once
* `Placed`: a final call graph in order, in which an instruction is in one function
* `Flat`: a final call graph without nodes of cycles, in order and with weights

## Main results

* `constructFinalCFG_pathType`: which calls are marked as branches
* `relevant_continues`: a relevant function that is not a heap function calls a relevant one
* `placed_of_analyze`: what the analysis leaves of any call graph
* `flat_of_analyze`: what the analysis leaves of a call graph without cycles
-/

set_option autoImplicit false

namespace Semalloc

namespace InstrumentIRPass

open Relation Multigraph

variable {s t u v : InstrumentIRPass} {r : SCCResult} {f g l : String} {p q : ℕ}

/-! ## Marks of branches -/

/-- The call has no mark, and calls a function with several final calls. -/
def IsBranch (s : InstrumentIRPass) (p : ℕ) (f : String) : Prop :=
  (s.finalCallerMap.get f).length > 1 ∧ p ∈ s.finalCallerMap.get f ∧
    (s.callPaths p).pathType = .default

theorem markBranches_pathType (hnodup : ∀ f, (s.finalCallerMap.get f).Nodup) :
    (s.IsBranch p f → ((s.markBranches f).callPaths p).pathType = .markBranch) ∧
      (¬ s.IsBranch p f →
        ((s.markBranches f).callPaths p).pathType = (s.callPaths p).pathType) := by
  unfold IsBranch markBranches
  by_cases hlen : (s.finalCallerMap.get f).length > 1
  · rw [if_pos hlen]
    dsimp only
    by_cases hp : p ∈ s.finalCallerMap.get f
    · rw [modifyAll_of_mem (hnodup f) hp]
      by_cases hdefault : (s.callPaths p).pathType = .default
      · rw [if_pos hdefault]
        exact ⟨fun _ => rfl, fun hnot => absurd ⟨hlen, hp, hdefault⟩ hnot⟩
      · rw [if_neg hdefault]
        exact ⟨fun h => absurd h.2.2 hdefault, fun _ => rfl⟩
    · rw [modifyAll_of_not_mem hp]
      exact ⟨fun h => absurd h.2.1 hp, fun _ => rfl⟩
  · rw [if_neg hlen]
    exact ⟨fun h => absurd h.1 hlen, fun _ => rfl⟩

/-- A loop over functions marks the calls without a mark of those with several final calls. -/
theorem markBranches_fold_pathType (fs : List String)
    (hnodup : ∀ f, (s.finalCallerMap.get f).Nodup) :
    ((∃ f ∈ fs, s.IsBranch p f) →
        ((fs.foldl markBranches s).callPaths p).pathType = .markBranch) ∧
      ((∀ f ∈ fs, ¬ s.IsBranch p f) →
        ((fs.foldl markBranches s).callPaths p).pathType = (s.callPaths p).pathType) := by
  induction fs generalizing s with
  | nil =>
    refine ⟨?_, fun _ => rfl⟩
    rintro ⟨f, hf, -⟩
    cases hf
  | cons f fs ih =>
    have hcallers : (s.markBranches f).finalCallerMap = s.finalCallerMap := by
      unfold markBranches
      split <;> rfl
    obtain ⟨hmark, hkeep⟩ := markBranches_pathType (p := p) (f := f) hnodup
    obtain ⟨hrestMark, hrestKeep⟩ := ih (s := s.markBranches f) (by rwa [hcallers])
    -- a call with a mark keeps it
    have hmarked : ((s.markBranches f).callPaths p).pathType ≠ .default →
        ∀ g ∈ fs, ¬ (s.markBranches f).IsBranch p g := fun hne g _ hbranch => hne hbranch.2.2
    rw [List.foldl_cons]
    by_cases hbranch : s.IsBranch p f
    · have htype := hmark hbranch
      have hrest := hrestKeep (hmarked (by rw [htype]; decide))
      refine ⟨fun _ => hrest.trans htype, fun hnone => ?_⟩
      exact absurd hbranch (hnone f List.mem_cons_self)
    · have htype := hkeep hbranch
      have hsame : ∀ g, (s.markBranches f).IsBranch p g ↔ s.IsBranch p g := by
        intro g
        unfold IsBranch
        rw [hcallers, htype]
      refine ⟨?_, fun hnone => ?_⟩
      · rintro ⟨g, hg, hgBranch⟩
        rcases List.mem_cons.mp hg with rfl | hg
        · exact absurd hgBranch hbranch
        · exact hrestMark ⟨g, hg, (hsame g).mpr hgBranch⟩
      · have hrest := hrestKeep fun g hg hgBranch =>
          hnone g (List.mem_cons_of_mem f hg) ((hsame g).mp hgBranch)
        rw [hrest, htype]

theorem constructFinalCFG_relevant (s : InstrumentIRPass) :
    s.constructFinalCFG.relevantAllFunctionSet = s.relevantAllFunctionSet := by
  unfold constructFinalCFG
  dsimp only
  generalize s.relevantAllFunctionSet.foldl _ (s.finalCallerMap, s.finalCalleeMap) = maps
  obtain ⟨callPaths, heq, -⟩ := markBranches_fold s.relevantAllFunctionSet
    { s with finalCallerMap := maps.1, finalCalleeMap := maps.2 }
  rw [heq]

/-- **Which calls are marked as branches** in the final call graph. -/
theorem constructFinalCFG_pathType (s : InstrumentIRPass)
    (hnodup : ∀ f, (s.constructFinalCFG.finalCallerMap.get f).Nodup) :
    s.constructFinalCFG.BranchesMarked ∧
      ∀ p, (s.constructFinalCFG.callPaths p).pathType = .markBranch ∨
        (s.constructFinalCFG.callPaths p).pathType = (s.callPaths p).pathType := by
  unfold constructFinalCFG at hnodup ⊢
  dsimp only at hnodup ⊢
  generalize s.relevantAllFunctionSet.foldl _ (s.finalCallerMap, s.finalCalleeMap) = maps at hnodup ⊢
  obtain ⟨callPaths, heq, -⟩ := markBranches_fold s.relevantAllFunctionSet
    { s with finalCallerMap := maps.1, finalCalleeMap := maps.2 }
  have hcallers : (s.relevantAllFunctionSet.foldl markBranches
      { s with finalCallerMap := maps.1, finalCalleeMap := maps.2 }).finalCallerMap = maps.1 := by
    rw [heq]
  have hrelevant : (s.relevantAllFunctionSet.foldl markBranches
      { s with finalCallerMap := maps.1, finalCalleeMap := maps.2 }).relevantAllFunctionSet =
        s.relevantAllFunctionSet := by
    rw [heq]
  rw [hcallers] at hnodup
  have htypes := fun p => markBranches_fold_pathType (p := p) s.relevantAllFunctionSet
    (s := { s with finalCallerMap := maps.1, finalCalleeMap := maps.2 }) hnodup
  constructor
  · intro f hf hlen p hp htype
    rw [hrelevant] at hf
    rw [hcallers] at hlen hp
    obtain ⟨hmark, hkeep⟩ := htypes p
    by_cases hbranch : ∃ g ∈ s.relevantAllFunctionSet,
        IsBranch { s with finalCallerMap := maps.1, finalCalleeMap := maps.2 } p g
    · rw [hmark hbranch] at htype
      cases htype
    · rw [hkeep fun g hg hgBranch => hbranch ⟨g, hg, hgBranch⟩] at htype
      exact hbranch ⟨f, hf, hlen, hp, htype⟩
  · intro p
    obtain ⟨hmark, hkeep⟩ := htypes p
    by_cases hbranch : ∃ g ∈ s.relevantAllFunctionSet,
        IsBranch { s with finalCallerMap := maps.1, finalCalleeMap := maps.2 } p g
    · exact .inl (hmark hbranch)
    · exact .inr (hkeep fun g hg hgBranch => hbranch ⟨g, hg, hgBranch⟩)

/-! ## Calls that lead on -/

/-- A path that ends elsewhere leaves its start for another vertex. -/
theorem exists_leave {α : Type} {R : α → α → Prop} {a b : α} (h : ReflTransGen R a b) :
    a = b ∨ ∃ c, c ≠ a ∧ R a c ∧ ReflTransGen R c b := by
  induction h using ReflTransGen.head_induction_on with
  | refl => exact .inl rfl
  | @head x y hstep hrest ih =>
    by_cases hyx : y = x
    · subst hyx
      exact ih
    · exact .inr ⟨y, hyx, hstep, hrest⟩

/-- A function of the set that makes a marked call of another function makes one of a function of
the set. -/
def Continues (s : InstrumentIRPass) (met : String → Prop) : Prop :=
  ∀ f, met f → (∃ g, g ≠ f ∧ s.CallsMarked f g) → ∃ g, g ≠ f ∧ s.CallsMarked f g ∧ met g

/-- What reaches a marked function is marked. -/
theorem SearchGraph.marked_of_reach (h : SearchGraph s t) (hg : g ∈ s.functionMarkSet)
    (hreach : ReflTransGen s.Calls f g) : f ∈ s.functionMarkSet := by
  rcases (h.callsMarked_of_calls hg hreach).cases_head with rfl | ⟨x, hcall, -⟩
  · exact hg
  · exact hcall.2.1

/-- **One more loop function**: what is met above it leads to it, and all callees of what is met below
it are met. -/
theorem Continues.meet {met : String → Prop} (h : SearchGraph s t) (hmet : s.Continues met)
    (hl : l ∈ s.functionMarkSet) : s.Continues (s.meet met l) := by
  have hbelow : ∀ f g, s.CallsMarked f g → (f = l ∨ s.MetBelow (fun f => (f = l ∨ met f) ∨
      s.MetAbove (fun f => f = l ∨ met f) l f) l f) → s.meet met l g := by
    intro f g hcall hf
    by_cases hg : (g = l ∨ met g) ∨ s.MetAbove (fun f => f = l ∨ met f) l g
    · exact .inl hg
    · refine .inr ?_
      rcases hf with rfl | ⟨x, hx, hnew, hreach⟩
      · exact ⟨g, hcall, hg, .refl⟩
      · exact ⟨x, hx, hnew, hreach.tail ⟨hcall.1, hg⟩⟩
  rintro f (((rfl | hf) | hf) | hf) ⟨g, hne, hcall⟩
  · exact ⟨g, hne, hcall, hbelow f g hcall (.inl rfl)⟩
  · obtain ⟨x, hx, hxCall, hxMet⟩ := hmet f hf ⟨g, hne, hcall⟩
    exact ⟨x, hx, hxCall, .inl (.inl (.inr hxMet))⟩
  · obtain ⟨x, hx, hnew, hreach⟩ := hf
    rcases exists_leave hreach with rfl | ⟨y, hy, ⟨hyCall, -⟩, hrest⟩
    · exact ⟨l, fun heq => hnew (.inl heq.symm), hx, .inl (.inl (.inl rfl))⟩
    · have hyMarked := h.marked_of_reach hx.2.1 (hrest.lift id fun _ _ hab => hab.1)
      exact ⟨y, hy, ⟨hyCall, hcall.2.1, hyMarked⟩, .inl (.inr ⟨x, hx, hnew, hrest⟩)⟩
  · exact ⟨g, hne, hcall, hbelow f g hcall (.inr hf)⟩

theorem continues_met (h : SearchGraph s t) {loops : List String}
    (hloops : ∀ l ∈ loops, l ∈ s.functionMarkSet) : s.Continues (s.Met loops) := by
  have hfold : ∀ (loops : List String) (met : String → Prop), (∀ l ∈ loops, l ∈ s.functionMarkSet) →
      s.Continues met → s.Continues (loops.foldl s.meet met) := by
    intro loops
    induction loops with
    | nil => exact fun _ _ hmet => hmet
    | cons l loops ih =>
      intro met hloops hmet
      exact ih _ (fun a ha => hloops a (List.mem_cons_of_mem l ha))
        (hmet.meet h (hloops l List.mem_cons_self))
  exact hfold loops _ hloops fun _ hf => hf.elim

variable {callPaths : ℕ → CallPath} {functionMap : KeyMap String (List ℕ)}
  {kosaraju : List (String × String) → SCCResult}

/-- A marked function that is not a heap function calls another marked function. -/
theorem exists_callsMarked (hwf : WellFormed callPaths functionMap)
    (hnew : ∀ p, (callPaths p).callsHMF = false)
    (hf : f ∈ (initial callPaths functionMap).doInitialization.functionMarkSet)
    (hheap : f ∉ initialHeapFunctions) :
    ∃ g, g ≠ f ∧ (initial callPaths functionMap).doInitialization.CallsMarked f g := by
  have hmarked := fun f => mem_functionMarkSet (f := f) hwf hnew
  unfold CallsMarked
  rw [doInitialization_calls]
  rcases (hmarked f).mp hf with ⟨x, hreach, hx⟩ | ⟨x, hx⟩
  · rcases exists_leave hreach with rfl | ⟨y, hy, hyCall, hrest⟩
    · -- the first heap call of a function is recorded
      obtain ⟨h, hs, hlist⟩ := List.exists_cons_of_ne_nil hx
      have hmem : h ∈ (initial callPaths functionMap).heapCallees f := hlist ▸ List.mem_cons_self
      obtain ⟨hcall, hheap'⟩ := mem_heapCallees.mp hmem
      have hrecorded : (initial callPaths functionMap).Recorded f h := by
        left
        rw [hlist]
        exact List.mem_cons_self
      exact ⟨h, fun heq => hheap (heq ▸ hheap'), hcall, hf, (hmarked h).mpr (.inr ⟨f, hrecorded⟩)⟩
    · exact ⟨y, hy, hyCall, hf, (hmarked y).mpr (.inl ⟨x, hrest, hx⟩)⟩
  · exact absurd (mem_heapCallees.mp hx.mem_heapCallees).2 hheap

/-- **A relevant function that is not a heap function calls another relevant function.** -/
theorem relevant_continues (hwf : WellFormed callPaths functionMap)
    (hnew : ∀ p, (callPaths p).callsHMF = false)
    (h : SearchGraph (initial callPaths functionMap).doInitialization t)
    (hkeys : t.flippedIntraFunctionMap.keys = []) (hall : t.relevantAllFunctionSet = [])
    (hf : f ∈ t.markLoopRelevantFunctions.relevantAllFunctionSet) (hheap : f ∉ initialHeapFunctions) :
    ∃ g, g ≠ f ∧ (initial callPaths functionMap).doInitialization.Calls f g ∧
      g ∈ t.markLoopRelevantFunctions.relevantAllFunctionSet := by
  obtain ⟨hmet, hmark⟩ := (h.mem_relevant hkeys hall).mp hf
  obtain ⟨g, hne, hcall, hgMet⟩ :=
    continues_met h h.loops f hmet (exists_callsMarked hwf hnew hmark hheap)
  exact ⟨g, hne, hcall.1, (h.mem_relevant hkeys hall).mpr ⟨hgMet, hcall.2.2⟩⟩

/-! ## What the analysis leaves -/

/-- A final call graph in order. A call instruction is in one node, and no code was put around the
calls inside cycles. -/
structure Placed (t : InstrumentIRPass) : Prop where
  ordered : t.Ordered
  nodup : t.relevantAllFunctionSet.Nodup
  relevant : ∀ f, f ∈ t.topologicalOrder ↔ f ∈ t.relevantAllFunctionSet
  sites : ∀ f g, ∀ p ∈ t.finalCalleeMap.get f, ∀ q ∈ t.finalCalleeMap.get g,
    (t.callPaths p).callInst = (t.callPaths q).callInst → f = g
  inner : t.carryWeights.innerBranchCalls = []

/-- The contraction of the cycles keeps the instructions. -/
theorem Contracted.callInst_eq (h : Contracted r s t) (hp : p ∈ s.paths) :
    (t.callPaths p).callInst = (s.callPaths p).callInst := by
  obtain ⟨pathType, -, heq⟩ := h.callPaths p hp
  rw [heq]
  unfold contractedPath
  dsimp only
  split <;> split <;> rfl

theorem Finished.callInst_eq (h : Finished r s t v) (hp : p ∈ s.paths) :
    (v.callPaths p).callInst = (s.callPaths p).callInst := by
  rw [h.callPaths p]
  exact h.contracted.callInst_eq hp

/-- **What the last passes leave** of a contracted call graph. -/
theorem Finished.placed (h : Finished r s t v) (hs : s.CallGraph) (hsame : SameNodes t v)
    (hsites : ∀ p ∈ s.paths, ∀ q ∈ s.paths,
      (s.callPaths p).callInst = (s.callPaths q).callInst →
        (s.callPaths p).caller = (s.callPaths q).caller)
    (hbranches : v.BranchesMarked) (hok : v.computeEdgeWeight = .ok u) : u.Placed := by
  have hmaps := h.finalMaps hs
  obtain ⟨hshape, hperm, -⟩ := computeEdgeWeight_spec hmaps hok
  refine {
    ordered := Ordered.of_computeEdgeWeight hmaps hbranches hok
    nodup := hshape.relevant ▸ hmaps.nodup
    relevant := fun f => hshape.relevant ▸ hperm.mem_iff
    sites := ?_
    inner := innerBranchCalls_eq_nil h.contracted
      (hsame.trans ((computeEdgeWeight_sameNodes hok).trans (carryWeights_sameNodes u))) }
  -- the two calls are in nodes of their functions
  have hcall : ∀ f, ∀ p ∈ u.finalCalleeMap.get f, p ∈ s.paths ∧ t.node (s.callPaths p).caller = f ∧
      (u.callPaths p).callInst = (s.callPaths p).callInst := by
    intro f p hp
    rw [hshape.callees] at hp
    obtain ⟨-, hlisted, -⟩ := h.mem_callees.mp hp
    obtain ⟨hpath, hnode⟩ := (h.contracted.mem_flipped p f).mp hlisted
    refine ⟨hpath, hnode, ?_⟩
    rw [hshape.callPaths p]
    exact h.callInst_eq hpath
  intro f g p hp q hq hinst
  obtain ⟨hpath, rfl, hkept⟩ := hcall f p hp
  obtain ⟨hpath', rfl, hkept'⟩ := hcall g q hq
  rw [hkept, hkept'] at hinst
  rw [hsites p hpath q hpath' hinst]

/-- A final call graph without nodes of cycles, with weights: every path of calls leads on to a heap
function. -/
structure Flat (t : InstrumentIRPass) : Prop extends Placed t where
  callers : ∀ f, ∀ p ∈ t.finalCallerMap.get f,
    (t.callPaths p).callee = f ∧ p ∈ t.finalCalleeMap.get (t.callPaths p).caller
  types : ∀ f, ∀ p ∈ t.finalCalleeMap.get f, (t.callPaths p).pathType ≠ .markSimpleInner ∧
    (t.callPaths p).pathType ≠ .markInnerBranch
  cycles : t.flippedIntraFunctionMap.keys = []
  weights : ∀ f, ∀ p ∈ t.finalCalleeMap.get f,
    (t.callPaths p).edgeWeight = BitVec.ofNat 32 (t.pathNumber f [p])
  ends : ∀ f ∈ t.topologicalOrder, t.finalCalleeMap.get f = [] → f ∈ initialHeapFunctions

/-- The weight of a call is the number of call paths to its left. -/
theorem computeEdgeWeight_edgeWeight (hs : s.FinalMaps) (hok : s.computeEdgeWeight = .ok t)
    (hp : p ∈ t.finalCalleeMap.get f) :
    (t.callPaths p).edgeWeight = BitVec.ofNat 32 (t.pathNumber f [p]) := by
  obtain ⟨hshape, -⟩ := computeEdgeWeight_spec hs hok
  have hedge : p ∈ s.finalGraph.out f := by
    change p ∈ s.finalCalleeMap.get f
    rwa [← hshape.callees]
  have hweight := computeEdgeWeight_weight hs hok (.cons hedge (.nil _))
  have hnumber : t.pathNumber f [p] = s.pathNumber f [p] := by
    unfold pathNumber
    rw [hshape.finalGraph_eq, hshape.relevant]
  rw [hnumber]
  refine BitVec.eq_of_toNat_eq ?_
  rw [BitVec.toNat_ofNat, ← hweight, List.map_singleton, List.sum_singleton]
  exact (Nat.mod_eq_of_lt (t.callPaths p).edgeWeight.isLt).symm

section Finished

variable (h : Finished r s t v) (hcycles : ∀ f, ¬ r.InCycle f)
include h hcycles

/-- A final call in a function is a call of the program from this function. -/
theorem Finished.caller_of_mem (hp : p ∈ v.finalCalleeMap.get f) :
    p ∈ s.paths ∧ (s.callPaths p).caller = f := by
  obtain ⟨-, hlisted, -⟩ := h.mem_callees.mp hp
  obtain ⟨hpath, hnode⟩ := (h.contracted.mem_flipped p f).mp hlisted
  rw [node_of_not_mem (h.contracted.keys_eq_nil hcycles ▸ List.not_mem_nil)] at hnode
  exact ⟨hpath, hnode⟩

/-- Calls of other relevant functions are final calls. -/
theorem Finished.callees_ne_nil (hf : f ∈ v.relevantAllFunctionSet)
    (hg : g ∈ v.relevantAllFunctionSet) (hne : g ≠ f) (hcall : s.Calls f g) :
    v.finalCalleeMap.get f ≠ [] := by
  obtain ⟨p, hpath, rfl, rfl⟩ := hcall
  obtain ⟨hcaller, hcallee⟩ := h.contracted.ends_eq hcycles hpath
  refine List.ne_nil_of_mem (a := p) (h.mem_callees.mpr ⟨hf, ?_, ?_, ?_⟩)
  · refine (h.contracted.mem_flipped p _).mpr ⟨hpath, ?_⟩
    exact node_of_not_mem (h.contracted.keys_eq_nil hcycles ▸ List.not_mem_nil)
  · rw [hcaller, hcallee]
    exact Ne.symm hne
  · rwa [hcallee]

/-- No call is inside a cycle. -/
theorem Finished.pathType_ne (hp : p ∈ s.paths) (hnew : (s.callPaths p).pathType = .default)
    (hbranch : (v.callPaths p).pathType = .markBranch ∨
      (v.callPaths p).pathType = (t.callPaths p).pathType) :
    (v.callPaths p).pathType ≠ .markSimpleInner ∧ (v.callPaths p).pathType ≠ .markInnerBranch := by
  obtain ⟨pathType, htype, heq⟩ := h.contracted.callPaths_eq hcycles hp
  rw [heq] at hbranch
  rw [hnew] at htype
  rcases hbranch with hbranch | hbranch
  · rw [hbranch]
    exact ⟨nofun, nofun⟩
  · rw [hbranch]
    rcases htype with rfl | rfl
    · exact ⟨nofun, nofun⟩
    · exact ⟨nofun, nofun⟩

end Finished

/-- **What the analysis leaves** of any call graph. -/
theorem placed_of_analyze (hwf : WellFormed callPaths functionMap)
    (hsites : ∀ p ∈ (initial callPaths functionMap).paths,
      ∀ q ∈ (initial callPaths functionMap).paths,
        (callPaths p).callInst = (callPaths q).callInst → (callPaths p).caller = (callPaths q).caller)
    (inLoop : ℕ → Bool)
    (hr : (kosaraju (initial callPaths functionMap).doInitialization.markedEdges).Correct
      (initial callPaths functionMap).doInitialization.markedEdges) :
    ∃ t, (initial callPaths functionMap).analyze inLoop kosaraju = .ok t ∧ t.Placed := by
  have hs := doInitialization_callGraph hwf
  have hcontracted := instrIsInaLoop_contracted hs (doInitialization_fresh (initial_fresh ..))
    inLoop hr
  have hkept : ∀ p, _ = (callPaths p).pathType ∧ _ = (callPaths p).callee ∧
      _ = (callPaths p).caller ∧ _ = (callPaths p).callInst ∧ _ = functionMap :=
    doInitialization_callPaths (initial callPaths functionMap)
  have hfinished := constructFinalCFG_finished hcontracted
  have hmaps := hfinished.finalMaps hs
  obtain ⟨hbranches, -⟩ := constructFinalCFG_pathType _ hmaps.callersNodup
  obtain ⟨t, hok⟩ := computeEdgeWeight_ok hmaps hfinished.consistent (hfinished.acyclic hs hr)
  refine ⟨t, hok, hfinished.placed hs ?_ (fun p hp q hq hinst => ?_) hbranches hok⟩
  · exact SameNodes.trans (t := InstrumentIRPass.markLoopRelevantFunctions _) ⟨rfl, rfl⟩
      (constructFinalCFG_sameNodes _)
  · unfold paths at hp hq
    rw [(hkept 0).2.2.2.2] at hp hq
    rw [(hkept p).2.2.2.1, (hkept q).2.2.2.1] at hinst
    rw [(hkept p).2.2.1, (hkept q).2.2.1]
    exact hsites p hp q hq hinst

/-- **What the analysis leaves** of a call graph without cycles of several functions. -/
theorem flat_of_analyze (hwf : WellFormed callPaths functionMap)
    (hnew : ∀ p, (callPaths p).pathType = .default ∧ (callPaths p).callsHMF = false)
    (hsites : ∀ p ∈ (initial callPaths functionMap).paths,
      ∀ q ∈ (initial callPaths functionMap).paths,
        (callPaths p).callInst = (callPaths q).callInst → (callPaths p).caller = (callPaths q).caller)
    (inLoop : ℕ → Bool)
    (hr : (kosaraju (initial callPaths functionMap).doInitialization.markedEdges).Correct
      (initial callPaths functionMap).doInitialization.markedEdges)
    (hacyclic : ∀ f g, SameComponent
      (initial callPaths functionMap).doInitialization.markedEdges f g → f = g) :
    ∃ t, (initial callPaths functionMap).analyze inLoop kosaraju = .ok t ∧ t.Flat := by
  obtain ⟨t, hanalyze, hplaced⟩ := placed_of_analyze hwf hsites inLoop hr
  have hs := doInitialization_callGraph hwf
  have hcontracted := instrIsInaLoop_contracted hs (doInitialization_fresh (initial_fresh ..))
    inLoop hr
  have hcycles := not_inCycle hr hacyclic
  have hgraph := hcontracted.searchGraph (marked_of_calls hwf fun p => (hnew p).2) hcycles
  have hkeys := hcontracted.keys_eq_nil hcycles
  have hcontinue := fun f => relevant_continues (f := f) hwf (fun p => (hnew p).2) hgraph hkeys
    hcontracted.all
  have hkept : ∀ p, _ = (callPaths p).pathType ∧ _ = (callPaths p).callee ∧
      _ = (callPaths p).caller ∧ _ = (callPaths p).callInst ∧ _ = functionMap :=
    doInitialization_callPaths (initial callPaths functionMap)
  have hfinished := constructFinalCFG_finished hcontracted
  have hmaps := hfinished.finalMaps hs
  obtain ⟨-, htypes⟩ := constructFinalCFG_pathType _ hmaps.callersNodup
  have hok : _ = Except.ok t := hanalyze
  refine ⟨t, hanalyze, ?_⟩
  rw [← constructFinalCFG_relevant] at hcontinue
  have hlast : ∀ p, _ = _ ∨ _ = ((instrIsInaLoop inLoop kosaraju
    (initial callPaths functionMap).doInitialization).callPaths p).pathType := htypes
  unfold analyze at hok
  generalize (instrIsInaLoop inLoop kosaraju
    (initial callPaths functionMap).doInitialization).markLoopRelevantFunctions.constructFinalCFG = v
    at *
  generalize (initial callPaths functionMap).doInitialization = s at *
  obtain ⟨hshape, -⟩ := computeEdgeWeight_spec hmaps hok
  have hcall := fun f p hp => hfinished.caller_of_mem (f := f) (p := p) hcycles hp
  refine {
    toPlaced := hplaced
    callers := ?_
    types := ?_
    cycles := ?_
    weights := fun f p hp => computeEdgeWeight_edgeWeight hmaps hok hp
    ends := ?_ }
  · intro f p hp
    rw [hshape.callers] at hp
    rw [hshape.callee_eq, hshape.caller_eq, hshape.callees]
    have hf := (hfinished.mem_callers.mp hp).1
    exact ⟨(hfinished.consistent.callers f hf p hp).2, hfinished.consistent.callersListed f hf p hp⟩
  · intro f p hp
    rw [hshape.callees] at hp
    rw [hshape.pathType_eq]
    exact hfinished.pathType_ne hcycles (hcall f p hp).1 ((hkept p).1.trans (hnew p).1) (hlast p)
  · rw [hshape.cycles, hfinished.cycles]
    exact hkeys
  · intro f hf hempty
    by_contra hheap
    rw [hplaced.relevant, hshape.relevant] at hf
    obtain ⟨g, hne, hcallee, hg⟩ := hcontinue f hf hheap
    rw [hshape.callees] at hempty
    exact hfinished.callees_ne_nil hcycles hf hg hne hcallee hempty

end InstrumentIRPass

end Semalloc
