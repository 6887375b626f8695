import Semalloc.Frontend.Contraction

/-!
# The call graph after `instrIsInaLoop`

Every function of a cycle is replaced by the node of the cycle. The maps list each call under the
nodes of its two ends; the ends written in the call path agree with them unless the call leads from
one cycle to another.

## Main definitions

* `node`: the node of a function
* `Contracted`: the contracted call graph
* `BetweenCycles`: a call from one cycle to another
* `Classified`: what the two passes should make of a call

## Main results

* `instrIsInaLoop_contracted`: `instrIsInaLoop` contracts the call graph
* `scc_edges_classified`: all calls are classified exactly when none leads from one cycle to another
-/

set_option autoImplicit false

namespace Semalloc

namespace InstrumentIRPass

variable {s t : InstrumentIRPass} {r : SCCResult} {f g name : String} {p q : ℕ}

/-! ## What the steps leave alone -/

/-- The sets and maps that `doInitialization` does not touch are still empty. -/
structure Fresh (s : InstrumentIRPass) : Prop where
  intra : s.intraFunctionMap = .empty []
  flippedIntra : s.flippedIntraFunctionMap = .empty ""
  loops : s.relevantLoopFunctionSet = []
  all : s.relevantAllFunctionSet = []
  callees : s.finalCalleeMap = .empty []
  callers : s.finalCallerMap = .empty []
  order : s.topologicalOrder = []

theorem initial_fresh (callPaths : ℕ → CallPath) (functionMap : KeyMap String (List ℕ)) :
    (initial callPaths functionMap).Fresh := ⟨rfl, rfl, rfl, rfl, rfl, rfl, rfl⟩

theorem markOnlyRelevantFunctions_fresh (hs : s.Fresh) : s.markOnlyRelevantFunctions.Fresh :=
  ⟨hs.intra, hs.flippedIntra, hs.loops, hs.all, hs.callees, hs.callers, hs.order⟩

theorem doInitialization_fresh (hs : s.Fresh) : s.doInitialization.Fresh := by
  have hfold : ∀ (fs : List String) (s : InstrumentIRPass), s.Fresh →
      (fs.foldl markHeapFunction s).Fresh := by
    intro fs
    induction fs with
    | nil => exact fun _ hs => hs
    | cons f fs ih =>
      intro s hs
      refine ih _ ?_
      unfold markHeapFunction
      split
      · exact ⟨hs.intra, hs.flippedIntra, hs.loops, hs.all, hs.callees, hs.callers, hs.order⟩
      · exact hs
  have hflip : s.flipFunctionMap.Fresh :=
    ⟨hs.intra, hs.flippedIntra, hs.loops, hs.all, hs.callees, hs.callers, hs.order⟩
  exact markOnlyRelevantFunctions_fresh (hfold _ _ hflip)

/-- Two call paths that agree with their types reset differ in their types only. -/
theorem eq_of_pathType_default {e e' : CallPath}
    (h : { e with pathType := .default } = { e' with pathType := PathType.default }) :
    e = { e' with pathType := e.pathType } := by
  cases e
  cases e'
  simp only [CallPath.mk.injEq] at h ⊢
  tauto

/-- Changes of path types change path types only. -/
theorem modifyAll_pathType {m : ℕ → CallPath} {l : List ℕ} {g : ℕ → CallPath → CallPath}
    (hg : ∀ p e, { g p e with pathType := .default } = { e with pathType := PathType.default })
    (p : ℕ) : modifyAll m l g p = { m p with pathType := (modifyAll m l g p).pathType } := by
  have hkeep := modifyAll_invariant (m := m) (l := l)
    (fun e => ({ e with pathType := .default } : CallPath)) hg p
  exact eq_of_pathType_default hkeep

/-- Marking calls in loops changes path types, and adds to the loop functions. -/
theorem markSimpleLoops_fold (inLoop : ℕ → Bool) (fs : List String) (s : InstrumentIRPass) :
    ∃ callPaths loops, fs.foldl (markSimpleLoops inLoop) s =
        { s with callPaths := callPaths, relevantLoopFunctionSet := loops } ∧
      (∀ p, callPaths p = { s.callPaths p with pathType := (callPaths p).pathType }) ∧
      (∀ p, (callPaths p).pathType = (s.callPaths p).pathType ∨
        (callPaths p).pathType = .markSimpleLoop) ∧
      (∀ f ∈ loops, f ∈ s.relevantLoopFunctionSet ∨ f ∈ fs) ∧
      (s.relevantLoopFunctionSet.Nodup → loops.Nodup) := by
  induction fs generalizing s with
  | nil => exact ⟨_, _, rfl, fun _ => rfl, fun _ => .inl rfl, fun _ hf => .inl hf, id⟩
  | cons f fs ih =>
    obtain ⟨callPaths, loops, heq, htypes, hmarks, hloops, hnodup⟩ := ih (s.markSimpleLoops inLoop f)
    refine ⟨callPaths, loops, heq, fun p => ?_, fun p => ?_, fun g hg => ?_, fun hs => hnodup ?_⟩
    · have hstep : (s.markSimpleLoops inLoop f).callPaths p =
          { s.callPaths p with pathType := ((s.markSimpleLoops inLoop f).callPaths p).pathType } := by
        unfold markSimpleLoops
        generalize (s.functionMap.get f).filter _ = looping
        exact modifyAll_pathType (g := fun _ e => { e with pathType := .markSimpleLoop })
          (fun _ _ => rfl) p
      rw [htypes p, hstep]
    · rcases hmarks p with hp | hp
      · rw [hp]
        unfold markSimpleLoops
        refine modifyAll_induction (P := fun e : CallPath =>
          e.pathType = (s.callPaths p).pathType ∨ e.pathType = .markSimpleLoop) ?_ p (.inl rfl)
        exact fun _ _ _ => .inr rfl
      · exact .inr hp
    · rcases hloops g hg with hg | hg
      · unfold markSimpleLoops at hg
        dsimp only at hg
        split at hg
        · exact .inl hg
        · rcases mem_insertKey.mp hg with rfl | hg
          · exact .inr List.mem_cons_self
          · exact .inl hg
      · exact .inr (List.mem_cons_of_mem f hg)
    · unfold markSimpleLoops
      dsimp only
      split
      · exact hs
      · exact nodup_insertKey hs

theorem moveToCycle_fold (name : String) (fs : List String) (s : InstrumentIRPass) :
    fs.foldl (moveToCycle name) s = { s with
      functionMap := fs.foldl (moveCalls name) s.functionMap
      flippedFunctionMap := fs.foldl (moveCalls name) s.flippedFunctionMap
      relevantLoopFunctionSet := fs.foldl List.erase s.relevantLoopFunctionSet } := by
  induction fs generalizing s with
  | nil => rfl
  | cons f fs ih => rw [List.foldl_cons, ih]; rfl

/-- Contracting the cycles changes the two maps, and the loop functions. -/
theorem contractCycle_fold (names : List String) (s : InstrumentIRPass) :
    ∃ loops, names.foldl contractCycle s = { s with
        functionMap := contractMap s.intraFunctionMap.get s.functionMap names
        flippedFunctionMap := contractMap s.intraFunctionMap.get s.flippedFunctionMap names
        relevantLoopFunctionSet := loops } ∧
      (∀ f ∈ loops, f ∈ s.relevantLoopFunctionSet ∨ f ∈ names) ∧
      (s.relevantLoopFunctionSet.Nodup → loops.Nodup) := by
  induction names generalizing s with
  | nil => exact ⟨_, rfl, fun _ hf => .inl hf, id⟩
  | cons name names ih =>
    have hstep : s.contractCycle name = { s with
        functionMap := (s.intraFunctionMap.get name).foldl (moveCalls name)
          (createEntry s.functionMap name)
        flippedFunctionMap := (s.intraFunctionMap.get name).foldl (moveCalls name)
          (createEntry s.flippedFunctionMap name)
        relevantLoopFunctionSet := (s.intraFunctionMap.get name).foldl List.erase
          (insertKey name s.relevantLoopFunctionSet) } := moveToCycle_fold ..
    have herase : ∀ (fs l : List String), fs.foldl List.erase l ⊆ l ∧
        (l.Nodup → (fs.foldl List.erase l).Nodup) := by
      intro fs
      induction fs with
      | nil => exact fun l => ⟨List.Subset.refl l, id⟩
      | cons f fs ih =>
        intro l
        obtain ⟨hsub, hnodup⟩ := ih (l.erase f)
        exact ⟨List.Subset.trans hsub List.erase_subset, fun hl => hnodup (hl.erase f)⟩
    obtain ⟨loops, heq, hloops, hnodup⟩ := ih (s.contractCycle name)
    rw [hstep] at heq hloops hnodup
    obtain ⟨hsub, hkeep⟩ := herase (s.intraFunctionMap.get name)
      (insertKey name s.relevantLoopFunctionSet)
    refine ⟨loops, ?_, fun f hf => ?_, fun hs => hnodup (hkeep (nodup_insertKey hs))⟩
    · rw [List.foldl_cons, hstep]
      exact heq
    · rcases hloops f hf with hf | hf
      · rcases mem_insertKey.mp (hsub hf) with rfl | hf
        · exact .inr List.mem_cons_self
        · exact .inl hf
      · exact .inr (List.mem_cons_of_mem name hf)

/-! ## Nodes -/

/-- The node of a function: its cycle, or itself. -/
def node (s : InstrumentIRPass) (f : String) : String :=
  if f ∈ s.flippedIntraFunctionMap.keys then s.flippedIntraFunctionMap.get f else f

theorem node_of_mem (hf : f ∈ s.flippedIntraFunctionMap.keys) :
    s.node f = s.flippedIntraFunctionMap.get f := if_pos hf

theorem node_of_not_mem (hf : f ∉ s.flippedIntraFunctionMap.keys) : s.node f = f := if_neg hf

/-- No function is named like a cycle. -/
def IsFunction (f : String) : Prop := ∀ n, f ≠ intraName n

namespace CyclesNamed

/-- The node of a function is not in a cycle. -/
theorem node_not_mem (h : CyclesNamed r s) (hcycles : ∀ f ∈ s.flippedIntraFunctionMap.keys, IsFunction f)
    (f : String) : s.node f ∉ s.flippedIntraFunctionMap.keys := by
  by_cases hf : f ∈ s.flippedIntraFunctionMap.keys
  · rw [node_of_mem hf]
    obtain ⟨n, hn⟩ := h.named f hf
    rw [hn]
    exact fun hmem => hcycles _ hmem n rfl
  · rw [node_of_not_mem hf]
    exact hf

/-- A function is named like a node only where it is the node. -/
theorem mem_of_node_mem (h : CyclesNamed r s) (hf : IsFunction f)
    (hnode : s.node f ∈ s.intraFunctionMap.keys) : f ∈ s.flippedIntraFunctionMap.keys := by
  by_contra hmem
  rw [node_of_not_mem hmem] at hnode
  obtain ⟨x, hx, hget⟩ := (h.names f).mp hnode
  obtain ⟨n, hn⟩ := h.named x hx
  exact hf n (hget.symm.trans hn)

theorem exists_intraName (h : CyclesNamed r s) (hkey : name ∈ s.intraFunctionMap.keys) :
    ∃ n, name = intraName n := by
  obtain ⟨x, hx, rfl⟩ := (h.names name).mp hkey
  exact h.named x hx

/-- A contracted map, for the cycles that were named. -/
theorem contractMap_get_eq (h : CyclesNamed r s)
    (hcycles : ∀ f ∈ s.flippedIntraFunctionMap.keys, IsFunction f) {m : KeyMap String (List ℕ)}
    (hm : m.Outside []) (g : String) :
    (contractMap s.intraFunctionMap.get m s.intraFunctionMap.keys).get g =
      if ∃ name ∈ s.intraFunctionMap.keys, g ∈ s.intraFunctionMap.get name then []
      else if g ∈ s.intraFunctionMap.keys then
        m.get g ++ (s.intraFunctionMap.get g).flatMap m.get
      else m.get g := by
  refine contractMap_get hm h.namesNodup h.membersNodup ?_ ?_ g
  · intro a ha b hb hab x hxa hxb
    exact hab (((h.members a ha x).mp hxa).2.symm.trans ((h.members b hb x).mp hxb).2)
  · intro a ha b hb hba
    obtain ⟨n, hn⟩ := h.exists_intraName hb
    exact hcycles b ((h.members a ha b).mp hba).1 n hn

/-- **A contracted map** lists what the map listed, under the nodes. -/
theorem contractMap_mem (h : CyclesNamed r s)
    (hcycles : ∀ f ∈ s.flippedIntraFunctionMap.keys, IsFunction f) {m : KeyMap String (List ℕ)}
    (hm : m.Outside []) {listed : ℕ → Prop} {ends : ℕ → String} (hends : ∀ p, listed p → IsFunction (ends p))
    (hmem : ∀ p f, p ∈ m.get f ↔ listed p ∧ ends p = f) :
    p ∈ (contractMap s.intraFunctionMap.get m s.intraFunctionMap.keys).get g ↔
      listed p ∧ s.node (ends p) = g := by
  have hmembers := h.members
  rw [h.contractMap_get_eq hcycles hm]
  by_cases hcycle : ∃ name ∈ s.intraFunctionMap.keys, g ∈ s.intraFunctionMap.get name
  · -- functions of cycles have no calls left
    rw [if_pos hcycle]
    obtain ⟨name, hkey, hg⟩ := hcycle
    have hg' := ((hmembers name hkey g).mp hg).1
    constructor
    · intro hp
      cases hp
    · rintro ⟨-, rfl⟩
      exact absurd hg' (h.node_not_mem hcycles _)
  · rw [if_neg hcycle]
    by_cases hkey : g ∈ s.intraFunctionMap.keys
    · rw [if_pos hkey, List.mem_append, List.mem_flatMap]
      constructor
      · rintro (hp | ⟨f, hf, hp⟩)
        · obtain ⟨hlisted, rfl⟩ := (hmem p g).mp hp
          obtain ⟨n, hn⟩ := h.exists_intraName hkey
          exact absurd hn (hends p hlisted n)
        · obtain ⟨hlisted, rfl⟩ := (hmem p f).mp hp
          obtain ⟨hfunction, hget⟩ := (hmembers g hkey _).mp hf
          exact ⟨hlisted, (node_of_mem hfunction).trans hget⟩
      · rintro ⟨hp, rfl⟩
        have hfunction := h.mem_of_node_mem (hends p hp) hkey
        refine .inr ⟨ends p, (hmembers _ hkey _).mpr ⟨hfunction, (node_of_mem hfunction).symm⟩, ?_⟩
        exact (hmem p _).mpr ⟨hp, rfl⟩
    · rw [if_neg hkey, hmem]
      refine and_congr_right fun hp => ?_
      constructor
      · rintro rfl
        refine node_of_not_mem fun hfunction => hcycle ?_
        have hnamed := (h.names _).mpr ⟨_, hfunction, rfl⟩
        exact ⟨_, hnamed, (hmembers _ hnamed _).mpr ⟨hfunction, rfl⟩⟩
      · rintro rfl
        refine (node_of_not_mem fun hfunction => hkey ?_).symm
        rw [node_of_mem hfunction]
        exact (h.names _).mpr ⟨_, hfunction, rfl⟩

/-- No call is listed twice under a node. -/
theorem contractMap_get_nodup (h : CyclesNamed r s)
    (hcycles : ∀ f ∈ s.flippedIntraFunctionMap.keys, IsFunction f) {m : KeyMap String (List ℕ)}
    (hm : m.Outside []) {listed : ℕ → Prop} {ends : ℕ → String} (hends : ∀ p, listed p → IsFunction (ends p))
    (hmem : ∀ p f, p ∈ m.get f ↔ listed p ∧ ends p = f) (hnodup : ∀ f, (m.get f).Nodup)
    (g : String) :
    ((contractMap s.intraFunctionMap.get m s.intraFunctionMap.keys).get g).Nodup := by
  rw [h.contractMap_get_eq hcycles hm]
  split
  · exact List.nodup_nil
  · split
    · rename_i hkey
      have hempty : m.get g = [] := by
        rw [List.eq_nil_iff_forall_not_mem]
        intro p hp
        obtain ⟨hlisted, rfl⟩ := (hmem p g).mp hp
        obtain ⟨n, hn⟩ := h.exists_intraName hkey
        exact hends p hlisted n hn
      rw [hempty, List.nil_append, List.nodup_flatMap]
      refine ⟨fun f _ => hnodup f, (h.membersNodup g).imp fun hne => ?_⟩
      intro p hp hq
      exact hne (((hmem p _).mp hp).2.symm.trans ((hmem p _).mp hq).2)
    · exact hnodup g

end CyclesNamed

/-! ## The contracted graph -/

/-- The call graph `t` that contracting the cycles of `s` leaves. -/
structure Contracted (r : SCCResult) (s t : InstrumentIRPass) : Prop where
  named : CyclesNamed r t
  cycles : ∀ f ∈ t.flippedIntraFunctionMap.keys, IsFunction f
  marks : t.functionMarkSet = s.functionMarkSet
  callPaths : ∀ p ∈ s.paths, ∃ pathType,
    (pathType = (s.callPaths p).pathType ∨ pathType = .markSimpleLoop) ∧ t.callPaths p =
      contractedPath t.flippedIntraFunctionMap (s.functionMap.get (s.callPaths p).callee).length
        { s.callPaths p with pathType := pathType }
  mem_functionMap : ∀ p f, p ∈ t.functionMap.get f ↔ p ∈ s.paths ∧ t.node (s.callPaths p).callee = f
  mem_flipped : ∀ p f,
    p ∈ t.flippedFunctionMap.get f ↔ p ∈ s.paths ∧ t.node (s.callPaths p).caller = f
  functionMapNodup : ∀ f, (t.functionMap.get f).Nodup
  flippedNodup : ∀ f, (t.flippedFunctionMap.get f).Nodup
  keysNodup : t.functionMap.keys.Nodup
  outside : t.functionMap.Outside []
  flippedKeysNodup : t.flippedFunctionMap.keys.Nodup
  flippedOutside : t.flippedFunctionMap.Outside []
  loopsNodup : t.relevantLoopFunctionSet.Nodup
  loops : ∀ f ∈ t.relevantLoopFunctionSet,
    f ∈ s.functionMarkSet ∨ f ∈ t.intraFunctionMap.keys
  all : t.relevantAllFunctionSet = []
  callees : t.finalCalleeMap = .empty []
  callers : t.finalCallerMap = .empty []
  order : t.topologicalOrder = []

/-- The functions of the program are not named like cycles. -/
theorem CallGraph.isFunction (hs : s.CallGraph) (hf : f ∈ s.functionMap.keys) : IsFunction f :=
  hs.wellFormed.fresh f hf

theorem CallGraph.callee_mem (hs : s.CallGraph) (hp : p ∈ s.paths) :
    (s.callPaths p).callee ∈ s.functionMap.keys := by
  have hlisted := hs.wellFormed.mem_paths.mp hp
  by_contra hkey
  rw [hs.wellFormed.outside _ hkey] at hlisted
  cases hlisted

theorem CallGraph.caller_mem (hs : s.CallGraph) (hp : p ∈ s.paths) :
    (s.callPaths p).caller ∈ s.functionMap.keys :=
  hs.wellFormed.caller _ p (hs.wellFormed.mem_paths.mp hp)

theorem mem_markedEdges {x y : String} : (x, y) ∈ s.markedEdges ↔
    ∃ f ∈ s.functionMarkSet, f ∈ s.flippedFunctionMap.keys ∧ ∃ p ∈ s.flippedFunctionMap.get f,
      (s.callPaths p).caller ∈ s.functionMarkSet ∧ (s.callPaths p).callee ∈ s.functionMarkSet ∧
        (s.callPaths p).caller = x ∧ (s.callPaths p).callee = y := by
  unfold markedEdges
  simp only [List.mem_filterMap, List.mem_flatMap, List.mem_filter, decide_eq_true_eq]
  constructor
  · rintro ⟨p, ⟨f, ⟨hf, hkey⟩, hp⟩, hedge⟩
    split at hedge
    · rename_i hmarks
      simp only [Option.some.injEq, Prod.mk.injEq] at hedge
      exact ⟨f, hf, hkey, p, hp, hmarks.1, hmarks.2, hedge.1, hedge.2⟩
    · cases hedge
  · rintro ⟨f, hf, hkey, p, hp, hcaller, hcallee, rfl, rfl⟩
    exact ⟨p, ⟨f, ⟨hf, hkey⟩, hp⟩, if_pos ⟨hcaller, hcallee⟩⟩

/-- The edges that `kosaraju` is given are the calls between marked functions. -/
theorem CallGraph.mem_markedEdges (hs : s.CallGraph) {x y : String} : (x, y) ∈ s.markedEdges ↔
    x ∈ s.functionMarkSet ∧ y ∈ s.functionMarkSet ∧
      ∃ p ∈ s.paths, (s.callPaths p).caller = x ∧ (s.callPaths p).callee = y := by
  rw [InstrumentIRPass.mem_markedEdges]
  constructor
  · rintro ⟨f, -, -, p, hp, hcaller, hcallee, rfl, rfl⟩
    exact ⟨hcaller, hcallee, p, (hs.mem_flipped.mp hp).1, rfl, rfl⟩
  · rintro ⟨hx, hy, p, hp, rfl, rfl⟩
    have hlisted : p ∈ s.flippedFunctionMap.get (s.callPaths p).caller :=
      hs.mem_flipped.mpr ⟨hp, rfl⟩
    refine ⟨_, hx, ?_, p, hlisted, hx, hy, rfl, rfl⟩
    by_contra hkey
    rw [hs.flippedOutside _ hkey] at hlisted
    cases hlisted

/-- Naming the cycles changes the two maps of names, and the loop functions. -/
theorem nameCycle_fold (cycles : List (List String)) (s : InstrumentIRPass) :
    ∃ loops intra flippedIntra, cycles.foldl nameCycle s = { s with
        relevantLoopFunctionSet := loops
        intraFunctionMap := intra
        flippedIntraFunctionMap := flippedIntra } ∧
      (s.relevantLoopFunctionSet.Nodup → loops.Nodup) := by
  induction cycles generalizing s with
  | nil => exact ⟨_, _, _, rfl, id⟩
  | cons c cycles ih =>
    have hstep : ∃ loops intra flippedIntra, s.nameCycle c = { s with
        relevantLoopFunctionSet := loops
        intraFunctionMap := intra
        flippedIntraFunctionMap := flippedIntra } ∧
        (s.relevantLoopFunctionSet.Nodup → loops.Nodup) := by
      unfold nameCycle
      split
      · exact ⟨_, _, _, rfl, nodup_insertKeys⟩
      · exact ⟨_, _, _, rfl, id⟩
    obtain ⟨loops, intra, flippedIntra, heq, hnodup⟩ := hstep
    obtain ⟨loops', intra', flippedIntra', heq', hnodup'⟩ := ih (s.nameCycle c)
    rw [heq] at heq' hnodup'
    refine ⟨loops', intra', flippedIntra', ?_, fun hs => hnodup' (hnodup hs)⟩
    rw [List.foldl_cons, heq]
    exact heq'

/-- The ends of the edges are marked. -/
theorem CallGraph.marked_of_mem (hs : s.CallGraph) (hr : r.Correct s.markedEdges) {x : String}
    (hx : x ∈ r.nodeSet) : x ∈ s.functionMarkSet := by
  obtain ⟨y, hxy | hyx⟩ := (hr.mem x).mp hx
  · exact (hs.mem_markedEdges.mp hxy).1
  · exact (hs.mem_markedEdges.mp hyx).2.1

/-- **All cycles are named.** -/
theorem CallGraph.nameCycles (hs : s.CallGraph) (hr : r.Correct s.markedEdges)
    (hintra : s.intraFunctionMap = .empty []) (hflipped : s.flippedIntraFunctionMap = .empty "") :
    CyclesNamed r ((cyclesOf r).foldl nameCycle s) ∧
      SameCalls s ((cyclesOf r).foldl nameCycle s) ∧
      ∀ f ∈ ((cyclesOf r).foldl nameCycle s).relevantLoopFunctionSet,
        f ∈ s.relevantLoopFunctionSet ∨ f ∈ s.functionMarkSet := by
  have hnaming : s.Naming [] := {
    keysNodup := by rw [hintra]; exact List.nodup_nil
    size := by rw [hintra]; rfl
    names := by intro name; rw [hintra]; simp [KeyMap.empty]
    membersNodup := by intro name; rw [hintra]; exact List.nodup_nil
    members := by intro n c hn; simp at hn
    functionsNodup := by rw [hflipped]; exact List.nodup_nil
    functions := by intro x; rw [hflipped]; simp [KeyMap.empty]
    name := by intro n c hn; simp at hn }
  have hheads : ∀ c ∈ cyclesOf r, c.head? ∈ s.functionMarkSet.map some := by
    intro c hc
    obtain ⟨x, hx, rfl⟩ := (mem_cyclesOf hr.nodup).mp hc
    have hmem : x ∈ r.componentOf x := SCCResult.mem_componentOf.mpr ⟨hx.1, rfl⟩
    obtain ⟨y, hy⟩ : ∃ y, (r.componentOf x).head? = some y :=
      Option.isSome_iff_exists.mp (List.isSome_head?.mpr (List.ne_nil_of_mem hmem))
    rw [hy]
    exact List.mem_map_of_mem
      (hs.marked_of_mem hr (SCCResult.mem_componentOf.mp (List.mem_of_mem_head? hy)).1)
  obtain ⟨hnamed, hsame, hloops⟩ := hnaming.nameCycles hheads
    (by rw [List.nil_append]; exact cyclesOf_disjoint)
  rw [List.nil_append] at hnamed
  refine ⟨hnamed.cyclesNamed hr.nodup, hsame, fun f hf => ?_⟩
  rcases (hloops f).mp hf with hf | ⟨c, hc, hf⟩
  · exact .inl hf
  · obtain ⟨x, hx, rfl⟩ := (mem_cyclesOf hr.nodup).mp hc
    exact .inr (hs.marked_of_mem hr (SCCResult.mem_componentOf.mp hf).1)

/-- **`instrIsInaLoop` contracts the call graph.** -/
theorem instrIsInaLoop_contracted (hs : s.CallGraph) (hfresh : s.Fresh) (inLoop : ℕ → Bool)
    {kosaraju : List (String × String) → SCCResult}
    (hr : (kosaraju s.markedEdges).Correct s.markedEdges) :
    Contracted (kosaraju s.markedEdges) s (s.instrIsInaLoop inLoop kosaraju) := by
  -- the marks of the calls in loops
  obtain ⟨callPaths, loops, heq, htypes, htypesMarked, hloops, hloopsNodup⟩ :=
    markSimpleLoops_fold inLoop s.functionMarkSet s
  have hcallee : ∀ p, (callPaths p).callee = (s.callPaths p).callee := fun p => by rw [htypes p]
  have hcaller : ∀ p, (callPaths p).caller = (s.callPaths p).caller := fun p => by rw [htypes p]
  have hedges : (s.functionMarkSet.foldl (markSimpleLoops inLoop) s).markedEdges =
      s.markedEdges := by
    rw [heq]
    unfold markedEdges
    simp only [hcallee, hcaller]
  unfold instrIsInaLoop
  dsimp only
  rw [hedges, heq]
  generalize kosaraju s.markedEdges = r at hr ⊢
  -- the names of the cycles
  let s₁ : InstrumentIRPass := { s with
    callPaths := callPaths
    relevantLoopFunctionSet := loops
    functionCycles := s.functionCycles ++ cyclesOf r }
  have hgraph : s₁.CallGraph := hs.congr rfl rfl hcallee hcaller hs.marksNodup hs.marks
  have hr₁ : r.Correct s₁.markedEdges := by
    have hedges₁ : s₁.markedEdges = s.markedEdges := by
      unfold markedEdges
      simp only [s₁, hcallee, hcaller]
    rwa [hedges₁]
  obtain ⟨hnamed, hsame, hloops₂⟩ := hgraph.nameCycles hr₁ hfresh.intra hfresh.flippedIntra
  obtain ⟨loops₂, intra, flippedIntra, heq₂, hloopsNodup₂⟩ := nameCycle_fold (cyclesOf r) s₁
  rw [heq₂] at hnamed hloops₂
  change Contracted r s ((((cyclesOf r).foldl nameCycle s₁).markCycleCalls).intraFunctionMap.keys.foldl
    contractCycle ((cyclesOf r).foldl nameCycle s₁).markCycleCalls)
  rw [heq₂]
  generalize hs₂ : ({ s₁ with
    relevantLoopFunctionSet := loops₂
    intraFunctionMap := intra
    flippedIntraFunctionMap := flippedIntra } : InstrumentIRPass) = s₂ at hnamed hloops₂ ⊢
  have hgraph₂ : s₂.CallGraph := by
    subst hs₂
    exact hgraph.congr rfl rfl (fun _ => rfl) (fun _ => rfl) hgraph.marksNodup hgraph.marks
  have hcycles : ∀ f ∈ s₂.flippedIntraFunctionMap.keys, IsFunction f := by
    intro f hf
    refine hs.isFunction (hs.marks f ?_)
    exact hs.marked_of_mem hr ((hnamed.functions f).mp hf).1
  have hpaths : ∀ p, p ∈ s₂.paths ↔ p ∈ s.paths := fun p => by subst hs₂; exact Iff.rfl
  have hends : ∀ p, (s₂.callPaths p).callee = (s.callPaths p).callee ∧
      (s₂.callPaths p).caller = (s.callPaths p).caller := fun p => by
    subst hs₂
    exact ⟨hcallee p, hcaller p⟩
  have hmap : s₂.functionMap = s.functionMap := by subst hs₂; rfl
  have hflipped : s₂.flippedFunctionMap = s.flippedFunctionMap := by subst hs₂; rfl
  -- what the two maps list
  have hlisted : ∀ p f, p ∈ s₂.functionMap.get f ↔ p ∈ s.paths ∧ (s.callPaths p).callee = f := by
    intro p f
    rw [hmap]
    constructor
    · intro hp
      exact ⟨hs.wellFormed.mem_paths_of_mem hp, hs.wellFormed.callee f p hp⟩
    · rintro ⟨hp, rfl⟩
      exact hs.wellFormed.mem_paths.mp hp
  have hlistedFlipped : ∀ p f,
      p ∈ s₂.flippedFunctionMap.get f ↔ p ∈ s.paths ∧ (s.callPaths p).caller = f := by
    intro p f
    rw [hflipped]
    exact hs.mem_flipped
  have hcalleeFunction : ∀ p, p ∈ s.paths → IsFunction (s.callPaths p).callee :=
    fun p hp => hs.isFunction (hs.callee_mem hp)
  have hcallerFunction : ∀ p, p ∈ s.paths → IsFunction (s.callPaths p).caller :=
    fun p hp => hs.isFunction (hs.caller_mem hp)
  obtain ⟨loops₃, heq₃, hloops₃, hloopsNodup₃⟩ :=
    contractCycle_fold s₂.markCycleCalls.intraFunctionMap.keys s₂.markCycleCalls
  rw [heq₃]
  exact {
    named := ⟨hnamed.functionsNodup, hnamed.functions, hnamed.same, hnamed.named, hnamed.namesNodup,
      hnamed.names, hnamed.membersNodup, hnamed.members⟩
    cycles := hcycles
    marks := by subst hs₂; rfl
    callPaths := by
      intro p hp
      refine ⟨(s₂.callPaths p).pathType, by subst hs₂; exact htypesMarked p, ?_⟩
      have hcall := markCycleCalls_callPaths hgraph₂ hnamed.functionsNodup ((hpaths p).mpr hp)
      rw [(hends p).1, hmap] at hcall
      have hpath : s₂.callPaths p = { s.callPaths p with pathType := (s₂.callPaths p).pathType } := by
        subst hs₂
        exact htypes p
      rw [← hpath]
      exact hcall
    mem_functionMap := by
      intro p f
      exact hnamed.contractMap_mem hcycles hgraph₂.wellFormed.outside hcalleeFunction hlisted
    mem_flipped := by
      intro p f
      exact hnamed.contractMap_mem hcycles hgraph₂.flippedOutside hcallerFunction hlistedFlipped
    functionMapNodup := hnamed.contractMap_get_nodup hcycles hgraph₂.wellFormed.outside
      hcalleeFunction hlisted hgraph₂.wellFormed.nodup
    flippedNodup := hnamed.contractMap_get_nodup hcycles hgraph₂.flippedOutside
      hcallerFunction hlistedFlipped hgraph₂.flipped_nodup
    keysNodup := contractMap_nodup hgraph₂.wellFormed.keysNodup
    outside := contractMap_outside hgraph₂.wellFormed.outside
    flippedKeysNodup := contractMap_nodup hgraph₂.flippedNodup
    flippedOutside := contractMap_outside hgraph₂.flippedOutside
    loopsNodup := by
      refine hloopsNodup₃ ?_
      subst hs₂
      exact hloopsNodup₂ (hloopsNodup (hfresh.loops ▸ List.nodup_nil))
    loops := by
      intro f hf
      rcases hloops₃ f hf with hf | hf
      · refine .inl ?_
        rcases hloops₂ f hf with hf | hf
        · rcases hloops f hf with hf | hf
          · rw [hfresh.loops] at hf
            cases hf
          · exact hf
        · exact hf
      · exact .inr hf
    all := by subst hs₂; exact hfresh.all
    callees := by subst hs₂; exact hfresh.callees
    callers := by subst hs₂; exact hfresh.callers
    order := by subst hs₂; exact hfresh.order }

/-! ## The calls of a contracted graph -/

namespace Contracted

/-- The caller written in a call is the node of its caller. -/
theorem caller_eq (h : Contracted r s t) (hp : p ∈ s.paths) :
    (t.callPaths p).caller = t.node (s.callPaths p).caller := by
  obtain ⟨pathType, -, heq⟩ := h.callPaths p hp
  rw [heq]
  unfold contractedPath node
  dsimp only
  split <;> split <;> rfl

/-- The callee is the node of its callee, unless both ends are in cycles. -/
theorem callee_eq (h : Contracted r s t) (hp : p ∈ s.paths)
    (hends : ¬ ((s.callPaths p).caller ∈ t.flippedIntraFunctionMap.keys ∧
      (s.callPaths p).callee ∈ t.flippedIntraFunctionMap.keys)) :
    (t.callPaths p).callee = t.node (s.callPaths p).callee := by
  obtain ⟨pathType, -, heq⟩ := h.callPaths p hp
  rw [heq]
  unfold contractedPath node
  dsimp only
  by_cases hcaller : (s.callPaths p).caller ∈ t.flippedIntraFunctionMap.keys
  · have hcallee := fun hcallee => hends ⟨hcaller, hcallee⟩
    rw [if_pos hcaller, if_neg hcallee, if_neg hcallee]
  · rw [if_neg hcaller]
    split <;> rfl

/-- A call between functions of cycles is written as a call of the caller's node by itself. -/
theorem inner (h : Contracted r s t) (hp : p ∈ s.paths)
    (hcaller : (s.callPaths p).caller ∈ t.flippedIntraFunctionMap.keys)
    (hcallee : (s.callPaths p).callee ∈ t.flippedIntraFunctionMap.keys) :
    (t.callPaths p).callee = t.node (s.callPaths p).caller ∧
      (t.callPaths p).pathType =
        if (s.functionMap.get (s.callPaths p).callee).length > 1 then .markInnerBranch
        else .markSimpleInner := by
  obtain ⟨pathType, -, heq⟩ := h.callPaths p hp
  rw [heq, node_of_mem hcaller]
  unfold contractedPath
  dsimp only
  rw [if_pos hcaller, if_pos hcallee]
  exact ⟨rfl, rfl⟩

/-- The nodes of functions in different components differ. -/
theorem node_ne (h : Contracted r s t) (hf : IsFunction f) (hg : IsFunction g)
    (hne : r.sccMap f ≠ r.sccMap g) : t.node f ≠ t.node g := by
  intro heq
  have hnamed : ∀ x y, IsFunction y → x ∈ t.flippedIntraFunctionMap.keys → t.node x = t.node y →
      y ∈ t.flippedIntraFunctionMap.keys := by
    intro x y hy hx heq
    refine h.named.mem_of_node_mem hy ?_
    rw [← heq, node_of_mem hx]
    exact (h.named.names _).mpr ⟨x, hx, rfl⟩
  by_cases hcycle : f ∈ t.flippedIntraFunctionMap.keys
  · have hgcycle := hnamed f g hg hcycle heq
    rw [node_of_mem hcycle, node_of_mem hgcycle] at heq
    exact hne ((h.named.same f hcycle g hgcycle).mp heq)
  · have hgcycle : g ∉ t.flippedIntraFunctionMap.keys := fun hgcycle =>
      hcycle (hnamed g f hf hgcycle heq.symm)
    rw [node_of_not_mem hcycle, node_of_not_mem hgcycle] at heq
    exact hne (congrArg r.sccMap heq)

end Contracted

/-! ## Classification -/

/-- The two functions are in the same cycle. -/
def SameCycle (r : SCCResult) (f g : String) : Prop :=
  r.InCycle f ∧ r.InCycle g ∧ r.sccMap f = r.sccMap g

/-- The call leads from a function of a cycle to one of another. -/
def BetweenCycles (r : SCCResult) (e : CallPath) : Prop :=
  r.InCycle e.caller ∧ r.InCycle e.callee ∧ r.sccMap e.caller ≠ r.sccMap e.callee

/-- The call joins two different nodes, and the maps list it under both. -/
def Kept (t : InstrumentIRPass) (p : ℕ) : Prop :=
  (t.callPaths p).caller ≠ (t.callPaths p).callee ∧
    p ∈ t.flippedFunctionMap.get (t.callPaths p).caller ∧
    p ∈ t.functionMap.get (t.callPaths p).callee

/-- What `instrIsInaLoop` should make of a call between marked functions: inside a cycle, out of a
cycle, into a cycle, and between components at all. -/
structure Classified (r : SCCResult) (t : InstrumentIRPass) (e : CallPath) (p : ℕ) : Prop where
  inner : SameCycle r e.caller e.callee →
    ((t.callPaths p).pathType = .markSimpleInner ∨ (t.callPaths p).pathType = .markInnerBranch) ∧
      (t.callPaths p).caller = t.flippedIntraFunctionMap.get e.caller ∧
      (t.callPaths p).callee = t.flippedIntraFunctionMap.get e.caller
  leaving : r.InCycle e.caller → ¬ SameCycle r e.caller e.callee →
    t.Kept p ∧ (t.callPaths p).caller = t.flippedIntraFunctionMap.get e.caller
  entering : r.InCycle e.callee → ¬ SameCycle r e.caller e.callee →
    t.Kept p ∧ (t.callPaths p).callee = t.flippedIntraFunctionMap.get e.callee
  kept : r.sccMap e.caller ≠ r.sccMap e.callee → t.Kept p

/-- The call is made between marked functions. -/
def MarkedCall (s : InstrumentIRPass) (p : ℕ) : Prop :=
  p ∈ s.paths ∧ (s.callPaths p).caller ∈ s.functionMarkSet ∧
    (s.callPaths p).callee ∈ s.functionMarkSet

namespace Contracted

/-- A call that does not join two cycles keeps both of its nodes. -/
theorem kept (h : Contracted r s t) (hs : s.CallGraph) (hp : p ∈ s.paths)
    (hbetween : ¬ BetweenCycles r (s.callPaths p))
    (hne : r.sccMap (s.callPaths p).caller ≠ r.sccMap (s.callPaths p).callee) : t.Kept p := by
  have hcallee : (t.callPaths p).callee = t.node (s.callPaths p).callee := by
    refine h.callee_eq hp ?_
    rintro ⟨hcaller, hcallee⟩
    exact hbetween ⟨(h.named.functions _).mp hcaller, (h.named.functions _).mp hcallee, hne⟩
  unfold Kept
  rw [h.caller_eq hp, hcallee]
  refine ⟨?_, (h.mem_flipped p _).mpr ⟨hp, rfl⟩, (h.mem_functionMap p _).mpr ⟨hp, rfl⟩⟩
  exact h.node_ne (hs.isFunction (hs.caller_mem hp)) (hs.isFunction (hs.callee_mem hp)) hne

/-- **One call is classified** exactly when it does not join two cycles. -/
theorem classified_iff (h : Contracted r s t) (hs : s.CallGraph) (hr : r.Correct s.markedEdges)
    (hmarked : s.MarkedCall p) :
    Classified r t (s.callPaths p) p ↔ ¬ BetweenCycles r (s.callPaths p) := by
  obtain ⟨hp, hcaller, hcallee⟩ := hmarked
  have hcycle : ∀ f, f ∈ t.flippedIntraFunctionMap.keys ↔ r.InCycle f := h.named.functions
  constructor
  · rintro hclass ⟨hin, hout, hne⟩
    have hleaving := hclass.leaving hin fun hsame => hne hsame.2.2
    have hends := (h.inner hp ((hcycle _).mpr hin) ((hcycle _).mpr hout)).1
    exact hleaving.1.1 ((h.caller_eq hp).trans hends.symm)
  · intro hbetween
    have hedge : ((s.callPaths p).caller, (s.callPaths p).callee) ∈ s.markedEdges :=
      hs.mem_markedEdges.mpr ⟨hcaller, hcallee, p, hp, rfl, rfl⟩
    have hnodeCaller : (s.callPaths p).caller ∈ r.nodeSet := (hr.mem _).mpr ⟨_, .inl hedge⟩
    have hnodeCallee : (s.callPaths p).callee ∈ r.nodeSet := (hr.mem _).mpr ⟨_, .inr hedge⟩
    -- where one end is in a cycle, the other is not in the same component
    have hapart : ¬ SameCycle r (s.callPaths p).caller (s.callPaths p).callee →
        r.InCycle (s.callPaths p).caller ∨ r.InCycle (s.callPaths p).callee →
        r.sccMap (s.callPaths p).caller ≠ r.sccMap (s.callPaths p).callee := by
      rintro hsame hends heq
      by_cases hself : (s.callPaths p).caller = (s.callPaths p).callee
      · have hin : r.InCycle (s.callPaths p).caller := by
          rcases hends with hin | hin
          · exact hin
          · exact hself ▸ hin
        exact hsame ⟨hin, hself ▸ hin, heq⟩
      · exact hsame ⟨⟨hnodeCaller, _, hnodeCallee, Ne.symm hself, heq.symm⟩,
          ⟨hnodeCallee, _, hnodeCaller, hself, heq⟩, heq⟩
    refine ⟨?_, ?_, ?_, h.kept hs hp hbetween⟩
    · rintro ⟨hin, hout, -⟩
      have hin' := (hcycle _).mpr hin
      obtain ⟨hend, htype⟩ := h.inner hp hin' ((hcycle _).mpr hout)
      refine ⟨?_, (h.caller_eq hp).trans (node_of_mem hin'), hend.trans (node_of_mem hin')⟩
      rw [htype]
      split
      · exact .inr rfl
      · exact .inl rfl
    · intro hin hsame
      refine ⟨h.kept hs hp hbetween (hapart hsame (.inl hin)), ?_⟩
      exact (h.caller_eq hp).trans (node_of_mem ((hcycle _).mpr hin))
    · intro hin hsame
      have hne := hapart hsame (.inr hin)
      refine ⟨h.kept hs hp hbetween hne, ?_⟩
      have hends : ¬ ((s.callPaths p).caller ∈ t.flippedIntraFunctionMap.keys ∧
          (s.callPaths p).callee ∈ t.flippedIntraFunctionMap.keys) := fun hends =>
        hbetween ⟨(hcycle _).mp hends.1, hin, hne⟩
      exact (h.callee_eq hp hends).trans (node_of_mem ((hcycle _).mpr hin))

end Contracted

variable {callPaths : ℕ → CallPath} {functionMap : KeyMap String (List ℕ)}
  {kosaraju : List (String × String) → SCCResult}

/-- **Classification of the calls.** After `instrIsInaLoop` every call between marked functions is
classified exactly when none of them leads from one cycle to another. -/
theorem scc_edges_classified (h : WellFormed callPaths functionMap) (inLoop : ℕ → Bool)
    (hr : (kosaraju (initial callPaths functionMap).doInitialization.markedEdges).Correct
      (initial callPaths functionMap).doInitialization.markedEdges) :
    let s := (initial callPaths functionMap).doInitialization
    let r := kosaraju s.markedEdges
    let t := s.instrIsInaLoop inLoop kosaraju
    CyclesNamed r t ∧
      ((∀ p, s.MarkedCall p → Classified r t (s.callPaths p) p) ↔
        ∀ p, s.MarkedCall p → ¬ BetweenCycles r (s.callPaths p)) := by
  intro s r t
  have hs : s.CallGraph := doInitialization_callGraph h
  have hcontracted : Contracted r s t :=
    instrIsInaLoop_contracted hs (doInitialization_fresh (initial_fresh ..)) inLoop hr
  refine ⟨hcontracted.named, ?_⟩
  exact forall₂_congr fun p hmarked => hcontracted.classified_iff hs hr hmarked

/-- Two functions that call each other, one of which allocates. -/
def mutualPair : InstrumentIRPass :=
  callGraph ["apply", "eval", "malloc"]
    [(0, "eval", "apply"), (1, "apply", "eval"), (2, "apply", "malloc")]

/-- Its components. -/
def mutualPairComponents : SCCResult where
  nodeSet := ["apply", "eval", "malloc"]
  sccMap f := if f ∈ ["apply", "eval"] then 0 else 1

theorem mutualPair_wellFormed : WellFormed mutualPair.callPaths mutualPair.functionMap :=
  callGraph_wellFormed (by decide +kernel) (by decide +kernel)

theorem mutualPairComponents_correct :
    mutualPairComponents.Correct mutualPair.doInitialization.markedEdges :=
  SCCResult.correct_of_numbering (by decide +kernel) (by decide +kernel) (by decide +kernel)
    (by decide +kernel)

/-- The calls in the pair are inner calls, and the allocation leads out of it. -/
theorem scc_edges_classified_mutualPair :
    let s := mutualPair.doInitialization
    let t := s.instrIsInaLoop (fun _ => false) fun _ => mutualPairComponents
    CyclesNamed mutualPairComponents t ∧
      (∀ p, s.MarkedCall p → Classified mutualPairComponents t (s.callPaths p) p) ∧
      [0, 1, 2].map (fun p => (t.callPaths p).pathType) =
        [.markSimpleInner, .markSimpleInner, .markOutbound] := by
  intro s t
  obtain ⟨hnamed, hiff⟩ := @scc_edges_classified _ _ (fun _ => mutualPairComponents)
    mutualPair_wellFormed (fun _ => false) mutualPairComponents_correct
  refine ⟨hnamed, hiff.mpr fun p _ hbetween => ?_, by decide +kernel⟩
  have hone : ∀ f ∈ mutualPairComponents.nodeSet, ∀ g ∈ mutualPairComponents.nodeSet, g ≠ f →
      mutualPairComponents.sccMap g = mutualPairComponents.sccMap f →
        mutualPairComponents.sccMap f = 0 := by decide +kernel
  obtain ⟨⟨hcaller, g, hg, hne, hsame⟩, ⟨hcallee, g', hg', hne', hsame'⟩, happart⟩ := hbetween
  exact happart ((hone _ hcaller g hg hne hsame).trans (hone _ hcallee g' hg' hne' hsame').symm)

/-- Two pairs of functions that call each other; the first pair calls the second. -/
def twoCycles : InstrumentIRPass :=
  callGraph ["apply", "eval", "malloc", "read", "token"]
    [(0, "eval", "apply"), (1, "apply", "eval"), (2, "apply", "read"), (3, "read", "token"),
      (4, "token", "read"), (5, "token", "malloc")]

/-- Its components. -/
def twoCyclesComponents : SCCResult where
  nodeSet := ["apply", "eval", "malloc", "read", "token"]
  sccMap f := if f ∈ ["apply", "eval"] then 0 else if f ∈ ["read", "token"] then 1 else 2

theorem twoCycles_wellFormed : WellFormed twoCycles.callPaths twoCycles.functionMap :=
  callGraph_wellFormed (by decide +kernel) (by decide +kernel)

theorem twoCyclesComponents_correct :
    twoCyclesComponents.Correct twoCycles.doInitialization.markedEdges :=
  SCCResult.correct_of_numbering (by decide +kernel) (by decide +kernel) (by decide +kernel)
    (by decide +kernel)

/-- The call between the two pairs is lost. -/
theorem scc_edge_lost : ¬ ∀ (callPaths : ℕ → CallPath) (functionMap : KeyMap String (List ℕ))
    (inLoop : ℕ → Bool) (kosaraju : List (String × String) → SCCResult),
    WellFormed callPaths functionMap →
    (kosaraju (initial callPaths functionMap).doInitialization.markedEdges).Correct
      (initial callPaths functionMap).doInitialization.markedEdges →
    let s := (initial callPaths functionMap).doInitialization
    let r := kosaraju s.markedEdges
    let t := s.instrIsInaLoop inLoop kosaraju
    ∀ p, s.MarkedCall p → Classified r t (s.callPaths p) p := by
  intro hall
  have hs : twoCycles.doInitialization.CallGraph := doInitialization_callGraph twoCycles_wellFormed
  have hcontracted := @instrIsInaLoop_contracted _ hs (doInitialization_fresh (initial_fresh ..))
    (fun _ => false) (fun _ => twoCyclesComponents) twoCyclesComponents_correct
  have hmarked : twoCycles.doInitialization.MarkedCall 2 :=
    ⟨by decide +kernel, by decide +kernel, by decide +kernel⟩
  have hclass := hall _ _ (fun _ => false) (fun _ => twoCyclesComponents) twoCycles_wellFormed
    twoCyclesComponents_correct 2 hmarked
  refine (hcontracted.classified_iff hs twoCyclesComponents_correct hmarked).mp hclass ?_
  have hends : twoCyclesComponents.InCycle "apply" ∧ twoCyclesComponents.InCycle "read" ∧
      twoCyclesComponents.sccMap "apply" ≠ twoCyclesComponents.sccMap "read" :=
    ⟨⟨by decide +kernel, "eval", by decide +kernel, by decide +kernel, by decide +kernel⟩,
      ⟨by decide +kernel, "token", by decide +kernel, by decide +kernel, by decide +kernel⟩,
      by decide +kernel⟩
  have hcall : (twoCycles.doInitialization.callPaths 2).caller = "apply" ∧
      (twoCycles.doInitialization.callPaths 2).callee = "read" := by decide +kernel
  unfold BetweenCycles
  rw [hcall.1, hcall.2]
  exact hends

end InstrumentIRPass

end Semalloc
