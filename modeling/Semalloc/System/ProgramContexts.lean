import Semalloc.Frontend.Kosaraju
import Semalloc.Frontend.WholeProgram
import Semalloc.System.Separation

/-!
# From the program to its memory

The passes one after the other: the calls of a program are resolved, the call paths are built and
numbered, and the numbers reach the allocator with the requests. In a program in one module whose
marked functions do not call each other in cycles, the graph that is numbered has the calls of the
program between relevant functions, and memory is kept apart by the paths of these calls.

## Main results

* `mem_finalCallees_of_analyze`: which calls are numbered
* `program_contexts_kept_apart`: the passes and the allocator
-/

set_option autoImplicit false

namespace Semalloc

namespace InstrumentIRPass

variable {callPaths : ℕ → CallPath} {functionMap : KeyMap String (List ℕ)}
  {kosaraju : List (String × String) → SCCResult} {t : InstrumentIRPass} {f : String} {q : ℕ}
  {inLoop : ℕ → Bool}

section Analysis

variable (hwf : WellFormed callPaths functionMap)
  (hr : (kosaraju (initial callPaths functionMap).doInitialization.markedEdges).Correct
    (initial callPaths functionMap).doInitialization.markedEdges)
  (hacyclic : ∀ f g, SameComponent
    (initial callPaths functionMap).doInitialization.markedEdges f g → f = g)
  (hok : (initial callPaths functionMap).analyze inLoop kosaraju = .ok t)

include hwf hr hacyclic hok

/-- **The calls that are numbered** are those between different relevant functions, and they are for
the instructions they were for. -/
theorem mem_finalCallees_of_analyze :
    (q ∈ t.finalCalleeMap.get f ↔ q ∈ (initial callPaths functionMap).paths ∧
      (callPaths q).caller = f ∧ (callPaths q).callee ≠ f ∧ f ∈ t.relevantAllFunctionSet ∧
        (callPaths q).callee ∈ t.relevantAllFunctionSet) ∧
      (q ∈ (initial callPaths functionMap).paths → (t.callPaths q).callee = (callPaths q).callee ∧
        (t.callPaths q).callInst = (callPaths q).callInst) := by
  have hs := doInitialization_callGraph hwf
  have hcontracted := instrIsInaLoop_contracted hs (doInitialization_fresh (initial_fresh ..))
    inLoop hr
  have hcycles := not_inCycle hr hacyclic
  have hfinished := constructFinalCFG_finished hcontracted
  obtain ⟨hshape, -⟩ := computeEdgeWeight_spec (hfinished.finalMaps hs) hok
  obtain ⟨-, hcallee, hcaller, hinst, hmap⟩ :=
    doInitialization_callPaths (initial callPaths functionMap) q
  have hpaths : (initial callPaths functionMap).doInitialization.paths =
      (initial callPaths functionMap).paths := by
    unfold paths
    rw [hmap]
  -- without cycles the contraction leaves the ends of every call
  constructor
  · rw [hshape.callees, hshape.relevant]
    constructor
    · intro hq
      obtain ⟨hpath, rfl⟩ := hfinished.caller_of_mem hcycles hq
      obtain ⟨hf, -, hne, hg⟩ := hfinished.mem_callees.mp hq
      obtain ⟨hcaller', hcallee'⟩ := hcontracted.ends_eq hcycles hpath
      rw [hcallee', hcallee] at hg
      rw [hcaller', hcallee', hcallee] at hne
      exact ⟨hpaths ▸ hpath, hcaller.symm, Ne.symm hne, hf, hg⟩
    · rintro ⟨hpath, rfl, hne, hf, hg⟩
      rw [← hpaths] at hpath
      obtain ⟨hcaller', hcallee'⟩ := hcontracted.ends_eq hcycles hpath
      refine hfinished.mem_callees.mpr ⟨hf, (hcontracted.mem_flipped q _).mpr ⟨hpath, ?_⟩, ?_, ?_⟩
      · rw [node_of_not_mem (hcontracted.keys_eq_nil hcycles ▸ List.not_mem_nil), hcaller]
        rfl
      · rw [hcaller', hcallee', hcallee, hcaller]
        exact Ne.symm hne
      · rw [hcallee', hcallee]
        exact hg
  · intro hpath
    rw [← hpaths] at hpath
    refine ⟨?_, ?_⟩
    · rw [hshape.callee_eq, hfinished.callee_eq, (hcontracted.ends_eq hcycles hpath).2, hcallee]
      rfl
    · rw [hshape.callPaths q]
      exact (hfinished.callInst_eq hpath).trans hinst

end Analysis

end InstrumentIRPass

open MLTA CallGraphPass InstrumentIRPass

variable {p : Program} {M : Module}

/-- The call graph that is numbered: the calls of the program between different functions that
count. -/
def NumbersCalls (p : Program) (t : InstrumentIRPass) : Prop :=
  ∀ f g CI, (∃ q ∈ t.finalCalleeMap.get f,
      (t.callPaths q).callee = g ∧ (t.callPaths q).callInst = CI) ↔
    CallsTo p (.new CI g f) ∧ g ≠ f ∧ f ∈ t.relevantAllFunctionSet ∧ g ∈ t.relevantAllFunctionSet

/-- **The call graph is numbered**: the call paths are built, and where the marked functions do not
call each other in cycles the analysis returns and numbers the calls of the program. -/
theorem analyzed (hscope : WellScoped p) (hp : OneModule p M) (S : CXXGraph.HashSets)
    (inLoop : ℕ → Bool) :
    ∃ s s', ConstructCGPass.run (context p) = some s ∧
      (library p M).updateCFGWithIndirectCalls (irModule p M) s = some s' ∧
      let pass := initial s'.callPaths s'.functionMap
      let marked := pass.doInitialization
      DistinctNumbers S marked.functionMarkSet.length →
        (∀ f g, SameComponent marked.markedEdges f g → f = g) →
          ∃ t, pass.analyze inLoop (sccOfFunctions S marked.functionMarkSet) = .ok t ∧ t.Flat ∧
            NumbersCalls p t := by
  obtain ⟨s, s', hrun, hreduce, hs', hkeys, hlisted⟩ := hp.run_listed hscope
  have hcall : ∀ f, ∀ q ∈ s'.functionMap.get f, CallsTo p (s'.callPaths q) := fun f q hq =>
    (((hlisted f).2 _).mp (List.mem_map_of_mem hq)).2
  have hunmarked := hp.unmarked hscope hrun hreduce hs' hkeys hcall
  refine ⟨s, s', hrun, hreduce, ?_⟩
  intro pass marked hS hacyclic
  -- the call paths of the pass are those of the calls
  have hpaths : ∀ q, q ∈ pass.paths ↔ ∃ f ∈ s'.functionMap.keys, q ∈ s'.functionMap.get f := by
    intro q
    simp [pass, paths, KeyMap.values, initial]
  have hsites : ∀ q ∈ pass.paths, ∀ q' ∈ pass.paths,
      (s'.callPaths q).callInst = (s'.callPaths q').callInst →
        (s'.callPaths q).caller = (s'.callPaths q').caller := by
    intro q hq q' hq'
    obtain ⟨f, -, hq⟩ := (hpaths q).mp hq
    obtain ⟨g, -, hq'⟩ := (hpaths q').mp hq'
    exact hunmarked.sites f g q hq q' hq'
  have hgraph := doInitialization_callGraph hunmarked.wellFormed
  have hr : (sccOfFunctions S marked.functionMarkSet marked.markedEdges).Correct
      marked.markedEdges :=
    sccOfFunctions_correct hS fun e he =>
      ⟨(hgraph.mem_markedEdges.mp he).1, (hgraph.mem_markedEdges.mp he).2.1⟩
  obtain ⟨t, hok, hflat⟩ := flat_of_analyze hunmarked.wellFormed hunmarked.default hsites inLoop hr
    hacyclic
  have hfinal := fun {f q} => mem_finalCallees_of_analyze (f := f) (q := q) hunmarked.wellFormed hr
    hacyclic hok
  refine ⟨t, hok, hflat, fun f g CI => ?_⟩
  constructor
  · rintro ⟨q, hq, rfl, rfl⟩
    obtain ⟨hpath, rfl, hne, hf, hg⟩ := hfinal.1.mp hq
    obtain ⟨hcallee, hinst⟩ := (hfinal (f := "")).2 hpath
    obtain ⟨g, -, hlist⟩ := (hpaths q).mp hpath
    rw [hcallee, hinst]
    exact ⟨(hcall g q hlist).eq_new ▸ hcall g q hlist, hne, hf, hg⟩
  · rintro ⟨h, hne, hf, hg⟩
    -- the call is in the list of the function that it calls
    obtain ⟨q, hq, hpath⟩ := List.mem_map.mp (((hlisted g).2 _).mpr ⟨rfl, h⟩)
    have hmem : q ∈ pass.paths :=
      (hpaths q).mpr ⟨g, (hkeys g).mpr (hp.declared_of_callsTo h), hq⟩
    obtain ⟨hcallee, hinst⟩ := (hfinal (f := "")).2 hmem
    rw [hpath] at hcallee hinst
    refine ⟨q, hfinal.1.mpr ⟨hmem, ?_, ?_, hf, ?_⟩, hcallee, hinst⟩
    · rw [hpath]
      rfl
    · rw [hpath]
      exact hne
    · rw [hpath]
      exact hg

/-- **From the program to its memory.** The call paths of a program in one module are built, and
where its marked functions do not call each other in cycles they are numbered. The graph that is
numbered has the calls of the program between functions that count, and where the entries of each
call agree memory is kept apart by the paths of these calls. -/
theorem program_contexts_kept_apart (hscope : WellScoped p) (hp : OneModule p M)
    (S : CXXGraph.HashSets) (inLoop : ℕ → Bool) (inst : Site → CallInst) :
    ∃ s s', ConstructCGPass.run (context p) = some s ∧
      (library p M).updateCFGWithIndirectCalls (irModule p M) s = some s' ∧
      let pass := initial s'.callPaths s'.functionMap
      let marked := pass.doInitialization
      DistinctNumbers S marked.functionMarkSet.length →
        (∀ f g, SameComponent marked.markedEdges f g → f = g) →
          ∃ t, pass.analyze inLoop (sccOfFunctions S marked.functionMarkSet) = .ok t ∧
            NumbersCalls p t ∧ (t.EntriesAgree → KeepsContextsApart t inst) := by
  obtain ⟨s, s', hrun, hreduce, hanalyzed⟩ := analyzed hscope hp S inLoop
  refine ⟨s, s', hrun, hreduce, fun hS hacyclic => ?_⟩
  obtain ⟨t, hok, hflat, hnumbers⟩ := hanalyzed hS hacyclic
  refine ⟨t, hok, hnumbers, fun hagree => hflat.keepsContextsApart hagree fun g hg => ?_⟩
  -- the heap functions have no bodies, so they make no calls
  rw [List.eq_nil_iff_forall_not_mem]
  intro q hq
  obtain ⟨h, -⟩ := (hnumbers g _ _).mp ⟨q, hq, rfl, rfl⟩
  obtain ⟨F, info, hF, -, hcaller⟩ := h.caller hscope
  obtain rfl : g = info.name := hcaller
  exact (hp.bodies F info hF).2 hg

/-- A program that calls `fresh` directly and what it loads from `hook`, where it stored `grow`. -/
def hookProgram : Program where
  typeKind
    | 1 => .function
    | 2 => .pointer 1
    | 3 => .pointer 2
    | _ => .other
  print t := ["i32", "void ()", "void ()*", "void ()**"].getD t ""
  typeID t := t
  values :=
    [⟨.call [] 9 1, 0, some 4⟩, ⟨.call [] 5 1, 0, some 4⟩, ⟨.call [] 7 1, 0, some 5⟩,
     ⟨.call [] 7 1, 0, some 6⟩,
     ⟨.function ⟨"main", 1, 0, false, false, false, true, [], [10, 9, 0, 1]⟩, 2, none⟩,
     ⟨.function ⟨"fresh", 1, 1, false, false, true, true, [], [2]⟩, 2, none⟩,
     ⟨.function ⟨"grow", 1, 2, false, false, true, true, [], [3]⟩, 2, none⟩,
     ⟨.function ⟨"malloc", 1, 3, true, false, false, true, [], []⟩, 2, none⟩,
     ⟨.globalVariable "hook" (some 5), 3, none⟩, ⟨.load 8, 2, some 4⟩, ⟨.store 6 8, 0, some 4⟩]
  modules := [⟨[8], [4, 5, 6, 7], 0, []⟩]
  str_hash s := BitVec.ofNat 64 (s.toList.foldl (fun h c => 31 * h + c.toNat) 7)
  stripPointerCasts v := v
  getGEPIndicesForOffset _ _ := []

/-- The call graph of the program, before it is marked. -/
def hookGraph : Option InstrumentIRPass :=
  let M : Module := ⟨[8], [4, 5, 6, 7], 0, []⟩
  ((ConstructCGPass.run (context hookProgram)).bind
    ((library hookProgram M).updateCFGWithIndirectCalls (irModule hookProgram M))).map
      fun s => initial s.callPaths s.functionMap

/-- Its components. -/
def hookComponents : SCCResult where
  nodeSet := ["fresh", "grow", "main", "malloc"]
  sccMap f := if f = "main" then 0 else if f = "fresh" then 1 else if f = "grow" then 2 else 3

theorem program_contexts_kept_apart_hook : ∃ t, ∃ s : Traced (List ℕ),
    NumbersCalls hookProgram t ∧ s.history.map (fun x => (x.1.ptr, x.2)) =
      sharedEntryServed (2, 3) (0, 4) ∧ s.history.Pairwise ServedApart := by
  have hp : OneModule hookProgram ⟨[8], [4, 5, 6, 7], 0, []⟩ :=
    oneModule_of_values rfl (by decide) (by decide) (by decide) (by decide) (by decide) (by decide)
  have hscope : WellScoped hookProgram := by decide
  obtain ⟨s, s', hrun, hreduce, hkept⟩ := program_contexts_kept_apart hscope hp .plain
    (fun i => i = 2) fun _ => .call
  obtain ⟨r, r', hrun', hreduce', hanalyzed⟩ := analyzed hscope hp .plain fun i => i = 2
  obtain rfl := Option.some.inj (hrun.symm.trans hrun')
  obtain rfl := Option.some.inj (hreduce.symm.trans hreduce')
  have hgraph : hookGraph = some (initial s'.callPaths s'.functionMap) := by
    unfold hookGraph
    dsimp only
    rw [hrun, Option.bind_some, hreduce, Option.map_some]
  have hS : ∀ n, DistinctNumbers .plain n := by
    intro n i _ j _ h
    rw [← stoi_repr i, ← stoi_repr j]
    exact h
  -- what is read off the graph
  have hedges : hookGraph.map (fun s => s.doInitialization.markedEdges) =
      some [("fresh", "malloc"), ("grow", "malloc"), ("main", "fresh"), ("main", "fresh"),
        ("main", "grow")] := by decide +kernel
  have hchecks : hookGraph.bind (fun s => (s.analyze (fun i => i = 2)
      (sccOfFunctions .plain s.doInitialization.functionMarkSet)).toOption.map
        fun t => sharedEntryChecks t (2, 3) (0, 4)) = some (true, true, 2, 4) := by decide +kernel
  rw [hgraph, Option.map_some, Option.some.injEq] at hedges
  rw [hgraph, Option.bind_some] at hchecks
  have hacyclic : ∀ f g, SameComponent
      (initial s'.callPaths s'.functionMap).doInitialization.markedEdges f g → f = g := by
    have hcorrect : hookComponents.Correct
        (initial s'.callPaths s'.functionMap).doInitialization.markedEdges := by
      rw [hedges]
      exact SCCResult.correct_of_numbering (by decide +kernel) (by decide +kernel)
        (by decide +kernel) (by decide +kernel)
    exact hcorrect.eq_of_sameComponent (by decide +kernel)
  obtain ⟨t, hok, hnumbers, hkept⟩ := hkept (hS _) hacyclic
  obtain ⟨t', hok', hflat, -⟩ := hanalyzed (hS _) hacyclic
  obtain rfl := Except.ok.inj (hok.symm.trans hok')
  rw [hok, Except.toOption, Option.map_some, Option.some.injEq] at hchecks
  obtain ⟨hentries, hroot, -, hle, S, hserved, hhistory⟩ := sharedEntry_run hchecks
    (by decide +kernel)
  exact ⟨t, S, hnumbers, hhistory, hkept (hflat.entriesAgree_of_checked hentries) "main" hroot hle
    _ S rfl hserved⟩

end Semalloc
