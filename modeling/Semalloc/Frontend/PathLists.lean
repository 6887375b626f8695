import Semalloc.Frontend.HeapInterface
import Semalloc.Library.Folding

/-!
# Lists of call paths

The call paths that are built are those of the calls of the functions, one for each function that a
call is for. They differ where the functions, the instructions and the callees differ.

## Main definitions

* `pathsFor`: the call paths of functions
* `indirectNames`, `libraryNames`: what an indirect call is for

## Main results

* `nodup_pathsFor`, `disjoint_pathsFor`: call paths differ
* `traverse_get`, `mem_traverse_keys`: the heap functions behind global variables
* `run_default`: no call path is looked at while they are built
-/

set_option autoImplicit false

namespace Semalloc

namespace ConstructCGPass

variable {e : CallPath} {names : IRCall → List String}

/-! ## Call paths of functions -/

/-- One call path for each call and each function it is for. -/
def pathsFor (fs : List IRFunction) (names : IRCall → List String) : List CallPath :=
  fs.flatMap fun F => F.calls.flatMap fun c =>
    (names c).map fun callee => .new c.inst callee F.name

theorem mem_pathsFor {fs : List IRFunction} : e ∈ pathsFor fs names ↔
    ∃ F ∈ fs, ∃ c ∈ F.calls, ∃ callee ∈ names c, e = .new c.inst callee F.name := by
  simp only [pathsFor, List.mem_flatMap, List.mem_map, eq_comm]

/-- **Different call paths**: the callers differ, or the instructions, or the callees. -/
theorem nodup_pathsFor {fs : List IRFunction} (hfs : (fs.map IRFunction.name).Nodup)
    (hcalls : ∀ F ∈ fs, (F.calls.map IRCall.inst).Nodup)
    (hcallees : ∀ F ∈ fs, ∀ c ∈ F.calls, (names c).Nodup) : (pathsFor fs names).Nodup := by
  refine List.nodup_flatMap.mpr ⟨fun F hF => List.nodup_flatMap.mpr ⟨fun c hc => ?_, ?_⟩, ?_⟩
  · exact (hcallees F hF c hc).map fun a b hab => congrArg CallPath.callee hab
  · refine (List.pairwise_map.mp (hcalls F hF)).imp fun hne => ?_
    rintro e he he'
    obtain ⟨_, -, rfl⟩ := List.mem_map.mp he
    obtain ⟨_, -, heq⟩ := List.mem_map.mp he'
    exact hne (congrArg CallPath.callInst heq).symm
  · refine (List.pairwise_map.mp hfs).imp fun hne => ?_
    rintro e he he'
    obtain ⟨_, -, he⟩ := List.mem_flatMap.mp he
    obtain ⟨_, -, he'⟩ := List.mem_flatMap.mp he'
    obtain ⟨_, -, rfl⟩ := List.mem_map.mp he
    obtain ⟨_, -, heq⟩ := List.mem_map.mp he'
    exact hne (congrArg CallPath.caller heq).symm

theorem disjoint_pathsFor {fs : List IRFunction} {names' : IRCall → List String}
    (hfs : (fs.map IRFunction.name).Nodup) (hcalls : ∀ F ∈ fs, (F.calls.map IRCall.inst).Nodup)
    (hnames : ∀ F ∈ fs, ∀ c ∈ F.calls, ∀ callee ∈ names c, callee ∉ names' c) :
    (pathsFor fs names).Disjoint (pathsFor fs names') := by
  intro e he he'
  obtain ⟨F, hF, c, hc, callee, hcallee, rfl⟩ := mem_pathsFor.mp he
  obtain ⟨F', hF', c', hc', callee', hcallee', heq⟩ := mem_pathsFor.mp he'
  obtain rfl := List.inj_on_of_nodup_map hfs hF hF' (congrArg CallPath.caller heq)
  obtain rfl := List.inj_on_of_nodup_map (hcalls F hF) hc hc' (congrArg CallPath.callInst heq)
  obtain rfl : callee = callee' := congrArg CallPath.callee heq
  exact hnames F hF c hc callee hcallee hcallee'

/-- The functions an indirect call may call. -/
def indirectNames (ctx : GlobalContext) (c : IRCall) : List String :=
  if c.operand.isIndirectCall then ctx.callees c.inst else []

theorem indirectPaths_eq (ctx : GlobalContext) : ctx.indirectPaths =
    pathsFor (ctx.modules.flatMap IRModule.functions) (indirectNames ctx) := by
  have hcalls : ∀ (F : IRFunction) (cs : List IRCall),
      ((cs.filter fun c => c.operand.isIndirectCall).flatMap fun c =>
        (ctx.callees c.inst).map fun callee => CallPath.new c.inst callee F.name) =
          cs.flatMap fun c => (indirectNames ctx c).map fun callee =>
            CallPath.new c.inst callee F.name := by
    intro F cs
    induction cs with
    | nil => rfl
    | cons c cs ih =>
      unfold indirectNames at *
      cases hindirect : c.operand.isIndirectCall <;> simp [hindirect, ih]
  simp only [GlobalContext.indirectPaths, GlobalContext.indirectCallInsts, pathsFor,
    List.flatMap_assoc, List.flatMap_map, hcalls]

theorem directPaths_eq (ctx : GlobalContext) : ctx.directPaths =
    pathsFor (ctx.modules.flatMap IRModule.functions) fun c => c.directCallee.toList := by
  simp only [GlobalContext.directPaths, pathsFor, List.flatMap_assoc]
  rfl

/-- The heap functions that an indirect call may call through a global variable. -/
def libraryNames (r : ReduceLibraryIndirectCall) (c : IRCall) : List String :=
  if c.operand.isIndirectCall then
    ((r.loadedFrom c.inst).toList.filter fun name =>
      name ∈ r.traverseGlobalVariables4Malloc.keys).map r.traverseGlobalVariables4Malloc.get
  else []

theorem paths_eq (r : ReduceLibraryIndirectCall) (M : IRModule) :
    r.paths M = pathsFor M.functions (libraryNames r) := by
  unfold ReduceLibraryIndirectCall.paths pathsFor
  refine List.flatMap_congr fun F _ => List.flatMap_congr fun c _ => ?_
  unfold ReduceLibraryIndirectCall.indirectPath libraryNames
  split
  · rw [List.map_map]
    rfl
  · rfl

section GlobalVariables

variable {r : ReduceLibraryIndirectCall} {GV : GlobalVariable} {HMF name : String}

/-- A name that is noted is that of a variable, and it is noted with its heap function. -/
theorem traverse_get (h : name ∈ r.traverseGlobalVariables4Malloc.keys) :
    ∃ GV ∈ r.globals, GV.name = name ∧ GV.isPointer = true ∧
      GV.initializer = some (r.traverseGlobalVariables4Malloc.get name) ∧
      r.traverseGlobalVariables4Malloc.get name ∈ initialHeapFunctions := by
  let Noted : KeyMap String String → Prop := fun m => ∀ name ∈ m.keys, ∃ GV ∈ r.globals,
    GV.name = name ∧ GV.isPointer = true ∧ GV.initializer = some (m.get name) ∧
      m.get name ∈ initialHeapFunctions
  refine Folding.foldl_invariant (I := Noted) (fun m GV hGV hm => ?_)
    (fun name h => absurd h List.not_mem_nil) name h
  refine Folding.foldl_invariant (I := Noted) (fun m HMF hHMF hm => ?_) hm
  split
  · rename_i hinit
    intro name hname
    by_cases hself : name = GV.name
    · subst hself
      refine ⟨GV, hGV, rfl, hinit.1, ?_, ?_⟩
      · rw [KeyMap.insert_get_self]
        exact hinit.2
      · rw [KeyMap.insert_get_self]
        exact hHMF
    · rw [KeyMap.insert_get_of_ne hself]
      exact hm name ((KeyMap.mem_insert_keys.mp hname).resolve_left hself)
  · exact hm

/-- A variable that is initialized with a heap function is noted. -/
theorem mem_traverse_keys (hGV : GV ∈ r.globals) (hpointer : GV.isPointer = true)
    (hinit : GV.initializer = some HMF) (hHMF : HMF ∈ initialHeapFunctions) :
    GV.name ∈ r.traverseGlobalVariables4Malloc.keys := by
  let Grows : KeyMap String String → KeyMap String String → Prop := fun m m' => m.keys ⊆ m'.keys
  have hrefl : ∀ m, Grows m m := fun m => List.Subset.refl _
  have htrans : ∀ {m m' m''}, Grows m m' → Grows m' m'' → Grows m m'' := List.Subset.trans
  have hstep : ∀ (GV : GlobalVariable) (m : KeyMap String String), ∀ HMF ∈ initialHeapFunctions,
      Grows m (if GV.isPointer ∧ GV.initializer = some HMF then m.insert GV.name HMF else m) := by
    intro GV m HMF _
    split
    · exact fun k hk => KeyMap.mem_insert_keys.mpr (.inr hk)
    · exact hrefl m
  obtain ⟨m, -, hrest⟩ := Folding.foldl_at (r := Grows) (s := .empty "") hrefl htrans
    (fun m GV _ => Folding.foldl_rel hrefl htrans (hstep GV)) hGV
  obtain ⟨m', -, hrest'⟩ := Folding.foldl_at (r := Grows) (s := m) hrefl htrans (hstep GV) hHMF
  refine hrest (hrest' ?_)
  rw [if_pos ⟨hpointer, hinit⟩]
  exact KeyMap.mem_insert_keys.mpr (.inl rfl)

end GlobalVariables

/-! ## Call paths are new -/

/-- Call paths that are appended are new. -/
theorem addPaths_default {s : ConstructCGPass} {fs : List IRFunction}
    (hs : ∀ n, (s.callPaths n).pathType = .default ∧ (s.callPaths n).callsHMF = false) :
    ∀ s' ∈ (pathsFor fs names).foldlM addPath s,
      ∀ n, (s'.callPaths n).pathType = .default ∧ (s'.callPaths n).callsHMF = false := by
  refine Folding.foldlM_invariant (fun s e he hs s' h n => ?_) hs
  obtain ⟨_, _, _, _, _, _, rfl⟩ := mem_pathsFor.mp he
  obtain ⟨-, h⟩ := Option.ite_none_right_eq_some.mp h
  obtain rfl := Option.some.inj h
  dsimp only
  rw [Function.update_apply]
  split
  · exact ⟨rfl, rfl⟩
  · exact hs n

/-- No call path is looked at while they are built. -/
theorem run_default {ctx : GlobalContext} {r : ReduceLibraryIndirectCall} {M : IRModule}
    {s s' : ConstructCGPass} (hrun : run ctx = some s)
    (hreduce : r.updateCFGWithIndirectCalls M s = some s') (n : ℕ) :
    (s'.callPaths n).pathType = .default ∧ (s'.callPaths n).callsHMF = false := by
  let New : ConstructCGPass → Prop := fun s =>
    ∀ n, (s.callPaths n).pathType = .default ∧ (s.callPaths n).callsHMF = false
  have hnewList : ∀ (fs : List IRFunction) s, New s → New (fs.foldl newList s) := by
    intro fs s hs
    refine Folding.foldl_invariant (fun s F _ hs => ?_) hs
    unfold newList
    split
    · exact hs
    · exact hs
  obtain ⟨s₁, hinitialized, hpasses⟩ := Option.bind_eq_some_iff.mp hrun
  have hinitialized : New s₁ := by
    refine Folding.foldlM_invariant (I := New) (fun s M _ hs s' h => ?_) (fun n => ⟨rfl, rfl⟩) s₁
      hinitialized
    unfold doInitialization at h
    rw [mergeIndirectFunctionCalls_eq, indirectPaths_eq] at h
    exact addPaths_default (hnewList M.functions s hs) s' h
  rw [doModulePasses_eq, directPaths_eq] at hpasses
  rw [r.updateCFGWithIndirectCalls_eq M, paths_eq] at hreduce
  exact addPaths_default (addPaths_default hinitialized s hpasses) s' hreduce n

end ConstructCGPass

end Semalloc
