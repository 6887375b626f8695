import Semalloc.Frontend.ConstructCG
import Semalloc.Frontend.EntryTags

/-!
# Rewritten heap calls

`ReduceLibraryIndirectCall` adds call paths for calls through global variables that are initialized
with a heap function. `UpdateHMFInterface` then goes through the lists of the heap functions and
replaces the size of the call of every call path it meets, also when it has met the call before and
also when the call may reach another function.

## Main definitions

* `traverseGlobalVariables4Malloc`, `updateCFGWithIndirectCalls`: the calls through global variables
* `updateHMFInterface`: the arguments of all calls afterwards
* `Transparent`: an executed call has its size rewritten once, or keeps its arguments

## Main results

* `updateHMFInterface_eq`: an argument is tagged once for each call path with its position
* `heap_calls_transparent_iff`: when all executed calls are transparent
-/

set_option autoImplicit false

namespace Semalloc

/-! ## Calls through global variables -/

/-- A global variable. `initializer` is the function that it is initialized with, if there is one. -/
structure GlobalVariable where
  name : String
  isPointer : Bool
  initializer : Option String

/-- What is read of a module besides its functions: the global variables, and the one that the called
operand of a call is loaded from. -/
structure ReduceLibraryIndirectCall where
  globals : List GlobalVariable
  loadedFrom : ℕ → Option String

namespace ReduceLibraryIndirectCall

open ConstructCGPass

/-- The heap functions that global variables are initialized with, by the names of the variables. -/
def traverseGlobalVariables4Malloc (r : ReduceLibraryIndirectCall) : KeyMap String String :=
  r.globals.foldl (fun m GV =>
    initialHeapFunctions.foldl (fun m HMF =>
      if GV.isPointer ∧ GV.initializer = some HMF then m.insert GV.name HMF else m) m) (.empty "")

/-- The call path of an indirect call through such a variable. -/
def indirectPath (r : ReduceLibraryIndirectCall) (F : IRFunction) (c : IRCall) : List CallPath :=
  if c.operand.isIndirectCall then
    ((r.loadedFrom c.inst).toList.filter fun name =>
      name ∈ r.traverseGlobalVariables4Malloc.keys).map fun name =>
        .new c.inst (r.traverseGlobalVariables4Malloc.get name) F.name
  else []

def updateCFGWithIndirectCalls (r : ReduceLibraryIndirectCall) (M : IRModule)
    (s : ConstructCGPass) : Option ConstructCGPass :=
  M.functions.foldlM (fun s F =>
    F.calls.foldlM (fun s c => (r.indirectPath F c).foldlM addPath s) s) s

/-- All call paths that are added. -/
def paths (r : ReduceLibraryIndirectCall) (M : IRModule) : List CallPath :=
  M.functions.flatMap fun F => F.calls.flatMap (r.indirectPath F)

theorem updateCFGWithIndirectCalls_eq (r : ReduceLibraryIndirectCall) (M : IRModule)
    (s : ConstructCGPass) :
    r.updateCFGWithIndirectCalls M s = (r.paths M).foldlM addPath s := by
  unfold updateCFGWithIndirectCalls paths
  simp only [foldlM_flatMap]

end ReduceLibraryIndirectCall

/-! ## The heap functions -/

/-- The position of the size among the arguments of each heap function. -/
def heapFunctionSizeParameterIndex : List (String × ℕ) :=
  [("malloc", 0), ("realloc", 1), ("calloc", 1), ("posix_memalign", 2), ("memalign", 1),
    ("_Znwm", 0), ("_Znam", 0), ("aligned_alloc", 1)]

def sizeParamIndex (functionName : String) : ℕ :=
  (heapFunctionSizeParameterIndex.lookup functionName).getD 0

/-- An argument of a call: as in the program, or the φ-node for its tagged value. -/
inductive Arg
  | original
  | phi (sizeParam : Arg)
  deriving DecidableEq

/-- Replace one argument of one call. -/
def setArgOperand (args : ℕ → ℕ → Arg) (inst idx : ℕ) (a : Arg) : ℕ → ℕ → Arg :=
  Function.update args inst (Function.update (args inst) idx a)

namespace ConstructCGPass

/-- `UpdateHMFInterface`: the arguments of all calls after the pass. -/
def updateHMFInterface (s : ConstructCGPass) : ℕ → ℕ → Arg :=
  initialHeapFunctions.foldl (fun args functionName =>
    if functionName ∈ s.functionMap.keys then
      (s.functionMap.get functionName).foldl (fun args p =>
        setArgOperand args (s.callPaths p).callInst (sizeParamIndex functionName)
          (.phi (args (s.callPaths p).callInst (sizeParamIndex functionName)))) args
    else args) fun _ _ => .original

/-- The positions that the call paths of a call in the lists of the heap functions rewrite. -/
def rewrites (s : ConstructCGPass) (inst : ℕ) : List ℕ :=
  initialHeapFunctions.flatMap fun f =>
    ((s.listed f).filter fun e => e.callInst = inst).map fun _ => sizeParamIndex f

variable {s s' : ConstructCGPass} {inst i : ℕ}

/-- The calls of one heap function. -/
theorem setArgOperands_apply (idx : ℕ) (l : List ℕ) (args : ℕ → ℕ → Arg) :
    (l.foldl (fun args p => setArgOperand args (s.callPaths p).callInst idx
      (.phi (args (s.callPaths p).callInst idx))) args) inst i =
        Arg.phi^[(((l.map s.callPaths).filter fun e => e.callInst = inst).map
          fun _ => idx).count i] (args inst i) := by
  induction l generalizing args with
  | nil => rfl
  | cons p l ih =>
    rw [List.foldl_cons, ih, List.map_cons, List.filter_cons]
    unfold setArgOperand
    by_cases hp : (s.callPaths p).callInst = inst
    · subst hp
      rw [if_pos (decide_eq_true rfl), List.map_cons, Function.update_self]
      by_cases hi : i = idx
      · subst hi
        rw [Function.update_self, List.count_cons_self, Function.iterate_succ_apply]
      · rw [Function.update_of_ne hi, List.count_cons_of_ne (Ne.symm hi)]
    · rw [if_neg (by simpa using hp), Function.update_of_ne (Ne.symm hp)]

/-- **Every call path rewrites its call.** -/
theorem updateHMFInterface_eq (hs : s.Lists) :
    s.updateHMFInterface inst i = Arg.phi^[(s.rewrites inst).count i] .original := by
  unfold updateHMFInterface rewrites
  have hall : ∀ (fs : List String) (args : ℕ → ℕ → Arg), (fs.foldl (fun args f =>
      if f ∈ s.functionMap.keys then
        (s.functionMap.get f).foldl (fun args p =>
          setArgOperand args (s.callPaths p).callInst (sizeParamIndex f)
            (.phi (args (s.callPaths p).callInst (sizeParamIndex f)))) args
      else args) args) inst i =
        Arg.phi^[(fs.flatMap fun f => ((s.listed f).filter fun e => e.callInst = inst).map
          fun _ => sizeParamIndex f).count i] (args inst i) := by
    intro fs
    induction fs with
    | nil => exact fun _ => rfl
    | cons f fs ih =>
      intro args
      rw [List.foldl_cons, ih, List.flatMap_cons, List.count_append, Nat.add_comm,
        Function.iterate_add_apply]
      congr 1
      by_cases hf : f ∈ s.functionMap.keys
      · rw [if_pos hf, setArgOperands_apply]
        rfl
      · rw [if_neg hf, listed, hs.outside f hf]
        rfl
  exact hall _ _

end ConstructCGPass

/-! ## Executed calls -/

/-- Arguments that were rewritten a different number of times differ. -/
theorem iterate_phi_inj {n k : ℕ} : (Arg.phi^[n] .original) = (Arg.phi^[k] .original) ↔ n = k := by
  refine ⟨fun h => ?_, fun h => h ▸ rfl⟩
  induction n generalizing k with
  | zero =>
    cases k with
    | zero => rfl
    | succ k =>
      rw [Function.iterate_succ_apply'] at h
      cases h
  | succ n ih =>
    cases k with
    | zero =>
      rw [Function.iterate_succ_apply'] at h
      cases h
    | succ k =>
      rw [Function.iterate_succ_apply', Function.iterate_succ_apply', Arg.phi.injEq] at h
      rw [ih h]

/-- What the inserted code reads: `semallocCSTrack`, the words of the recursion hash and their
number, and the outcome of the branch on the loop layers. -/
structure TagInputs where
  track : Word
  frames : ℕ → Word
  length : Word
  loop : Bool

/-- The tagged size. -/
def TagInputs.tag (t : TagInputs) (size : Word) : Word :=
  tagWord size t.track (cssHashFunction t.frames t.length) t.loop

/-- The value of an argument that the program gives the value `w`. -/
def Arg.eval (t : TagInputs) (w : Word) : Arg → Word
  | original => w
  | phi sizeParam => t.tag (sizeParam.eval t w)

/-- A call that is executed: the function that it reaches, and the arguments that the program
passes. -/
structure ExecutedCall where
  inst : ℕ
  callee : String
  args : ℕ → Word
  inputs : TagInputs

/-- A heap function gets a size that was rewritten once and decodes to the original one, besides the
other arguments; another function gets all arguments as they were. -/
def Transparent (args : ℕ → ℕ → Arg) (e : ExecutedCall) : Prop :=
  if e.callee ∈ initialHeapFunctions then
    (args e.inst = Function.update (fun _ => .original) (sizeParamIndex e.callee) (.phi .original)) ∧
      decodedSize ((args e.inst (sizeParamIndex e.callee)).eval e.inputs
        (e.args (sizeParamIndex e.callee))) = (e.args (sizeParamIndex e.callee)).toNat
  else ∀ i, (args e.inst i).eval e.inputs (e.args i) = e.args i

section Tags

variable {t : TagInputs} {w : Word}

theorem TagInputs.tag_of_small (t : TagInputs) (hw : w.toNat < 2 ^ 32) :
    (t.tag w).toNat = (cssHashFunction t.frames t.length).toNat +
      t.track.toNat % 2 ^ 16 * 2 ^ 32 + w.toNat + (if t.loop then 2 ^ 62 else 0) := by
  obtain ⟨hmod, hlt⟩ := toNat_cssHashFunction t.frames t.length
  exact toNat_tagWord t.track hw hmod hlt t.loop

theorem TagInputs.tag_of_large (t : TagInputs) (hw : 2 ^ 32 ≤ w.toNat) (hlt : w.toNat < 2 ^ 63) :
    (t.tag w).toNat = w.toNat + 2 ^ 63 :=
  toNat_tagWord_huge t.track _ t.loop hw hlt

/-- The top bit of a size is there already. -/
theorem TagInputs.tag_of_top (t : TagInputs) (hw : 2 ^ 63 ≤ w.toNat) : t.tag w = w := by
  have hlt := w.isLt
  have hlarge : w > maxSize := by
    rw [gt_iff_lt, BitVec.lt_def]
    have : maxSize.toNat = 2 ^ 32 - 1 := rfl
    omega
  have hbit : hugeBit.toNat = 2 ^ 63 * 1 := rfl
  have hrest : w.toNat - 2 ^ 63 < 2 ^ 63 := by omega
  have hor := Nat.two_pow_add_eq_or_of_lt hrest 1
  have hsplit : w.toNat = 2 ^ 63 * 1 ||| (w.toNat - 2 ^ 63) := by omega
  refine BitVec.eq_of_toNat_eq ?_
  unfold TagInputs.tag
  rw [tagWord, if_pos hlarge, BitVec.toNat_or, hbit]
  generalize w.toNat - 2 ^ 63 = x at hsplit
  rw [hsplit, Nat.or_comm, ← Nat.or_assoc, Nat.or_self]

/-- **A tagged size decodes** to itself, unless it has the top bit. -/
theorem decodedSize_tag : decodedSize (t.tag w) = w.toNat ↔ w.toNat < 2 ^ 63 := by
  constructor
  · intro h
    by_contra hge
    rw [t.tag_of_top (not_lt.mp hge), decodedSize,
      if_pos ((isHugeWord_iff w).mpr (not_lt.mp hge)), toNat_getHugeWordSize] at h
    omega
  · exact fun hlt => (tagged_tagWord w t.track t.frames t.length t.loop hlt).decoded

/-- The tag is zero, or the size has the top bit. -/
def KeepsSize (t : TagInputs) (w : Word) : Prop :=
  2 ^ 63 ≤ w.toNat ∨ w.toNat < 2 ^ 32 ∧ cssHashFunction t.frames t.length = 0 ∧
    t.track.toNat % 2 ^ 16 = 0 ∧ t.loop = false

theorem le_tag (t : TagInputs) (w : Word) : w.toNat ≤ (t.tag w).toNat := by
  rcases Nat.lt_or_ge w.toNat (2 ^ 32) with hsmall | hlarge
  · have htag := t.tag_of_small hsmall
    omega
  · rcases Nat.lt_or_ge w.toNat (2 ^ 63) with hlt | htop
    · have htag := t.tag_of_large hlarge hlt
      omega
    · rw [t.tag_of_top htop]

theorem tag_eq_self_iff : t.tag w = w ↔ KeepsSize t w := by
  unfold KeepsSize
  constructor
  · intro h
    have hnat := congrArg BitVec.toNat h
    rcases Nat.lt_or_ge w.toNat (2 ^ 32) with hsmall | hlarge
    · have htag := t.tag_of_small hsmall
      cases hloop : t.loop with
      | false =>
        rw [hloop, if_neg Bool.false_ne_true] at htag
        have hzero : (0 : Word).toNat = 0 := rfl
        exact .inr ⟨hsmall, BitVec.eq_of_toNat_eq (by omega), by omega, rfl⟩
      | true =>
        rw [hloop, if_pos rfl] at htag
        omega
    · rcases Nat.lt_or_ge w.toNat (2 ^ 63) with hlt | htop
      · have htag := t.tag_of_large hlarge hlt
        omega
      · exact .inl htop
  · rintro (htop | ⟨hsmall, hhash, htrack, hloop⟩)
    · exact t.tag_of_top htop
    · have htag := t.tag_of_small hsmall
      have hzero : (0 : Word).toNat = 0 := rfl
      rw [hhash, htrack, hloop, if_neg Bool.false_ne_true] at htag
      exact BitVec.eq_of_toNat_eq (by omega)

/-- Further tags do not undo a tag. -/
theorem eval_phi_eq_self_iff {n : ℕ} :
    (Arg.phi^[n] .original).eval t w = w ↔ n = 0 ∨ KeepsSize t w := by
  have hle : ∀ n, w.toNat ≤ ((Arg.phi^[n] .original).eval t w).toNat := by
    intro n
    induction n with
    | zero => exact le_rfl
    | succ n ih =>
      rw [Function.iterate_succ_apply']
      exact ih.trans (le_tag t _)
  have hkeeps : KeepsSize t w → ∀ n, (Arg.phi^[n] .original).eval t w = w := by
    intro h n
    induction n with
    | zero => rfl
    | succ n ih =>
      rw [Function.iterate_succ_apply', Arg.eval, ih]
      exact tag_eq_self_iff.mpr h
  constructor
  · intro h
    cases n with
    | zero => exact .inl rfl
    | succ n =>
      rw [Function.iterate_succ_apply', Arg.eval] at h
      -- the value before the last tag is neither larger nor smaller
      have hprev : (Arg.phi^[n] .original).eval t w = w := by
        refine BitVec.eq_of_toNat_eq (le_antisymm ?_ (hle n))
        exact (le_tag t _).trans (congrArg BitVec.toNat h).le
      rw [hprev] at h
      exact .inr (tag_eq_self_iff.mp h)
  · rintro (rfl | h)
    · rfl
    · exact hkeeps h n

end Tags

/-! ## The whole program -/

open GlobalContext ConstructCGPass

/-- The call paths in the list of a function: indirect calls, direct calls, and calls through global
variables. -/
def callPathsOf (ctx : GlobalContext) (r : ReduceLibraryIndirectCall) (M : IRModule)
    (f : String) : List CallPath :=
  (List.replicate (copies ctx.modules f) (ctx.indirectPaths.filter fun e => e.callee = f)).flatten ++
    (ctx.directPaths.filter fun e => e.callee = f) ++ (r.paths M).filter fun e => e.callee = f

/-- The positions of the sizes that are rewritten in a call: one for each of its call paths to a
heap function. -/
def heapPositions (ctx : GlobalContext) (r : ReduceLibraryIndirectCall) (M : IRModule)
    (inst : ℕ) : List ℕ :=
  initialHeapFunctions.flatMap fun f =>
    ((callPathsOf ctx r M f).filter fun e => e.callInst = inst).map fun _ => sizeParamIndex f

section Program

variable {ctx : GlobalContext} {r : ReduceLibraryIndirectCall} {M : IRModule}
  {modules : List IRModule} {s s' : ConstructCGPass}

/-- The lists that `UpdateHMFInterface` finds. -/
theorem rewrites_eq (hmodules : ctx.modules = M :: modules) (hdirect : ctx.CallsDeclared)
    (hrun : run ctx = some s) (hreduce : r.updateCFGWithIndirectCalls M s = some s') :
    s'.Lists ∧ ∀ inst, s'.rewrites inst = heapPositions ctx r M inst := by
  obtain ⟨hthrows, hreturns⟩ := run_spec hmodules hdirect
  have hfirst : ∀ e ∈ ctx.indirectPaths, e.callee ∈ M.declared := by
    by_contra hnot
    obtain ⟨e, he, hnot⟩ := by simpa only [not_forall, exists_prop] using hnot
    rw [hthrows ⟨e, he, hnot⟩] at hrun
    cases hrun
  obtain ⟨s₁, hrun₁, hs, -, hlisted⟩ := hreturns hfirst
  obtain rfl := Option.some.inj (hrun.symm.trans hrun₁)
  rw [r.updateCFGWithIndirectCalls_eq M] at hreduce
  have hkeys : ∀ e ∈ r.paths M, e.callee ∈ s.functionMap.keys := by
    intro e he
    by_contra hnot
    rw [addPaths_none hs he hnot] at hreduce
    cases hreduce
  obtain ⟨s₂, hreduce₂, hs₂, -, hlisted₂⟩ := addPaths_spec (r.paths M) hs hkeys
  obtain rfl := Option.some.inj (hreduce.symm.trans hreduce₂)
  refine ⟨hs₂, fun inst => ?_⟩
  unfold rewrites heapPositions callPathsOf
  simp only [hlisted₂, hlisted]

/-- One executed call. -/
theorem transparent_iff (hs : s.Lists) (e : ExecutedCall) :
    Transparent s.updateHMFInterface e ↔
      if e.callee ∈ initialHeapFunctions then
        s.rewrites e.inst = [sizeParamIndex e.callee] ∧
          (e.args (sizeParamIndex e.callee)).toNat < 2 ^ 63
      else ∀ i ∈ s.rewrites e.inst, KeepsSize e.inputs (e.args i) := by
  have hargs : ∀ i, s.updateHMFInterface e.inst i =
      Arg.phi^[(s.rewrites e.inst).count i] .original := fun i => updateHMFInterface_eq hs
  unfold Transparent
  split
  · -- a call of a heap function
    generalize sizeParamIndex e.callee = idx
    have honce : s.updateHMFInterface e.inst =
        Function.update (fun _ => .original) idx (.phi .original) ↔
          s.rewrites e.inst = [idx] := by
      rw [← List.perm_singleton, List.perm_iff_count, funext_iff]
      refine forall_congr' fun i => ?_
      rw [hargs]
      by_cases hi : i = idx
      · subst hi
        rw [Function.update_self, List.count_singleton_self]
        exact iterate_phi_inj (k := 1)
      · rw [Function.update_of_ne hi, List.count_singleton, if_neg (by simpa using Ne.symm hi)]
        exact iterate_phi_inj (k := 0)
    rw [honce]
    refine and_congr_right fun hrewrites => ?_
    rw [hargs, hrewrites, List.count_singleton_self]
    exact decodedSize_tag
  · -- a call of another function
    refine ⟨fun h i hi => ?_, fun h i => ?_⟩
    · have hval := h i
      rw [hargs, eval_phi_eq_self_iff] at hval
      exact hval.resolve_left (Nat.ne_of_gt (List.count_pos_iff.mpr hi))
    · rw [hargs, eval_phi_eq_self_iff]
      by_cases hi : i ∈ s.rewrites e.inst
      · exact .inr (h i hi)
      · exact .inl (List.count_eq_zero.mpr hi)

/-- **Heap calls are rewritten transparently** exactly if each executed call of a heap function has
one call path to a heap function with its position, with a size below `2 ^ 63`, and every other
executed call has none that would change its arguments. -/
theorem heap_calls_transparent_iff (hmodules : ctx.modules = M :: modules)
    (hdirect : ctx.CallsDeclared) (hrun : run ctx = some s)
    (hreduce : r.updateCFGWithIndirectCalls M s = some s') (executed : Set ExecutedCall) :
    (∀ e ∈ executed, Transparent s'.updateHMFInterface e) ↔
      ∀ e ∈ executed, if e.callee ∈ initialHeapFunctions then
        heapPositions ctx r M e.inst = [sizeParamIndex e.callee] ∧
          (e.args (sizeParamIndex e.callee)).toNat < 2 ^ 63
      else ∀ i ∈ heapPositions ctx r M e.inst, KeepsSize e.inputs (e.args i) := by
  obtain ⟨hs, hrewrites⟩ := rewrites_eq hmodules hdirect hrun hreduce
  refine forall₂_congr fun e _ => ?_
  rw [transparent_iff hs e, hrewrites]

end Program

/-! ## Two programs -/

/-- A function `main` that calls `malloc`. -/
def directModule : IRModule :=
  ⟨[⟨"main", [⟨0, .function "malloc"⟩]⟩, ⟨"malloc", []⟩]⟩

/-- A call of `malloc` with 24 bytes. -/
def callMalloc : ExecutedCall :=
  ⟨0, "malloc", fun _ => 24, ⟨1, fun _ => 0, 0, true⟩⟩

/-- The direct call is rewritten once. -/
theorem heap_calls_transparent_iff_direct : ∃ s s', run ⟨[directModule], fun _ => []⟩ = some s ∧
    ReduceLibraryIndirectCall.updateCFGWithIndirectCalls ⟨[], fun _ => none⟩ directModule s =
      some s' ∧ Transparent s'.updateHMFInterface callMalloc := by
  have hsome : ((run ⟨[directModule], fun _ => []⟩).bind
      (ReduceLibraryIndirectCall.updateCFGWithIndirectCalls ⟨[], fun _ => none⟩
        directModule)).isSome := by decide +kernel
  obtain ⟨s', hs'⟩ := Option.isSome_iff_exists.mp hsome
  obtain ⟨s, hrun, hreduce⟩ := Option.bind_eq_some_iff.mp hs'
  refine ⟨s, s', hrun, hreduce, (heap_calls_transparent_iff rfl (by decide +kernel) hrun hreduce
    {callMalloc}).mpr ?_ callMalloc rfl⟩
  rintro e rfl
  rw [if_pos (by decide)]
  decide +kernel

/-- A function `main` that calls a function pointer. -/
def hookModule : IRModule :=
  ⟨[⟨"main", [⟨0, .value⟩]⟩, ⟨"malloc", []⟩]⟩

/-- The pointer is loaded from a global variable that is initialized with `malloc`. -/
def hook : ReduceLibraryIndirectCall :=
  ⟨[⟨"hook", true, some "malloc"⟩], fun _ => some "hook"⟩

/-- The type analysis finds `malloc` as well, and the size is tagged twice: the second time the tag
makes it a huge one. -/
theorem hooked_malloc_tagged_twice : ∃ s s', run ⟨[hookModule], fun _ => ["malloc"]⟩ = some s ∧
    hook.updateCFGWithIndirectCalls hookModule s = some s' ∧
      ¬ Transparent s'.updateHMFInterface callMalloc ∧
      decodedSize ((s'.updateHMFInterface 0 0).eval callMalloc.inputs 24) =
        2 ^ 62 + 2 ^ 32 + 24 := by
  have hsome : ((run ⟨[hookModule], fun _ => ["malloc"]⟩).bind
      (hook.updateCFGWithIndirectCalls hookModule)).map (fun s => s.updateHMFInterface 0 0) =
        some (.phi (.phi .original)) := by decide +kernel
  obtain ⟨s', hs', hargs⟩ := Option.map_eq_some_iff.mp hsome
  obtain ⟨s, hrun, hreduce⟩ := Option.bind_eq_some_iff.mp hs'
  have hdecoded : decodedSize ((s'.updateHMFInterface 0 0).eval callMalloc.inputs 24) =
      2 ^ 62 + 2 ^ 32 + 24 := by
    rw [hargs]
    decide +kernel
  refine ⟨s, s', hrun, hreduce, fun h => ?_, hdecoded⟩
  unfold Transparent at h
  rw [if_pos (by decide)] at h
  have hsize : decodedSize ((s'.updateHMFInterface 0 0).eval callMalloc.inputs 24) = 24 := h.2
  omega

end Semalloc
