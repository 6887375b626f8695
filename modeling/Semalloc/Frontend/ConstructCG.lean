import Semalloc.Frontend.CallPath

/-!
# Building the call graph

`ConstructCGPass` makes the call paths. For each module it gives every function of the module a new,
empty list and then merges all indirect calls of all modules; the direct calls follow when all
modules are initialized. So the indirect calls of a function stay in its list once for each module
from the last one on that declares it, and a function that the first module does not declare has no
list when they are merged for the first time.

## Main definitions

* `IRModule`, `GlobalContext`: the modules and the callees of their indirect calls
* `doInitialization`, `doModulePass`, `run`: the pass
* `copies`: how often the indirect calls of a function are left in its list
* `ExactlyOnce`: every list has one call path for each call

## Main results

* `run_spec`: what the pass leaves
* `construct_once_iff`: when it leaves each call once
* `run_wellFormed`: the call graph it leaves is well formed
-/

set_option autoImplicit false

namespace Semalloc

/-! ## Modules -/

/-- What a call instruction calls: a function, a function behind pointer casts, another constant,
assembly, or a value of the program. -/
inductive CalledOperand
  | function (name : String)
  | cast (name : String)
  | constant
  | inlineAsm
  | value
  deriving DecidableEq

namespace CalledOperand

def isIndirectCall : CalledOperand → Bool
  | value => true
  | _ => false

def isInlineAsm : CalledOperand → Bool
  | inlineAsm => true
  | _ => false

def getCalledFunction : CalledOperand → Option String
  | function name => some name
  | _ => none

/-- The function that is left without the pointer casts. -/
def stripPointerCasts : CalledOperand → Option String
  | function name => some name
  | cast name => some name
  | _ => none

end CalledOperand

/-- A call instruction. -/
structure IRCall where
  inst : ℕ
  operand : CalledOperand
  deriving DecidableEq

/-- A function with the call instructions of its blocks, in order; a declaration has none. -/
structure IRFunction where
  name : String
  calls : List IRCall
  deriving DecidableEq

structure IRModule where
  functions : List IRFunction
  deriving DecidableEq

def llvmFunctionPrefix : String := "llvm."

/-- The function belongs to the compiler. -/
def IsIntrinsic (name : String) : Prop := llvmFunctionPrefix.toList <+: name.toList

instance (name : String) : Decidable (IsIntrinsic name) :=
  inferInstanceAs (Decidable (_ <+: _))

/-- The names of the functions of a module that get a list. -/
def IRModule.declared (M : IRModule) : List String :=
  (M.functions.map IRFunction.name).filter fun name => ¬ IsIntrinsic name

/-- The modules, and the names of the functions that each indirect call may call: one name for
each function. -/
structure GlobalContext where
  modules : List IRModule
  callees : ℕ → List String

/-- The function a direct call counts for, unless it is assembly, no function or an intrinsic. -/
def IRCall.directCallee (c : IRCall) : Option String :=
  if c.operand.isIndirectCall then none
  else if c.operand.isInlineAsm then none
  else
    match c.operand.getCalledFunction <|> c.operand.stripPointerCasts with
    | none => none
    | some name => if IsIntrinsic name then none else some name

namespace GlobalContext

/-- The indirect calls of all modules, each with the function it is in. -/
def indirectCallInsts (ctx : GlobalContext) : List (ℕ × String) :=
  ctx.modules.flatMap fun M => M.functions.flatMap fun F =>
    (F.calls.filter fun c => c.operand.isIndirectCall).map fun c => (c.inst, F.name)

end GlobalContext

/-! ## The pass -/

/-- The call paths allocated so far, and the lists of the functions. -/
structure ConstructCGPass where
  callPaths : ℕ → CallPath := fun _ => .new 0 "" ""
  allocated : ℕ := 0
  functionMap : KeyMap String (List ℕ) := .empty []

namespace ConstructCGPass

/-- Append a new call path to the list of its callee; `at` throws where there is none. -/
def addPath (s : ConstructCGPass) (e : CallPath) : Option ConstructCGPass :=
  if e.callee ∈ s.functionMap.keys then
    some {
      callPaths := Function.update s.callPaths s.allocated e
      allocated := s.allocated + 1
      functionMap := s.functionMap.insert e.callee
        (s.functionMap.get e.callee ++ [s.allocated]) }
  else none

def mergeIndirectFunctionCalls (ctx : GlobalContext) (s : ConstructCGPass) :
    Option ConstructCGPass :=
  ctx.indirectCallInsts.foldlM (fun s IC =>
    (ctx.callees IC.1).foldlM (fun s callee => s.addPath (.new IC.1 callee IC.2)) s) s

def analyzeDirectFunctionCallsWithinFunction (s : ConstructCGPass) (F : IRFunction) :
    Option ConstructCGPass :=
  F.calls.foldlM (fun s c =>
    match c.directCallee with
    | none => some s
    | some callee => s.addPath (.new c.inst callee F.name)) s

/-- A new list for a function. -/
def newList (s : ConstructCGPass) (F : IRFunction) : ConstructCGPass :=
  if IsIntrinsic F.name then s
  else { s with functionMap := s.functionMap.insert F.name [] }

def doInitialization (ctx : GlobalContext) (s : ConstructCGPass) (M : IRModule) :
    Option ConstructCGPass :=
  mergeIndirectFunctionCalls ctx (M.functions.foldl newList s)

def doModulePass (s : ConstructCGPass) (M : IRModule) : Option ConstructCGPass :=
  M.functions.foldlM analyzeDirectFunctionCallsWithinFunction s

/-- The pass over all modules; `none` where it throws. -/
def run (ctx : GlobalContext) : Option ConstructCGPass := do
  let s ← ctx.modules.foldlM (doInitialization ctx) {}
  ctx.modules.foldlM doModulePass s

end ConstructCGPass

/-! ## The calls of the modules -/

namespace GlobalContext

/-- One call path for each indirect call and each of its callees. -/
def indirectPaths (ctx : GlobalContext) : List CallPath :=
  ctx.indirectCallInsts.flatMap fun IC =>
    (ctx.callees IC.1).map fun callee => .new IC.1 callee IC.2

/-- One call path for each direct call in a function. -/
def directPathsOf (F : IRFunction) : List CallPath :=
  F.calls.flatMap fun c => c.directCallee.toList.map fun callee => .new c.inst callee F.name

/-- One call path for each direct call. -/
def directPaths (ctx : GlobalContext) : List CallPath :=
  ctx.modules.flatMap fun M => M.functions.flatMap directPathsOf

/-- Each module declares the functions its direct calls refer to. -/
def CallsDeclared (ctx : GlobalContext) : Prop :=
  ∀ M ∈ ctx.modules, ∀ F ∈ M.functions, ∀ c ∈ F.calls, ∀ callee ∈ c.directCallee,
    callee ∈ M.declared

instance (ctx : GlobalContext) : Decidable ctx.CallsDeclared :=
  inferInstanceAs (Decidable (∀ M ∈ ctx.modules, ∀ F ∈ M.functions, ∀ c ∈ F.calls,
    ∀ callee ∈ c.directCallee, callee ∈ M.declared))

/-- How often the indirect calls of a function are left after the given modules: once for each
module from the last one on that declares it. -/
def copies (modules : List IRModule) (f : String) : ℕ :=
  modules.foldl (fun k M => (if f ∈ M.declared then 0 else k) + 1) 0

end GlobalContext

namespace ConstructCGPass

open GlobalContext

variable {ctx : GlobalContext} {s s' : ConstructCGPass} {M : IRModule} {f : String}
  {e : CallPath} {paths : List CallPath}

/-- The call paths in the list of a function. -/
def listed (s : ConstructCGPass) (f : String) : List CallPath :=
  (s.functionMap.get f).map s.callPaths

/-- **Each call once**: the list of every function has one call path for each indirect call that
may call it and for each direct call of it, and no other. -/
def ExactlyOnce (ctx : GlobalContext) (s : ConstructCGPass) : Prop :=
  ∀ f, (s.listed f).Perm ((ctx.indirectPaths ++ ctx.directPaths).filter fun e => e.callee = f)

/-- The lists hold different call paths that were allocated, each under its callee. -/
structure Lists (s : ConstructCGPass) : Prop where
  keysNodup : s.functionMap.keys.Nodup
  outside : s.functionMap.Outside []
  below : ∀ f, ∀ p ∈ s.functionMap.get f, p < s.allocated
  nodup : ∀ f, (s.functionMap.get f).Nodup
  callee : ∀ f, ∀ p ∈ s.functionMap.get f, (s.callPaths p).callee = f

theorem initial_lists : Lists {} where
  keysNodup := List.nodup_nil
  outside _ _ := rfl
  below _ _ hp := absurd hp List.not_mem_nil
  nodup _ := List.nodup_nil
  callee _ _ hp := absurd hp List.not_mem_nil

/-! ## Appending call paths -/

/-- A new call path goes to the end of the list of its callee. -/
theorem addPath_spec (hs : s.Lists) (he : e.callee ∈ s.functionMap.keys) :
    ∃ s', s.addPath e = some s' ∧ s'.Lists ∧
      (∀ f, f ∈ s'.functionMap.keys ↔ f ∈ s.functionMap.keys) ∧
      ∀ f, s'.listed f = s.listed f ++ [e].filter fun e => e.callee = f := by
  have hkept : ∀ f, ∀ p ∈ s.functionMap.get f,
      Function.update s.callPaths s.allocated e p = s.callPaths p := by
    intro f p hp
    exact Function.update_of_ne (Nat.ne_of_lt (hs.below f p hp)) ..
  have hget : ∀ f, (s.functionMap.insert e.callee
      (s.functionMap.get e.callee ++ [s.allocated])).get f =
        if f = e.callee then s.functionMap.get f ++ [s.allocated] else s.functionMap.get f := by
    intro f
    by_cases hf : f = e.callee
    · subst hf
      rw [KeyMap.insert_get_self, if_pos rfl]
    · rw [KeyMap.insert_get_of_ne hf, if_neg hf]
  refine ⟨_, if_pos he, ⟨?_, ?_, ?_, ?_, ?_⟩, ?_, ?_⟩
  · exact KeyMap.nodup_insert_keys hs.keysNodup
  · exact hs.outside.insert
  · intro f p hp
    rw [hget] at hp
    split at hp
    · rcases List.mem_append.mp hp with hp | hp
      · exact Nat.lt_succ_of_lt (hs.below f p hp)
      · rw [List.mem_singleton.mp hp]
        exact Nat.lt_succ_self _
    · exact Nat.lt_succ_of_lt (hs.below f p hp)
  · intro f
    rw [hget]
    split
    · refine List.nodup_append.mpr ⟨hs.nodup f, List.nodup_singleton _, ?_⟩
      rintro p hp q hq rfl
      rw [List.mem_singleton.mp hq] at hp
      exact lt_irrefl _ (hs.below f _ hp)
    · exact hs.nodup f
  · intro f p hp
    dsimp only
    rw [hget] at hp
    split at hp
    · rename_i hf
      rcases List.mem_append.mp hp with hp | hp
      · rw [hkept f p hp]
        exact hs.callee f p hp
      · rw [List.mem_singleton.mp hp, Function.update_self]
        exact hf.symm
    · rw [hkept f p hp]
      exact hs.callee f p hp
  · intro f
    rw [KeyMap.mem_insert_keys]
    exact ⟨fun h => h.elim (fun h => h ▸ he) id, .inr⟩
  · intro f
    unfold listed
    dsimp only
    rw [hget]
    by_cases hf : f = e.callee
    · rw [if_pos hf, List.map_append, List.map_congr_left (hkept f)]
      simp [hf]
    · rw [if_neg hf, List.map_congr_left (hkept f)]
      simp [Ne.symm hf]

/-- New call paths go to the lists of their callees, in order. -/
theorem addPaths_spec (paths : List CallPath) (hs : s.Lists) (hpaths : ∀ e ∈ paths, e.callee ∈ s.functionMap.keys) :
    ∃ s', paths.foldlM addPath s = some s' ∧ s'.Lists ∧
      (∀ f, f ∈ s'.functionMap.keys ↔ f ∈ s.functionMap.keys) ∧
      ∀ f, s'.listed f = s.listed f ++ paths.filter fun e => e.callee = f := by
  induction paths generalizing s with
  | nil => exact ⟨s, rfl, hs, fun _ => Iff.rfl, fun f => (List.append_nil _).symm⟩
  | cons e paths ih =>
    obtain ⟨s₁, hstep, hs₁, hkeys₁, hlisted₁⟩ := addPath_spec hs (hpaths e List.mem_cons_self)
    obtain ⟨s', hrest, hs', hkeys', hlisted'⟩ := ih hs₁
      fun e he => (hkeys₁ _).mpr (hpaths e (List.mem_cons_of_mem _ he))
    refine ⟨s', ?_, hs', fun f => (hkeys' f).trans (hkeys₁ f), fun f => ?_⟩
    · rw [List.foldlM_cons, hstep]
      exact hrest
    · rw [hlisted', hlisted₁, List.append_assoc, ← List.filter_append, List.singleton_append]

/-- A call path without a list for its callee makes the pass throw. -/
theorem addPaths_none (hs : s.Lists) (he : e ∈ paths) (hcallee : e.callee ∉ s.functionMap.keys) :
    paths.foldlM addPath s = none := by
  induction paths generalizing s with
  | nil => cases he
  | cons x paths ih =>
    rw [List.foldlM_cons]
    by_cases hx : x.callee ∈ s.functionMap.keys
    · obtain ⟨s₁, hstep, hs₁, hkeys₁, -⟩ := addPath_spec hs hx
      have he' : e ∈ paths := by
        refine (List.mem_cons.mp he).resolve_left ?_
        rintro rfl
        exact hcallee hx
      rw [hstep]
      exact ih hs₁ he' fun h => hcallee ((hkeys₁ _).mp h)
    · rw [show s.addPath x = none from if_neg hx]
      rfl

/-- A loop over the entries that each element of a list gives. -/
theorem foldlM_flatMap {α β σ : Type} {f : α → List β} {step : σ → β → Option σ} (l : List α)
    (s : σ) : (l.flatMap f).foldlM step s = l.foldlM (fun s a => (f a).foldlM step s) s := by
  induction l generalizing s with
  | nil => rfl
  | cons a l ih =>
    rw [List.flatMap_cons, List.foldlM_append, List.foldlM_cons]
    congr 1
    exact funext ih

theorem mergeIndirectFunctionCalls_eq :
    mergeIndirectFunctionCalls ctx s = ctx.indirectPaths.foldlM addPath s := by
  unfold mergeIndirectFunctionCalls indirectPaths
  rw [foldlM_flatMap]
  simp only [List.foldlM_map]

theorem analyzeDirectFunctionCallsWithinFunction_eq (F : IRFunction) :
    s.analyzeDirectFunctionCallsWithinFunction F = (directPathsOf F).foldlM addPath s := by
  unfold analyzeDirectFunctionCallsWithinFunction directPathsOf
  rw [foldlM_flatMap]
  congr 1
  funext s c
  cases c.directCallee with
  | none => rfl
  | some callee => simp

theorem doModulePasses_eq :
    ctx.modules.foldlM doModulePass s = ctx.directPaths.foldlM addPath s := by
  unfold directPaths
  rw [foldlM_flatMap]
  congr 1
  funext s M
  unfold doModulePass
  rw [foldlM_flatMap]
  congr 1
  funext s F
  exact analyzeDirectFunctionCallsWithinFunction_eq F

/-! ## The modules one after the other -/

theorem newLists_spec (fs : List IRFunction) (hs : s.Lists) : (fs.foldl newList s).Lists ∧
    (∀ f, f ∈ (fs.foldl newList s).functionMap.keys ↔
      f ∈ s.functionMap.keys ∨ f ∈ (IRModule.mk fs).declared) ∧
    ∀ f, (fs.foldl newList s).listed f =
      if f ∈ (IRModule.mk fs).declared then [] else s.listed f := by
  induction fs generalizing s with
  | nil => exact ⟨hs, by simp [IRModule.declared], by simp [IRModule.declared]⟩
  | cons F fs ih =>
    have hdeclared : ∀ f, f ∈ (IRModule.mk (F :: fs)).declared ↔
        (f = F.name ∧ ¬ IsIntrinsic F.name) ∨ f ∈ (IRModule.mk fs).declared := by
      intro f
      simp only [IRModule.declared, List.map_cons, List.mem_filter, List.mem_cons,
        decide_eq_true_eq]
      constructor
      · rintro ⟨rfl | hmem, hintrinsic⟩
        · exact .inl ⟨rfl, hintrinsic⟩
        · exact .inr ⟨hmem, hintrinsic⟩
      · rintro (⟨rfl, hintrinsic⟩ | ⟨hmem, hintrinsic⟩)
        · exact ⟨.inl rfl, hintrinsic⟩
        · exact ⟨.inr hmem, hintrinsic⟩
    have hstep : (s.newList F).Lists ∧
        (∀ f, f ∈ (s.newList F).functionMap.keys ↔
          f ∈ s.functionMap.keys ∨ (f = F.name ∧ ¬ IsIntrinsic F.name)) ∧
        ∀ f, (s.newList F).listed f =
          if f = F.name ∧ ¬ IsIntrinsic F.name then [] else s.listed f := by
      unfold newList
      split
      · rename_i hintrinsic
        simp [hs, hintrinsic]
      · rename_i hintrinsic
        have hget : ∀ f, (s.functionMap.insert F.name []).get f =
            if f = F.name then [] else s.functionMap.get f :=
          fun f => Function.update_apply ..
        refine ⟨⟨KeyMap.nodup_insert_keys hs.keysNodup, hs.outside.insert, ?_, ?_, ?_⟩, ?_, ?_⟩
        · intro f p hp
          rw [hget] at hp
          split at hp
          · cases hp
          · exact hs.below f p hp
        · intro f
          rw [hget]
          split
          · exact List.nodup_nil
          · exact hs.nodup f
        · intro f p hp
          rw [hget] at hp
          split at hp
          · cases hp
          · exact hs.callee f p hp
        · intro f
          rw [KeyMap.mem_insert_keys]
          tauto
        · intro f
          unfold listed
          dsimp only
          rw [hget]
          by_cases hf : f = F.name
          · rw [if_pos hf, if_pos ⟨hf, hintrinsic⟩, List.map_nil]
          · rw [if_neg hf, if_neg fun h => hf h.1]
    obtain ⟨hlists, hkeys, hlisted⟩ := ih hstep.1
    rw [List.foldl_cons]
    refine ⟨hlists, fun f => ?_, fun f => ?_⟩
    · rw [hkeys, hstep.2.1, hdeclared]
      tauto
    · rw [hlisted, hstep.2.2]
      simp only [hdeclared]
      split_ifs <;> tauto

/-- **One module is initialized**: its functions start with a new list, and all indirect calls are
appended. -/
theorem doInitialization_spec (ctx : GlobalContext) (M : IRModule) (hs : s.Lists)
    (hcallees : ∀ e ∈ ctx.indirectPaths, e.callee ∈ s.functionMap.keys ∨ e.callee ∈ M.declared) :
    ∃ s', doInitialization ctx s M = some s' ∧ s'.Lists ∧
      (∀ f, f ∈ s'.functionMap.keys ↔ f ∈ s.functionMap.keys ∨ f ∈ M.declared) ∧
      ∀ f, s'.listed f = (if f ∈ M.declared then [] else s.listed f) ++
        ctx.indirectPaths.filter fun e => e.callee = f := by
  obtain ⟨hlists, hkeys, hlisted⟩ := newLists_spec M.functions hs
  unfold doInitialization
  rw [mergeIndirectFunctionCalls_eq]
  obtain ⟨s', hmerge, hs', hkeys', hlisted'⟩ := addPaths_spec ctx.indirectPaths hlists
    fun e he => (hkeys _).mpr (hcallees e he)
  refine ⟨s', hmerge, hs', fun f => (hkeys' f).trans (hkeys f), fun f => ?_⟩
  rw [hlisted', hlisted]

theorem doInitialization_none (hs : s.Lists) (he : e ∈ ctx.indirectPaths)
    (hkeys : e.callee ∉ s.functionMap.keys) (hdeclared : e.callee ∉ M.declared) :
    doInitialization ctx s M = none := by
  obtain ⟨hlists, hmem, -⟩ := newLists_spec M.functions hs
  unfold doInitialization
  rw [mergeIndirectFunctionCalls_eq]
  refine addPaths_none hlists he fun h => ?_
  rcases (hmem _).mp h with h | h
  · exact hkeys h
  · exact hdeclared h

/-- **All modules are initialized**: the list of a function has all its indirect calls as often as
`copies` says. -/
theorem doInitializations_spec (modules : List IRModule) {k : String → ℕ} (hs : s.Lists)
    (hcallees : ∀ e ∈ ctx.indirectPaths, e.callee ∈ s.functionMap.keys)
    (hlisted : ∀ f, s.listed f =
      (List.replicate (k f) (ctx.indirectPaths.filter fun e => e.callee = f)).flatten) :
    ∃ s', modules.foldlM (doInitialization ctx) s = some s' ∧ s'.Lists ∧
      (∀ f, f ∈ s'.functionMap.keys ↔ f ∈ s.functionMap.keys ∨ ∃ M ∈ modules, f ∈ M.declared) ∧
      ∀ f, s'.listed f =
        (List.replicate (modules.foldl (fun k M => (if f ∈ M.declared then 0 else k) + 1) (k f))
          (ctx.indirectPaths.filter fun e => e.callee = f)).flatten := by
  induction modules generalizing s k with
  | nil => exact ⟨s, rfl, hs, by simp, hlisted⟩
  | cons M modules ih =>
    obtain ⟨s₁, hstep, hs₁, hkeys₁, hlisted₁⟩ := doInitialization_spec ctx M hs
      fun e he => .inl (hcallees e he)
    have hcopies : ∀ f, s₁.listed f =
        (List.replicate ((if f ∈ M.declared then 0 else k f) + 1)
          (ctx.indirectPaths.filter fun e => e.callee = f)).flatten := by
      intro f
      rw [hlisted₁, hlisted, List.replicate_succ', List.flatten_append]
      split_ifs <;> simp
    obtain ⟨s', hrest, hs', hkeys', hlisted'⟩ := ih (k := fun f =>
      (if f ∈ M.declared then 0 else k f) + 1) hs₁
      (fun e he => (hkeys₁ _).mpr (.inl (hcallees e he))) hcopies
    refine ⟨s', ?_, hs', fun f => ?_, fun f => ?_⟩
    · rw [List.foldlM_cons, hstep]
      exact hrest
    · rw [hkeys', hkeys₁, List.exists_mem_cons_iff]
      tauto
    · rw [hlisted', List.foldl_cons]

/-! ## The whole pass -/

/-- **What the pass leaves.** It throws when an indirect call may call a function that the first
module does not declare. Otherwise every list has the indirect calls as often as `copies` says, and
then each direct call once. -/
theorem run_spec {modules : List IRModule} (hmodules : ctx.modules = M :: modules)
    (hdirect : ctx.CallsDeclared) :
    ((∃ e ∈ ctx.indirectPaths, e.callee ∉ M.declared) → run ctx = none) ∧
      ((∀ e ∈ ctx.indirectPaths, e.callee ∈ M.declared) → ∃ s, run ctx = some s ∧ s.Lists ∧
        (∀ f, f ∈ s.functionMap.keys ↔ ∃ M ∈ ctx.modules, f ∈ M.declared) ∧
        ∀ f, s.listed f = (List.replicate (copies ctx.modules f)
            (ctx.indirectPaths.filter fun e => e.callee = f)).flatten ++
          ctx.directPaths.filter fun e => e.callee = f) := by
  have hrun : run ctx = (doInitialization ctx {} M).bind fun s =>
      (modules.foldlM (doInitialization ctx) s).bind fun s =>
        ctx.directPaths.foldlM addPath s := by
    unfold run
    simp only [doModulePasses_eq]
    rw [hmodules, List.foldlM_cons]
    exact Option.bind_assoc ..
  constructor
  · rintro ⟨e, he, hnot⟩
    rw [hrun, doInitialization_none initial_lists he List.not_mem_nil hnot]
    rfl
  · intro hcallees
    obtain ⟨s₁, hfirst, hs₁, hkeys₁, hlisted₁⟩ :=
      doInitialization_spec ctx M initial_lists fun e he => .inr (hcallees e he)
    have hkeys₁ : ∀ f, f ∈ s₁.functionMap.keys ↔ f ∈ M.declared := by
      intro f
      rw [hkeys₁]
      exact ⟨fun h => h.resolve_left List.not_mem_nil, .inr⟩
    have hcopies₁ : ∀ f, s₁.listed f =
        (List.replicate 1 (ctx.indirectPaths.filter fun e => e.callee = f)).flatten := by
      intro f
      rw [hlisted₁]
      have hempty : listed {} f = [] := rfl
      rw [hempty, ite_self, List.nil_append]
      simp
    obtain ⟨s₂, hrest, hs₂, hkeys₂, hlisted₂⟩ := doInitializations_spec modules
      (k := fun _ => 1) hs₁ (fun e he => (hkeys₁ _).mpr (hcallees e he)) hcopies₁
    have hkeys₂ : ∀ f, f ∈ s₂.functionMap.keys ↔ ∃ M ∈ ctx.modules, f ∈ M.declared := by
      intro f
      rw [hkeys₂, hkeys₁, hmodules, List.exists_mem_cons_iff]
    have hdeclared : ∀ e ∈ ctx.directPaths, e.callee ∈ s₂.functionMap.keys := by
      intro e he
      obtain ⟨M', hM', he⟩ := List.mem_flatMap.mp he
      obtain ⟨F, hF, he⟩ := List.mem_flatMap.mp he
      obtain ⟨c, hc, he⟩ := List.mem_flatMap.mp he
      obtain ⟨callee, hcallee, rfl⟩ := List.mem_map.mp he
      exact (hkeys₂ _).mpr ⟨M', hM', hdirect M' hM' F hF c hc callee (Option.mem_toList.mp hcallee)⟩
    obtain ⟨s, hlast, hs, hkeys, hlisted⟩ := addPaths_spec ctx.directPaths hs₂ hdeclared
    refine ⟨s, ?_, hs, fun f => (hkeys f).trans (hkeys₂ f), fun f => ?_⟩
    · rw [hrun, hfirst, Option.bind_some, hrest, Option.bind_some, hlast]
    · have hfold : copies ctx.modules f =
          modules.foldl (fun k M => (if f ∈ M.declared then 0 else k) + 1) 1 := by
        unfold copies
        rw [hmodules, List.foldl_cons, ite_self]
      rw [hlisted, hlisted₂, hfold]

/-- The indirect calls of a function are left once when the last module declares it, or is the only
module. -/
theorem copies_eq_one {modules : List IRModule} (hmodules : modules ≠ []) :
    copies modules f = 1 ↔ f ∈ (modules.getLast hmodules).declared ∨ modules.length = 1 := by
  have hpos : ∀ (ms : List IRModule) (k : ℕ), k ≠ 0 ∨ ms ≠ [] →
      ms.foldl (fun k M => (if f ∈ M.declared then 0 else k) + 1) k ≠ 0 := by
    intro ms
    induction ms with
    | nil => exact fun k hk => hk.resolve_right fun h => h rfl
    | cons M ms ih => exact fun k _ => ih _ (.inl (Nat.succ_ne_zero _))
  obtain ⟨init, last, rfl⟩ : ∃ init last, modules = init ++ [last] :=
    ⟨_, _, (List.dropLast_append_getLast hmodules).symm⟩
  have hlen : (init ++ [last]).length = 1 ↔ init = [] := by
    rw [List.length_append, List.length_singleton]
    exact ⟨fun h => List.length_eq_zero_iff.mp (by omega), fun h => by rw [h]; rfl⟩
  unfold copies
  rw [List.getLast_append_singleton, List.foldl_append, List.foldl_cons, List.foldl_nil, hlen]
  by_cases hlast : f ∈ last.declared
  · simp [hlast]
  · rw [if_neg hlast]
    constructor
    · intro h
      by_contra hne
      exact hpos init 0 (.inr fun hinit => hne (.inr hinit)) (by omega)
    · intro h
      rw [h.resolve_left hlast]
      rfl

/-- The list of a function has each call once when its indirect calls are left once. -/
theorem perm_filter_iff {k : ℕ} (hlisted : s.listed f =
      (List.replicate k (ctx.indirectPaths.filter fun e => e.callee = f)).flatten ++
        ctx.directPaths.filter fun e => e.callee = f) :
    (s.listed f).Perm ((ctx.indirectPaths ++ ctx.directPaths).filter fun e => e.callee = f) ↔
      ctx.indirectPaths.filter (fun e => e.callee = f) = [] ∨ k = 1 := by
  rw [hlisted, List.filter_append, List.perm_append_right_iff]
  generalize ctx.indirectPaths.filter (fun e => e.callee = f) = calls
  constructor
  · intro hperm
    have hlen := hperm.length_eq
    rw [List.length_flatten, List.map_replicate, List.sum_replicate, smul_eq_mul] at hlen
    by_cases hcalls : calls.length = 0
    · exact .inl (List.length_eq_zero_iff.mp hcalls)
    · exact .inr (Nat.eq_of_mul_eq_mul_right (Nat.pos_of_ne_zero hcalls)
        (hlen.trans (Nat.one_mul _).symm))
  · rintro (rfl | rfl)
    · rw [List.flatten_replicate_nil]
    · rw [List.replicate_one, List.flatten_singleton]

/-- **Indirect calls are merged once.** The pass completes with exactly one call path for each
indirect call and callee, and for each direct call, exactly when the first module and the last one
both declare every function that an indirect call may call. -/
theorem construct_once_iff (hmodules : ctx.modules ≠ []) (hdirect : ctx.CallsDeclared) :
    (∃ s, run ctx = some s ∧ s.ExactlyOnce ctx) ↔
      ∀ IC ∈ ctx.indirectCallInsts, ∀ callee ∈ ctx.callees IC.1,
        callee ∈ (ctx.modules.head hmodules).declared ∧
          callee ∈ (ctx.modules.getLast hmodules).declared := by
  obtain ⟨M, modules, hcons⟩ := List.exists_cons_of_ne_nil hmodules
  obtain ⟨hthrows, hreturns⟩ := run_spec hcons hdirect
  have hhead : ctx.modules.head hmodules = M := by simp only [hcons, List.head_cons]
  have hpaths : ∀ P : String → Prop, (∀ e ∈ ctx.indirectPaths, P e.callee) ↔
      ∀ IC ∈ ctx.indirectCallInsts, ∀ callee ∈ ctx.callees IC.1, P callee := by
    intro P
    unfold indirectPaths
    constructor
    · intro h IC hIC callee hcallee
      exact h _ (List.mem_flatMap.mpr ⟨IC, hIC, List.mem_map_of_mem hcallee⟩)
    · intro h e he
      obtain ⟨IC, hIC, he⟩ := List.mem_flatMap.mp he
      obtain ⟨callee, hcallee, rfl⟩ := List.mem_map.mp he
      exact h IC hIC callee hcallee
  rw [← hpaths fun callee => callee ∈ (ctx.modules.head hmodules).declared ∧
    callee ∈ (ctx.modules.getLast hmodules).declared, hhead]
  have hsingle : ctx.modules.length = 1 → ctx.modules.getLast hmodules = M := by
    intro hlen
    rw [hcons, List.length_cons, Nat.add_eq_right, List.length_eq_zero_iff] at hlen
    simp only [hcons, hlen, List.getLast_singleton]
  constructor
  · rintro ⟨s, hrun, honce⟩ e he
    have hfirst : ∀ e ∈ ctx.indirectPaths, e.callee ∈ M.declared := by
      by_contra hnot
      obtain ⟨e, he, hnot⟩ := by simpa only [not_forall, exists_prop] using hnot
      rw [hthrows ⟨e, he, hnot⟩] at hrun
      cases hrun
    obtain ⟨s', hrun', -, -, hlisted⟩ := hreturns hfirst
    obtain rfl := Option.some.inj (hrun.symm.trans hrun')
    refine ⟨hfirst e he, ?_⟩
    rcases (perm_filter_iff (hlisted e.callee)).mp (honce e.callee) with hnil | hone
    · have hmem : e ∈ ctx.indirectPaths.filter fun x => x.callee = e.callee :=
        List.mem_filter.mpr ⟨he, decide_eq_true rfl⟩
      rw [hnil] at hmem
      cases hmem
    · rcases (copies_eq_one hmodules).mp hone with hlast | hlen
      · exact hlast
      · rw [hsingle hlen]
        exact hfirst e he
  · intro hall
    obtain ⟨s, hrun, -, -, hlisted⟩ := hreturns fun e he => (hall e he).1
    refine ⟨s, hrun, fun f => (perm_filter_iff (hlisted f)).mpr ?_⟩
    by_cases hnil : ctx.indirectPaths.filter (fun e => e.callee = f) = []
    · exact .inl hnil
    · obtain ⟨e, he⟩ := List.exists_mem_of_ne_nil _ hnil
      obtain ⟨he, hcallee⟩ := List.mem_filter.mp he
      rw [← of_decide_eq_true hcallee]
      exact .inr ((copies_eq_one hmodules).mpr (.inl (hall e he).2))

/-- Every call path is for a call in a function of some module. -/
theorem mem_paths_caller (he : e ∈ ctx.indirectPaths ∨ e ∈ ctx.directPaths) :
    ∃ M ∈ ctx.modules, ∃ F ∈ M.functions, F.calls ≠ [] ∧ e.caller = F.name := by
  rcases he with he | he
  · obtain ⟨IC, hIC, he⟩ := List.mem_flatMap.mp he
    obtain ⟨callee, -, rfl⟩ := List.mem_map.mp he
    obtain ⟨M, hM, hIC⟩ := List.mem_flatMap.mp hIC
    obtain ⟨F, hF, hIC⟩ := List.mem_flatMap.mp hIC
    obtain ⟨c, hc, rfl⟩ := List.mem_map.mp hIC
    exact ⟨M, hM, F, hF, List.ne_nil_of_mem (List.mem_filter.mp hc).1, rfl⟩
  · obtain ⟨M, hM, he⟩ := List.mem_flatMap.mp he
    obtain ⟨F, hF, he⟩ := List.mem_flatMap.mp he
    obtain ⟨c, hc, he⟩ := List.mem_flatMap.mp he
    obtain ⟨callee, -, rfl⟩ := List.mem_map.mp he
    exact ⟨M, hM, F, hF, List.ne_nil_of_mem hc, rfl⟩

/-- **The call graph is well formed**, whatever the modules share: intrinsics have no calls, and no
function is named like a cycle. -/
theorem run_wellFormed (hdirect : ctx.CallsDeclared)
    (hnames : ∀ M ∈ ctx.modules, ∀ f ∈ M.declared, f ≠ "" ∧ ∀ n, f ≠ intraName n)
    (hbodies : ∀ M ∈ ctx.modules, ∀ F ∈ M.functions, F.calls ≠ [] → ¬ IsIntrinsic F.name)
    (hrun : run ctx = some s) : InstrumentIRPass.WellFormed s.callPaths s.functionMap := by
  obtain ⟨hs, hkeys, hlisted⟩ : s.Lists ∧
      (∀ f, f ∈ s.functionMap.keys ↔ ∃ M ∈ ctx.modules, f ∈ M.declared) ∧
      ∀ f, ∀ e ∈ s.listed f, e ∈ ctx.indirectPaths ∨ e ∈ ctx.directPaths := by
    cases hmodules : ctx.modules with
    | nil =>
      unfold run at hrun
      rw [hmodules] at hrun
      obtain rfl : {} = s := Option.some.inj hrun
      exact ⟨initial_lists, by simp [KeyMap.empty], fun f e he => absurd he List.not_mem_nil⟩
    | cons M modules =>
      obtain ⟨hthrows, hreturns⟩ := run_spec hmodules hdirect
      have hfirst : ∀ e ∈ ctx.indirectPaths, e.callee ∈ M.declared := by
        by_contra hnot
        obtain ⟨e, he, hnot⟩ := by simpa only [not_forall, exists_prop] using hnot
        rw [hthrows ⟨e, he, hnot⟩] at hrun
        cases hrun
      obtain ⟨s', hrun', hs, hkeys, hlisted⟩ := hreturns hfirst
      obtain rfl := Option.some.inj (hrun.symm.trans hrun')
      refine ⟨hs, hmodules ▸ hkeys, fun f e he => ?_⟩
      rw [hlisted] at he
      rcases List.mem_append.mp he with he | he
      · obtain ⟨l, hl, he⟩ := List.mem_flatten.mp he
        rw [(List.mem_replicate.mp hl).2] at he
        exact .inl (List.mem_filter.mp he).1
      · exact .inr (List.mem_filter.mp he).1
  exact {
    keysNodup := hs.keysNodup
    nonempty := fun f hf => by
      obtain ⟨M, hM, hf⟩ := (hkeys f).mp hf
      exact (hnames M hM f hf).1
    fresh := fun f hf => by
      obtain ⟨M, hM, hf⟩ := (hkeys f).mp hf
      exact (hnames M hM f hf).2
    outside := hs.outside
    nodup := hs.nodup
    callee := hs.callee
    caller := fun f p hp => by
      obtain ⟨M, hM, F, hF, hcalls, hcaller⟩ :=
        mem_paths_caller (hlisted f _ (List.mem_map_of_mem hp))
      rw [hcaller, hkeys]
      exact ⟨M, hM, List.mem_filter.mpr
        ⟨List.mem_map_of_mem hF, decide_eq_true (hbodies M hM F hF hcalls)⟩⟩ }

/-! ## Two modules -/

/-- A function `main` that calls `malloc` and a function pointer, and the function `make`. -/
def mainModule : IRModule :=
  ⟨[⟨"main", [⟨0, .function "malloc"⟩, ⟨1, .value⟩, ⟨2, .function "llvm.trap"⟩]⟩,
    ⟨"make", [⟨3, .cast "malloc"⟩]⟩, ⟨"malloc", []⟩, ⟨"llvm.trap", []⟩]⟩

/-- A module with a function of its own. -/
def logModule : IRModule := ⟨[⟨"log", [⟨4, .function "malloc"⟩]⟩, ⟨"malloc", []⟩]⟩

/-- The function pointer is `make`. -/
def pointerToMake : ℕ → List String
  | 1 => ["make"]
  | _ => []

/-- Alone the first module gives each call once. -/
theorem construct_once_iff_main :
    ∃ s, run ⟨[mainModule], pointerToMake⟩ = some s ∧
      s.ExactlyOnce ⟨[mainModule], pointerToMake⟩ :=
  (@construct_once_iff ⟨[mainModule], pointerToMake⟩ (List.cons_ne_nil _ _)
    (by decide +kernel)).mpr (by decide +kernel)

/-- With the second module after it the call of the function pointer is in the list twice. -/
theorem construct_twice : ¬ ∀ ctx : GlobalContext, ctx.modules ≠ [] → ctx.CallsDeclared →
    ∃ s, run ctx = some s ∧ s.ExactlyOnce ctx := by
  intro hall
  obtain ⟨s, hrun, honce⟩ := hall ⟨[mainModule, logModule], pointerToMake⟩ (List.cons_ne_nil _ _)
    (by decide +kernel)
  have hlisted : (run ⟨[mainModule, logModule], pointerToMake⟩).map (listed · "make") =
      some [.new 1 "make" "main", .new 1 "make" "main"] := by decide +kernel
  rw [hrun, Option.map_some, Option.some.injEq] at hlisted
  have hlen := (honce "make").length_eq
  rw [hlisted] at hlen
  revert hlen
  decide +kernel

end ConstructCGPass

end Semalloc
