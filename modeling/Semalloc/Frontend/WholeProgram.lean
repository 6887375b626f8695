import Semalloc.Frontend.CallTargets
import Semalloc.Frontend.PathLists

/-!
# The call graph of a whole program

The pass that builds the call paths starts from what the global call graph left: the functions of
the modules, and for each indirect call the callees that were found. A function that is only
declared is no callee of an indirect call, so the calls of heap functions through global variables
are added afterwards. For a program in one module both steps complete, and the list of a function
has one call path for each call that may reach the function.

## Main definitions

* `context`, `library`: what the two steps are given
* `CallsTo`: the calls of a program, by call path
* `OneModule`: the programs the tool is run on

## Main results

* `indirectCallInsts_eq`: both passes go over the same indirect calls
* `constructed_calls`: the call graph has every call of the program once, and no other
-/

set_option autoImplicit false

namespace Semalloc

open MLTA ConstructCGPass

namespace CallGraphPass

variable {p : Program} {M : Module} {F G I CI calledOperand functionType : Value}
  {args : List Value} {info infoG : FunctionInfo} {e : CallPath}

/-! ## The modules of the program -/

def nameOf (p : Program) (F : Value) : Option String := (p.asFunction F).map FunctionInfo.name

/-- What a call calls. -/
def operandOf (p : Program) (calledOperand : Value) : CalledOperand :=
  if p.isIndirectCall calledOperand then .value
  else if p.kind calledOperand = .inlineAsm then .inlineAsm
  else
    match nameOf p calledOperand, nameOf p (p.stripPointerCasts calledOperand) with
    | some name, _ => .function name
    | none, some name => .cast name
    | none, none => .constant

def irCall (p : Program) (I : Value) : Option IRCall :=
  match p.kind I with
  | .call _ calledOperand _ => some ⟨I, operandOf p calledOperand⟩
  | _ => none

def irFunction (p : Program) (F : Value) : Option IRFunction :=
  (nameOf p F).map fun name => ⟨name, (bodyInstructions p F).filterMap (irCall p)⟩

def irModule (p : Program) (M : Module) : IRModule := ⟨M.functions.filterMap (irFunction p)⟩

/-- What the global call graph leaves for the next pass. -/
def context (p : Program) : GlobalContext where
  modules := p.modules.map (irModule p)
  callees CI := ((run p).Callees.get CI).filterMap (nameOf p)

def globalVariable (p : Program) (GV : Value) : Option GlobalVariable :=
  match p.kind GV with
  | .globalVariable name initializer =>
    some ⟨name, (p.pointerElementType (p.type GV)).any p.isPointerTy, initializer.bind (nameOf p)⟩
  | _ => none

/-- The global variable that what a call calls is loaded from. -/
def loadedFrom (p : Program) (CI : Value) : Option String :=
  match p.kind CI with
  | .call _ calledOperand _ =>
    match p.kind calledOperand with
    | .load pointer =>
      match p.kind pointer with
      | .globalVariable name _ => some name
      | _ => none
    | _ => none
  | _ => none

/-- What is read of the module when the calls of heap functions are added. -/
def library (p : Program) (M : Module) : ReduceLibraryIndirectCall where
  globals := M.globals.filterMap (globalVariable p)
  loadedFrom := loadedFrom p

/-! ## The indirect calls -/

/-- The instruction is an indirect call. -/
def isIndirect (p : Program) (I : Value) : Bool :=
  match p.kind I with
  | .call _ calledOperand _ => p.isIndirectCall calledOperand
  | _ => false

theorem operandOf_isIndirectCall :
    (operandOf p calledOperand).isIndirectCall = p.isIndirectCall calledOperand := by
  unfold operandOf
  split
  · rename_i hindirect
    exact hindirect.symm
  · rename_i hdirect
    have hfalse : p.isIndirectCall calledOperand = false := by simpa using hdirect
    rw [hfalse]
    split
    · rfl
    · split <;> rfl

theorem resolveCalls_indirect (Is : List Value) (s : CallGraphPass) :
    (Is.foldl (resolveCall p) s).IndirectCallInsts =
      s.IndirectCallInsts ++ Is.filter (isIndirect p) := by
  induction Is generalizing s with
  | nil => simp
  | cons I Is ih =>
    have hstep : (resolveCall p s I).IndirectCallInsts =
        s.IndirectCallInsts ++ [I].filter (isIndirect p) := by
      unfold resolveCall isIndirect
      cases hkind : p.kind I with
      | call args calledOperand functionType =>
        cases hindirect : p.isIndirectCall calledOperand <;> simp [hindirect, hkind]
      | _ => simp [hkind]
    rw [List.foldl_cons, ih, hstep, List.append_assoc, ← List.filter_append, List.singleton_append]

theorem indirectCalls_irFunction (F : Value) :
    ((irFunction p F).toList.flatMap fun f =>
      (f.calls.filter fun c => c.operand.isIndirectCall).map IRCall.inst) =
        (bodyInstructions p F).filter (isIndirect p) := by
  have hcalls : ∀ Is : List Value,
      ((Is.filterMap (irCall p)).filter fun c => c.operand.isIndirectCall).map IRCall.inst =
        Is.filter (isIndirect p) := by
    intro Is
    induction Is with
    | nil => rfl
    | cons I Is ih =>
      unfold irCall isIndirect at *
      cases hkind : p.kind I with
      | call args calledOperand functionType =>
        cases hindirect : p.isIndirectCall calledOperand <;>
          simp [hkind, hindirect, operandOf_isIndirectCall, ih]
      | _ => simp [hkind, ih]
  unfold irFunction nameOf
  cases hinfo : p.asFunction F with
  | none => simp [bodyInstructions, hinfo]
  | some info => simp [hcalls]

/-- **The indirect calls of the program** are those that the global call graph noted, in order. -/
theorem indirectCallInsts_eq :
    (context p).indirectCallInsts.map Prod.fst = (run p).IndirectCallInsts := by
  have hinstructions : (run p).IndirectCallInsts = (instructions p).filter (isIndirect p) := by
    rw [run_eq]
    exact resolveCalls_indirect _ _
  rw [hinstructions]
  simp only [instructions, GlobalContext.indirectCallInsts, context, irModule, List.flatMap_map,
    List.filter_flatMap, List.map_flatMap, List.filterMap_eq_flatMap_toList, List.flatMap_assoc,
    List.map_map]
  refine List.flatMap_congr fun M _ => List.flatMap_congr fun F _ => ?_
  exact indirectCalls_irFunction F

/-! ## The calls of a program -/

/-- The function that is called, behind pointer casts or not. -/
def calledFunction (p : Program) (calledOperand : Value) : Option FunctionInfo :=
  p.asFunction calledOperand <|> p.asFunction (p.stripPointerCasts calledOperand)

/-- The calls of a program. An indirect call may reach each of the callees that were found, and the
heap function that a global variable is initialized with when it calls what it loads from there. A
direct call reaches the function that is called unless it belongs to the compiler. -/
inductive CallsTo (p : Program) : CallPath → Prop
  | indirect {F CI calledOperand functionType G : Value} {args : List Value}
    {info infoG : FunctionInfo} (hF : HasBody p F info) (hCI : CI ∈ info.instructions)
    (hkind : p.kind CI = .call args calledOperand functionType)
    (hindirect : p.isIndirectCall calledOperand = true) (hG : G ∈ (run p).Callees.get CI)
    (hinfo : p.asFunction G = some infoG) : CallsTo p (.new CI infoG.name info.name)
  | direct {F CI calledOperand functionType : Value} {args : List Value}
    {info infoG : FunctionInfo} (hF : HasBody p F info) (hCI : CI ∈ info.instructions)
    (hkind : p.kind CI = .call args calledOperand functionType)
    (hdirect : p.isIndirectCall calledOperand = false) (hasm : p.kind calledOperand ≠ .inlineAsm)
    (hG : calledFunction p calledOperand = some infoG) (hintrinsic : ¬ IsIntrinsic infoG.name) :
    CallsTo p (.new CI infoG.name info.name)
  | library {F CI calledOperand functionType GV G : Value} {args : List Value} {name : String}
    {info infoG : FunctionInfo} (hF : HasBody p F info) (hCI : CI ∈ info.instructions)
    (hkind : p.kind CI = .call args calledOperand functionType)
    (hindirect : p.isIndirectCall calledOperand = true) (hload : p.kind calledOperand = .load GV)
    (hGV : p.kind GV = .globalVariable name (some G))
    (hpointer : (p.pointerElementType (p.type GV)).any p.isPointerTy = true)
    (hinfo : p.asFunction G = some infoG) (hheap : infoG.name ∈ initialHeapFunctions) :
    CallsTo p (.new CI infoG.name info.name)

/-- A program in one module: its functions and global variables are those of the module, under
different names that no node of a cycle has, and the functions of the compiler and of the heap are
only declared. -/
structure OneModule (p : Program) (M : Module) : Prop where
  modules : p.modules = [M]
  functions : ∀ F, (p.asFunction F).isSome ↔ F ∈ M.functions
  names : ∀ F ∈ M.functions, ∀ G ∈ M.functions, nameOf p F = nameOf p G → F = G
  named : ∀ F info, p.asFunction F = some info → info.name ≠ "" ∧ ∀ n, info.name ≠ intraName n
  bodies : ∀ F info, HasBody p F info →
    ¬ IsIntrinsic info.name ∧ info.name ∉ initialHeapFunctions
  globals : ∀ GV, (globalVariable p GV).isSome ↔ GV ∈ M.globals
  globalNames : ∀ GV ∈ M.globals, ∀ GV' ∈ M.globals,
    (globalVariable p GV).map GlobalVariable.name = (globalVariable p GV').map GlobalVariable.name →
      GV = GV'

theorem mem_irCalls {c : IRCall} : c ∈ (bodyInstructions p F).filterMap (irCall p) ↔
    ∃ I ∈ bodyInstructions p F, ∃ args calledOperand functionType,
      p.kind I = .call args calledOperand functionType ∧ c = ⟨I, operandOf p calledOperand⟩ := by
  have hcall : ∀ I, irCall p I = some c ↔ ∃ args calledOperand functionType,
      p.kind I = .call args calledOperand functionType ∧ c = ⟨I, operandOf p calledOperand⟩ := by
    intro I
    unfold irCall
    cases hkind : p.kind I with
    | call args calledOperand functionType =>
      simp only [Option.some.injEq, ValueKind.call.injEq]
      constructor
      · rintro rfl
        exact ⟨args, calledOperand, functionType, ⟨rfl, rfl, rfl⟩, rfl⟩
      · rintro ⟨_, _, _, ⟨rfl, rfl, rfl⟩, rfl⟩
        rfl
    | _ => simp
  simp only [List.mem_filterMap, hcall]

theorem directCallee_eq_some {name : String} :
    (IRCall.mk CI (operandOf p calledOperand)).directCallee = some name ↔
      p.isIndirectCall calledOperand = false ∧ p.kind calledOperand ≠ .inlineAsm ∧
        ∃ info, calledFunction p calledOperand = some info ∧ ¬ IsIntrinsic info.name ∧
          info.name = name := by
  unfold IRCall.directCallee operandOf calledFunction nameOf
  dsimp only
  cases hindirect : p.isIndirectCall calledOperand with
  | true => simp [CalledOperand.isIndirectCall]
  | false =>
    by_cases hasm : p.kind calledOperand = .inlineAsm
    · simp [hasm, CalledOperand.isIndirectCall, CalledOperand.isInlineAsm]
    · cases hcalled : p.asFunction calledOperand with
      | some info =>
        simp [hasm, CalledOperand.isIndirectCall, CalledOperand.isInlineAsm,
          CalledOperand.getCalledFunction]
      | none =>
        cases hstripped : p.asFunction (p.stripPointerCasts calledOperand) <;>
          simp [hasm, CalledOperand.isIndirectCall, CalledOperand.isInlineAsm,
            CalledOperand.getCalledFunction, CalledOperand.stripPointerCasts]

theorem mem_indirectNames {callee : String} :
    callee ∈ indirectNames (context p) ⟨CI, operandOf p calledOperand⟩ ↔
      p.isIndirectCall calledOperand = true ∧ ∃ G ∈ (run p).Callees.get CI, ∃ infoG,
        p.asFunction G = some infoG ∧ infoG.name = callee := by
  unfold indirectNames
  rw [operandOf_isIndirectCall]
  split
  · rename_i hindirect
    simp [hindirect, context, nameOf]
  · rename_i hdirect
    simp [hdirect]

/-- What a call calls is loaded from a global variable. -/
theorem loadedFrom_eq_some {name : String}
    (hkind : p.kind CI = .call args calledOperand functionType) : loadedFrom p CI = some name ↔
      ∃ GV initializer, p.kind calledOperand = .load GV ∧
        p.kind GV = .globalVariable name initializer := by
  unfold loadedFrom
  rw [hkind]
  dsimp only
  cases hload : p.kind calledOperand with
  | load GV => cases hGV : p.kind GV <;> simp [hGV]
  | _ => simp

theorem globalVariable_eq_some {GV : Value} {v : GlobalVariable} :
    globalVariable p GV = some v ↔ ∃ initializer, p.kind GV = .globalVariable v.name initializer ∧
      v.isPointer = (p.pointerElementType (p.type GV)).any p.isPointerTy ∧
      v.initializer = initializer.bind (nameOf p) := by
  unfold globalVariable
  cases hGV : p.kind GV with
  | globalVariable name initializer =>
    cases v
    simp only [Option.some.injEq, GlobalVariable.mk.injEq, ValueKind.globalVariable.injEq]
    constructor
    · rintro ⟨rfl, rfl, rfl⟩
      exact ⟨initializer, ⟨rfl, rfl⟩, rfl, rfl⟩
    · rintro ⟨_, ⟨rfl, rfl⟩, rfl, rfl⟩
      exact ⟨rfl, rfl, rfl⟩
  | _ => simp

/-- An indirect call only has callees with a body. -/
theorem callees_function (hkind : p.kind CI = .call args calledOperand functionType)
    (hindirect : p.isIndirectCall calledOperand = true) (hG : G ∈ (run p).Callees.get CI) :
    ∃ infoG, HasBody p G infoG := by
  have hmem := run_resolved.typed CI args calledOperand functionType hkind hindirect G hG
  obtain ⟨H, hH, hdefined⟩ := mem_mapDeclarations.mp (mem_signatureFuncs.mp hmem)
  obtain ⟨infoH, haddress, -⟩ := collect_fromProgram.sigs _ _ hH
  exact DefinedAs.hasBody hdefined haddress.1 haddress.2.1

namespace OneModule

variable (hp : OneModule p M)

include hp

theorem hasBody_of_mem (hF : F ∈ M.functions) (hI : I ∈ bodyInstructions p F) :
    ∃ info, HasBody p F info ∧ I ∈ info.instructions := by
  obtain ⟨info, hinfo, hbody, hI⟩ := mem_bodyInstructions.mp hI
  exact ⟨info, ⟨⟨M, hp.modules ▸ List.mem_singleton_self M, hF⟩, hinfo, hbody⟩, hI⟩

theorem functions_context :
    (context p).modules.flatMap IRModule.functions = (irModule p M).functions := by
  simp [context, hp.modules]

theorem mem_irFunctions {f : IRFunction} : f ∈ (irModule p M).functions ↔
    ∃ F info, p.asFunction F = some info ∧
      f = ⟨info.name, (bodyInstructions p F).filterMap (irCall p)⟩ := by
  simp only [irModule, List.mem_filterMap, irFunction, nameOf, Option.map_map,
    Option.map_eq_some_iff]
  constructor
  · rintro ⟨F, -, info, hinfo, rfl⟩
    exact ⟨F, info, hinfo, rfl⟩
  · rintro ⟨F, info, hinfo, rfl⟩
    exact ⟨F, (hp.functions F).mp (by simp [hinfo]), info, hinfo, rfl⟩

/-- The calls of the functions are the call instructions of the program. -/
theorem exists_call {f : IRFunction} {c : IRCall} :
    (f ∈ (irModule p M).functions ∧ c ∈ f.calls) ↔
      ∃ F info CI args calledOperand functionType, HasBody p F info ∧ CI ∈ info.instructions ∧
        p.kind CI = .call args calledOperand functionType ∧
        f = ⟨info.name, (bodyInstructions p F).filterMap (irCall p)⟩ ∧
        c = ⟨CI, operandOf p calledOperand⟩ := by
  constructor
  · rintro ⟨hf, hc⟩
    obtain ⟨F, info, hinfo, rfl⟩ := hp.mem_irFunctions.mp hf
    obtain ⟨CI, hCI, args, calledOperand, functionType, hkind, rfl⟩ := mem_irCalls.mp hc
    obtain ⟨info', hF, hCI⟩ := hp.hasBody_of_mem ((hp.functions F).mp (by simp [hinfo])) hCI
    obtain rfl := Option.some.inj (hinfo.symm.trans hF.2.1)
    exact ⟨F, info, CI, args, calledOperand, functionType, hF, hCI, hkind, rfl, rfl⟩
  · rintro ⟨F, info, CI, args, calledOperand, functionType, hF, hCI, hkind, rfl, rfl⟩
    refine ⟨hp.mem_irFunctions.mpr ⟨F, info, hF.2.1, rfl⟩, mem_irCalls.mpr ?_⟩
    exact ⟨CI, mem_bodyInstructions.mpr ⟨info, hF.2.1, hF.2.2, hCI⟩, args, calledOperand,
      functionType, hkind, rfl⟩

theorem mem_libraryNames {callee : String}
    (hkind : p.kind CI = .call args calledOperand functionType) :
    callee ∈ libraryNames (library p M) ⟨CI, operandOf p calledOperand⟩ ↔
      p.isIndirectCall calledOperand = true ∧ ∃ GV name G infoG, p.kind calledOperand = .load GV ∧
        p.kind GV = .globalVariable name (some G) ∧
        (p.pointerElementType (p.type GV)).any p.isPointerTy = true ∧
        p.asFunction G = some infoG ∧ infoG.name ∈ initialHeapFunctions ∧ infoG.name = callee := by
  let HMFIndirectFunctions := (library p M).traverseGlobalVariables4Malloc
  have hcallee : callee ∈ libraryNames (library p M) ⟨CI, operandOf p calledOperand⟩ ↔
      p.isIndirectCall calledOperand = true ∧ ∃ name, loadedFrom p CI = some name ∧
        name ∈ HMFIndirectFunctions.keys ∧ HMFIndirectFunctions.get name = callee := by
    unfold libraryNames
    rw [operandOf_isIndirectCall]
    split
    · rename_i hindirect
      simp only [hindirect, true_and, List.mem_map, List.mem_filter, Option.mem_toList,
        decide_eq_true_eq, and_assoc]
      rfl
    · rename_i hdirect
      simp [hdirect]
  rw [hcallee]
  refine and_congr_right fun _ => ?_
  constructor
  · rintro ⟨name, hloaded, hkey, rfl⟩
    obtain ⟨GV, initializer, hload, hGV⟩ := (loadedFrom_eq_some hkind).mp hloaded
    obtain ⟨v, hv, rfl, hpointer, hinit, hheap⟩ := traverse_get hkey
    obtain ⟨GV', hGV', hv⟩ := List.mem_filterMap.mp hv
    obtain ⟨initializer', hkind', hpointer', hinit'⟩ := globalVariable_eq_some.mp hv
    -- the variable that is noted under the name is the one that is loaded from
    obtain ⟨v', hv'⟩ : ∃ v', globalVariable p GV = some v' := by simp [globalVariable, hGV]
    obtain ⟨_, hname, -⟩ := globalVariable_eq_some.mp hv'
    obtain ⟨hname, -⟩ := ValueKind.globalVariable.inj (hGV.symm.trans hname)
    obtain rfl : GV = GV' := by
      refine hp.globalNames GV ((hp.globals GV).mp (by simp [hv'])) GV' hGV' ?_
      rw [hv', hv, Option.map_some, Option.map_some, hname]
    obtain ⟨-, rfl⟩ := ValueKind.globalVariable.inj (hGV.symm.trans hkind')
    rw [hinit] at hinit'
    obtain ⟨G, rfl, hG⟩ := Option.bind_eq_some_iff.mp hinit'.symm
    obtain ⟨infoG, hinfo, hcallee⟩ := Option.map_eq_some_iff.mp hG
    exact ⟨GV, v.name, G, infoG, hload, hGV, hpointer' ▸ hpointer, hinfo, hcallee ▸ hheap, hcallee⟩
  · rintro ⟨GV, name, G, infoG, hload, hGV, hpointer, hinfo, hheap, rfl⟩
    have hv : globalVariable p GV = some ⟨name, true, some infoG.name⟩ :=
      globalVariable_eq_some.mpr ⟨some G, hGV, hpointer.symm, by simp [nameOf, hinfo]⟩
    have hmem : ⟨name, true, some infoG.name⟩ ∈ (library p M).globals :=
      List.mem_filterMap.mpr ⟨GV, (hp.globals GV).mp (by simp [hv]), hv⟩
    have hkey : name ∈ HMFIndirectFunctions.keys := mem_traverse_keys hmem rfl rfl hheap
    refine ⟨name, (loadedFrom_eq_some hkind).mpr ⟨GV, _, hload, hGV⟩, hkey, ?_⟩
    obtain ⟨v, hv', hname, -, hinit, -⟩ := traverse_get hkey
    obtain ⟨GV', hGV', hv'⟩ := List.mem_filterMap.mp hv'
    obtain rfl : GV = GV' := by
      refine hp.globalNames GV ((hp.globals GV).mp (by simp [hv])) GV' hGV' ?_
      rw [hv, hv', Option.map_some, Option.map_some, hname]
    obtain rfl := Option.some.inj (hv.symm.trans hv')
    exact (Option.some.inj hinit).symm

/-! ### The call paths -/

/-- **The call paths are those of the calls of the program.** -/
theorem callsTo_iff : CallsTo p e ↔
    e ∈ (context p).indirectPaths ∨ e ∈ (context p).directPaths ∨
      e ∈ (library p M).paths (irModule p M) := by
  rw [indirectPaths_eq, directPaths_eq, paths_eq, hp.functions_context, mem_pathsFor,
    mem_pathsFor, mem_pathsFor]
  constructor
  · intro h
    cases h with
    | @indirect F CI calledOperand functionType G args info infoG hF hCI hkind hindirect hG hinfo =>
      obtain ⟨hf, hc⟩ := hp.exists_call.mpr
        ⟨F, info, CI, args, calledOperand, functionType, hF, hCI, hkind, rfl, rfl⟩
      exact .inl ⟨_, hf, _, hc, _, mem_indirectNames.mpr ⟨hindirect, G, hG, infoG, hinfo, rfl⟩, rfl⟩
    | @direct F CI calledOperand functionType args info infoG hF hCI hkind hdirect hasm hG
        hintrinsic =>
      obtain ⟨hf, hc⟩ := hp.exists_call.mpr
        ⟨F, info, CI, args, calledOperand, functionType, hF, hCI, hkind, rfl, rfl⟩
      exact .inr (.inl ⟨_, hf, _, hc, _, Option.mem_toList.mpr (directCallee_eq_some.mpr
        ⟨hdirect, hasm, infoG, hG, hintrinsic, rfl⟩), rfl⟩)
    | @library F CI calledOperand functionType GV G args name info infoG hF hCI hkind hindirect
        hload hGV hpointer hinfo hheap =>
      obtain ⟨hf, hc⟩ := hp.exists_call.mpr
        ⟨F, info, CI, args, calledOperand, functionType, hF, hCI, hkind, rfl, rfl⟩
      exact .inr (.inr ⟨_, hf, _, hc, _, (hp.mem_libraryNames hkind).mpr
        ⟨hindirect, GV, name, G, infoG, hload, hGV, hpointer, hinfo, hheap, rfl⟩, rfl⟩)
  · rintro (⟨f, hf, c, hc, callee, hcallee, rfl⟩ | ⟨f, hf, c, hc, callee, hcallee, rfl⟩ |
      ⟨f, hf, c, hc, callee, hcallee, rfl⟩)
    all_goals obtain ⟨F, info, CI, args, calledOperand, functionType, hF, hCI, hkind, rfl, rfl⟩ :=
      hp.exists_call.mp ⟨hf, hc⟩
    · obtain ⟨hindirect, G, hG, infoG, hinfo, rfl⟩ := mem_indirectNames.mp hcallee
      exact .indirect hF hCI hkind hindirect hG hinfo
    · obtain ⟨hdirect, hasm, infoG, hG, hintrinsic, rfl⟩ :=
        directCallee_eq_some.mp (Option.mem_toList.mp hcallee)
      exact .direct hF hCI hkind hdirect hasm hG hintrinsic
    · obtain ⟨hindirect, GV, name, G, infoG, hload, hGV, hpointer, hinfo, hheap, rfl⟩ :=
        (hp.mem_libraryNames hkind).mp hcallee
      exact .library hF hCI hkind hindirect hload hGV hpointer hinfo hheap

/-- Every function that is called gets a list. -/
theorem declared_of_callsTo (h : CallsTo p e) : e.callee ∈ (irModule p M).declared := by
  have hdeclared : ∀ {G infoG}, p.asFunction G = some infoG → ¬ IsIntrinsic infoG.name →
      infoG.name ∈ (irModule p M).declared := by
    intro G infoG hinfo hintrinsic
    have hmem := hp.mem_irFunctions.mpr ⟨G, infoG, hinfo, rfl⟩
    exact List.mem_filter.mpr ⟨List.mem_map.mpr ⟨_, hmem, rfl⟩, decide_eq_true hintrinsic⟩
  cases h with
  | indirect hF hCI hkind hindirect hG hinfo =>
    obtain ⟨infoG, hbody⟩ := callees_function hkind hindirect hG
    obtain rfl := Option.some.inj (hinfo.symm.trans hbody.2.1)
    exact hdeclared hinfo (hp.bodies _ _ hbody).1
  | @direct F CI calledOperand functionType args info infoG hF hCI hkind hdirect hasm hG
      hintrinsic =>
    unfold calledFunction at hG
    cases hcalled : p.asFunction calledOperand with
    | some info =>
      rw [hcalled] at hG
      exact Option.some.inj hG ▸ hdeclared hcalled (Option.some.inj hG ▸ hintrinsic)
    | none =>
      rw [hcalled] at hG
      exact hdeclared hG hintrinsic
  | library hF hCI hkind hindirect hload hGV hpointer hinfo hheap =>
    have hintrinsic : ∀ f ∈ initialHeapFunctions, ¬ IsIntrinsic f := by decide
    exact hdeclared hinfo (hintrinsic _ hheap)

theorem nameOf_injective (F G : Value) (name : String) (hF : name ∈ nameOf p F)
    (hG : name ∈ nameOf p G) : F = G := by
  have hmem : ∀ {F}, name ∈ nameOf p F → F ∈ M.functions := by
    intro F hF
    obtain ⟨info, hinfo, -⟩ := Option.map_eq_some_iff.mp hF
    exact (hp.functions F).mp (by simp [hinfo])
  exact hp.names F (hmem hF) G (hmem hG) (Eq.trans hF (Eq.symm hG))

/-- The functions of the pass have different names, and a call is in one of them once. -/
theorem nodup_irFunctions (hscope : WellScoped p) :
    ((irModule p M).functions.map IRFunction.name).Nodup ∧
      ∀ f ∈ (irModule p M).functions, (f.calls.map IRCall.inst).Nodup := by
  constructor
  · have hfunctions : M.functions.Nodup := by
      have h := hscope.functions
      rwa [hp.modules, List.flatMap_singleton] at h
    have hmap : (irModule p M).functions.map IRFunction.name =
        M.functions.filterMap (nameOf p) := by
      simp [irModule, List.map_filterMap, irFunction, Function.comp_def]
    rw [hmap]
    exact hfunctions.filterMap hp.nameOf_injective
  · intro f hf
    obtain ⟨F, info, hinfo, rfl⟩ := hp.mem_irFunctions.mp hf
    have hbody : (bodyInstructions p F).Nodup := by
      unfold bodyInstructions
      rw [hinfo]
      dsimp only
      split
      · exact List.nodup_nil
      · exact hscope.once F info hinfo
    have hinst : ∀ {I i}, i ∈ (irCall p I).map IRCall.inst → i = I := by
      intro I i hi
      unfold irCall at hi
      split at hi
      · exact (Option.some.inj hi).symm
      · cases hi
    dsimp only
    rw [List.map_filterMap]
    exact hbody.filterMap fun I I' i hi hi' => (hinst hi).symm.trans (hinst hi')

/-- **No call path twice.** -/
theorem nodup_paths (hscope : WellScoped p) :
    ((context p).indirectPaths ++ (context p).directPaths ++
      (library p M).paths (irModule p M)).Nodup := by
  obtain ⟨hnames, hinsts⟩ := hp.nodup_irFunctions hscope
  rw [indirectPaths_eq, directPaths_eq, paths_eq, hp.functions_context]
  have hcallees : ∀ c : IRCall, (indirectNames (context p) c).Nodup ∧ c.directCallee.toList.Nodup ∧
      (libraryNames (library p M) c).Nodup := by
    intro c
    refine ⟨?_, by cases c.directCallee <;> simp, ?_⟩
    · unfold indirectNames
      split
      · exact (run_nodup c.inst).filterMap hp.nameOf_injective
      · exact List.nodup_nil
    · unfold libraryNames
      cases (library p M).loadedFrom c.inst with
      | none => split <;> simp
      | some name => split <;> simp [List.filter_cons]; split <;> simp
  have hdirect : ∀ c : IRCall, ∀ callee ∈ c.directCallee.toList,
      c.operand.isIndirectCall = false := by
    intro c callee hcallee
    by_contra hindirect
    unfold IRCall.directCallee at hcallee
    rw [if_pos (by simpa using hindirect)] at hcallee
    exact List.not_mem_nil hcallee
  refine List.nodup_append'.mpr ⟨List.nodup_append'.mpr ⟨?_, ?_, ?_⟩, ?_, ?_⟩
  · exact nodup_pathsFor hnames hinsts fun f _ c _ => (hcallees c).1
  · exact nodup_pathsFor hnames hinsts fun f _ c _ => (hcallees c).2.1
  · refine disjoint_pathsFor hnames hinsts fun f _ c _ callee hcallee hcallee' => ?_
    unfold indirectNames at hcallee
    rw [if_neg (by simp [hdirect c callee hcallee'])] at hcallee
    exact List.not_mem_nil hcallee
  · exact nodup_pathsFor hnames hinsts fun f _ c _ => (hcallees c).2.2
  · refine List.disjoint_append_left.mpr ⟨?_, ?_⟩
    · -- a callee that was found has a body, and a heap function has none
      refine disjoint_pathsFor hnames hinsts fun f hf c hc callee hcallee hcallee' => ?_
      obtain ⟨F, info, CI, args, calledOperand, functionType, hF, hCI, hkind, rfl, rfl⟩ :=
        hp.exists_call.mp ⟨hf, hc⟩
      obtain ⟨hindirect, G, hG, infoG, hinfo, rfl⟩ := mem_indirectNames.mp hcallee
      obtain ⟨infoG', hbody⟩ := callees_function hkind hindirect hG
      obtain rfl := Option.some.inj (hinfo.symm.trans hbody.2.1)
      obtain ⟨-, GV, name, G', infoG', -, -, -, -, hheap, hname⟩ :=
        (hp.mem_libraryNames hkind).mp hcallee'
      exact (hp.bodies G infoG hbody).2 (hname ▸ hheap)
    · refine disjoint_pathsFor hnames hinsts fun f _ c _ callee hcallee hcallee' => ?_
      unfold libraryNames at hcallee'
      rw [if_neg (by simp [hdirect c callee hcallee])] at hcallee'
      exact List.not_mem_nil hcallee'

/-- The module declares the functions that its calls refer to. -/
theorem callsDeclared : (context p).CallsDeclared := by
  intro M' hM' f hf c hc callee hcallee
  have hmodules : (context p).modules = [irModule p M] := by simp [context, hp.modules]
  obtain rfl : M' = irModule p M := by simpa [hmodules] using hM'
  refine hp.declared_of_callsTo (e := .new c.inst callee f.name)
    (hp.callsTo_iff.mpr (.inr (.inl ?_)))
  rw [directPaths_eq, mem_pathsFor, hp.functions_context]
  exact ⟨f, hf, c, hc, callee, Option.mem_toList.mpr hcallee, rfl⟩

/-- **The call graph of the program**, when the calls through global variables were added. -/
theorem run_listed (hscope : WellScoped p) : ∃ s s', ConstructCGPass.run (context p) = some s ∧
    (library p M).updateCFGWithIndirectCalls (irModule p M) s = some s' ∧ s'.Lists ∧
    (∀ f, f ∈ s'.functionMap.keys ↔ f ∈ (irModule p M).declared) ∧
    ∀ f, (s'.listed f).Nodup ∧ ∀ e, e ∈ s'.listed f ↔ e.callee = f ∧ CallsTo p e := by
  have hmodules : (context p).modules = [irModule p M] := by simp [context, hp.modules]
  have hdeclared : ∀ e, e ∈ (context p).indirectPaths ∨ e ∈ (context p).directPaths ∨
      e ∈ (library p M).paths (irModule p M) → e.callee ∈ (irModule p M).declared :=
    fun e he => hp.declared_of_callsTo (hp.callsTo_iff.mpr he)
  obtain ⟨s, hrun, hs, hkeys, hlisted⟩ := (run_spec hmodules hp.callsDeclared).2
    fun e he => hdeclared e (.inl he)
  have hkeys : ∀ f, f ∈ s.functionMap.keys ↔ f ∈ (irModule p M).declared := by
    simpa [hmodules] using hkeys
  obtain ⟨s', hreduce, hs', hkeys', hlisted'⟩ := addPaths_spec
    ((library p M).paths (irModule p M)) hs fun e he => (hkeys _).mpr (hdeclared e (.inr (.inr he)))
  refine ⟨s, s', hrun, ?_, hs', fun f => (hkeys' f).trans (hkeys f), fun f => ?_⟩
  · rw [ReduceLibraryIndirectCall.updateCFGWithIndirectCalls_eq]
    exact hreduce
  · have hcopies : GlobalContext.copies (context p).modules f = 1 := by
      rw [hmodules]
      exact (copies_eq_one (List.cons_ne_nil _ _)).mpr (.inr rfl)
    have hpaths : s'.listed f = ((context p).indirectPaths ++ (context p).directPaths ++
        (library p M).paths (irModule p M)).filter fun e => e.callee = f := by
      rw [hlisted', hlisted, hcopies, List.replicate_one, List.flatten_singleton,
        List.filter_append, List.filter_append]
    rw [hpaths]
    refine ⟨(hp.nodup_paths hscope).filter _, fun e => ?_⟩
    rw [List.mem_filter, List.mem_append, List.mem_append, or_assoc, ← hp.callsTo_iff, and_comm,
      decide_eq_true_eq]

end OneModule

/-! ## What the next pass starts from -/

/-- A call graph that is not marked yet: it is well formed, no call path has been looked at, and an
instruction is in one function. -/
structure Unmarked (s : ConstructCGPass) : Prop where
  wellFormed : InstrumentIRPass.WellFormed s.callPaths s.functionMap
  default : ∀ n, (s.callPaths n).pathType = .default ∧ (s.callPaths n).callsHMF = false
  sites : ∀ f g, ∀ q ∈ s.functionMap.get f, ∀ q' ∈ s.functionMap.get g,
    (s.callPaths q).callInst = (s.callPaths q').callInst →
      (s.callPaths q).caller = (s.callPaths q').caller

theorem CallsTo.eq_new (h : CallsTo p e) : e = .new e.callInst e.callee e.caller := by
  cases h <;> rfl

/-- The call is in the function of its instruction. -/
theorem CallsTo.caller (hscope : WellScoped p) (h : CallsTo p e) :
    ∃ F info, HasBody p F info ∧ p.parent e.callInst = some F ∧ e.caller = info.name := by
  cases h with
  | indirect hF hCI => exact ⟨_, _, hF, hscope.instructions _ _ hF.2.1 _ hCI, rfl⟩
  | direct hF hCI => exact ⟨_, _, hF, hscope.instructions _ _ hF.2.1 _ hCI, rfl⟩
  | library hF hCI => exact ⟨_, _, hF, hscope.instructions _ _ hF.2.1 _ hCI, rfl⟩

/-- **The next pass can start** from the call graph of the program. -/
theorem OneModule.unmarked (hp : OneModule p M) (hscope : WellScoped p) {s s' : ConstructCGPass}
    (hrun : ConstructCGPass.run (context p) = some s)
    (hreduce : (library p M).updateCFGWithIndirectCalls (irModule p M) s = some s') (hs' : s'.Lists)
    (hkeys : ∀ f, f ∈ s'.functionMap.keys ↔ f ∈ (irModule p M).declared)
    (hcall : ∀ f, ∀ q ∈ s'.functionMap.get f, CallsTo p (s'.callPaths q)) : Unmarked s' := by
  have hnames : ∀ f ∈ s'.functionMap.keys, f ≠ "" ∧ ∀ n, f ≠ intraName n := by
    intro f hf
    obtain ⟨f', hf', rfl⟩ := List.mem_map.mp (List.mem_filter.mp ((hkeys f).mp hf)).1
    obtain ⟨F, info, hinfo, rfl⟩ := hp.mem_irFunctions.mp hf'
    exact hp.named F info hinfo
  refine ⟨?_, run_default hrun hreduce, ?_⟩
  · exact {
      keysNodup := hs'.keysNodup
      nonempty := fun f hf => (hnames f hf).1
      fresh := fun f hf => (hnames f hf).2
      outside := hs'.outside
      nodup := hs'.nodup
      callee := hs'.callee
      caller := fun f q hq => by
        obtain ⟨F, info, hF, -, hcaller⟩ := (hcall f q hq).caller hscope
        rw [hcaller, hkeys]
        have hmem := hp.mem_irFunctions.mpr ⟨F, info, hF.2.1, rfl⟩
        exact List.mem_filter.mpr
          ⟨List.mem_map.mpr ⟨_, hmem, rfl⟩, decide_eq_true (hp.bodies F info hF).1⟩ }
  · -- an instruction is in one function
    intro f g q hq q' hq' hsame
    obtain ⟨F, info, hF, hparent, hcaller⟩ := (hcall f q hq).caller hscope
    obtain ⟨F', info', hF', hparent', hcaller'⟩ := (hcall g q' hq').caller hscope
    rw [hsame] at hparent
    obtain rfl := Option.some.inj (hparent.symm.trans hparent')
    obtain rfl := Option.some.inj (hF.2.1.symm.trans hF'.2.1)
    rw [hcaller, hcaller']

/-- Whether a program is in one module can be read off its table of values. -/
theorem oneModule_of_values (hmodules : p.modules = [M])
    (hlt : ∀ v ∈ M.functions ++ M.globals, v < p.values.length)
    (hfunctions : ∀ F < p.values.length, (p.asFunction F).isSome ↔ F ∈ M.functions)
    (hnames : ∀ F ∈ M.functions, ∀ G ∈ M.functions, nameOf p F = nameOf p G → F = G)
    (hnamed : ∀ F ∈ M.functions, ∀ info ∈ p.asFunction F, info.name ≠ "" ∧ info.name.length < 9 ∧
      (info.isDeclaration = false → ¬ IsIntrinsic info.name ∧ info.name ∉ initialHeapFunctions))
    (hglobals : ∀ GV < p.values.length, (globalVariable p GV).isSome ↔ GV ∈ M.globals)
    (hglobalNames : ∀ GV ∈ M.globals, ∀ GV' ∈ M.globals, (globalVariable p GV).map
      GlobalVariable.name = (globalVariable p GV').map GlobalVariable.name → GV = GV') :
    OneModule p M := by
  have hmem : ∀ F, (p.asFunction F).isSome ↔ F ∈ M.functions := by
    intro F
    constructor
    · intro hsome
      refine (hfunctions F (Program.lt_of_kind fun hkind => ?_)).mp hsome
      simp [Program.asFunction, hkind] at hsome
    · intro hF
      exact (hfunctions F (hlt F (List.mem_append_left _ hF))).mpr hF
  have hglobal : ∀ GV, (globalVariable p GV).isSome ↔ GV ∈ M.globals := by
    intro GV
    constructor
    · intro hsome
      refine (hglobals GV (Program.lt_of_kind fun hkind => ?_)).mp hsome
      simp [globalVariable, hkind] at hsome
    · intro hGV
      exact (hglobals GV (hlt GV (List.mem_append_right _ hGV))).mpr hGV
  have hname := fun {F info} (hinfo : p.asFunction F = some info) =>
    hnamed F ((hmem F).mp (by simp [hinfo])) info hinfo
  refine ⟨hmodules, hmem, hnames, fun F info hinfo => ⟨(hname hinfo).1, fun n hn => ?_⟩,
    fun F info hF => (hname hF.2.1).2.2 hF.2.2, hglobal, hglobalNames⟩
  -- the name of a node of a cycle is longer
  have hshort := (hname hinfo).2.1
  have hle := nine_le_length_intraName n
  rw [hn] at hshort
  omega

/-- The program with the table is in one module. -/
theorem tableProgram_oneModule : OneModule tableProgram ⟨[4], [0, 1, 2, 3], 0, [3]⟩ :=
  oneModule_of_values rfl (by decide) (by decide) (by decide) (by decide) (by decide) (by decide)

/-- **The call graph of the program**: building it completes, the list of a function has one call
path for each call that may reach the function, and no other, and the next pass can start. -/
theorem constructed_calls (hscope : WellScoped p) (hp : OneModule p M) :
    ∃ s s', ConstructCGPass.run (context p) = some s ∧
      (library p M).updateCFGWithIndirectCalls (irModule p M) s = some s' ∧ Unmarked s' ∧
      ∀ f, (s'.listed f).Nodup ∧ ∀ e, e ∈ s'.listed f ↔ e.callee = f ∧ CallsTo p e := by
  obtain ⟨s, s', hrun, hreduce, hs', hkeys, hlisted⟩ := hp.run_listed hscope
  refine ⟨s, s', hrun, hreduce, hp.unmarked hscope hrun hreduce hs' hkeys ?_, hlisted⟩
  intro f q hq
  exact (((hlisted f).2 _).mp (List.mem_map_of_mem hq)).2

theorem constructed_calls_table : ∃ s s', ConstructCGPass.run (context tableProgram) = some s ∧
    (library tableProgram ⟨[4], [0, 1, 2, 3], 0, [3]⟩).updateCFGWithIndirectCalls
      (irModule tableProgram ⟨[4], [0, 1, 2, 3], 0, [3]⟩) s = some s' ∧ Unmarked s' ∧
    ∀ f, (s'.listed f).Nodup ∧ ∀ e, e ∈ s'.listed f ↔ e.callee = f ∧ CallsTo tableProgram e :=
  constructed_calls (by decide) tableProgram_oneModule

end CallGraphPass

end Semalloc
