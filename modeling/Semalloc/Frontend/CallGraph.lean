import Semalloc.Frontend.MLTA
import Semalloc.Library.Container

/-!
# The global call graph

`CallGraphPass` goes over the modules three times. The first time it fills the tables of the type
analysis and, with the last module, replaces the functions that are only declared by their
definitions. The second time it finds the callees of every call. The third time it would replace
declared functions among the callees; but the count of the modules goes on from the second time, so
that never happens.

## Main definitions

* `CallGraphPass`: the state of the pass
* `doInitialization`, `doModulePass`, `doFinalization`: what it does with a module
* `run`: the pass
-/

set_option autoImplicit false

namespace Semalloc

open MLTA

/-- The state of the pass, and what it leaves in the context. -/
structure CallGraphPass where
  tables : MLTA := {}
  MIdx : ℕ := 0
  CallSet : List Value := []
  Callees : KeyMap Value (List Value) := .empty []
  Callers : List (Value × Value) := []
  IndirectCallInsts : List Value := []

namespace CallGraphPass

variable (p : Program)

/-! ## Collecting -/

/-- The tables for a global variable. -/
def initializeGlobal (s : MLTA) (GV : Value) : MLTA :=
  match p.kind GV with
  | .globalVariable _ (some Ini) =>
    if p.isPointerTy (p.type Ini) || p.isCompositeType (p.type Ini) then
      s.typeConfineInInitializer p Ini
    else s
  | _ => s

/-- Note the signature of a function whose address is taken. -/
def noteSignature (info : FunctionInfo) (F : Value) (s : MLTA) : MLTA :=
  if info.hasAddressTaken then
    { s with sigFuncsMap := s.sigFuncsMap.insert (p.signatureHash info.functionType, F) }
  else s

/-- Note a definition that other modules may refer to. -/
def noteDefinition (info : FunctionInfo) (F : Value) (s : MLTA) : MLTA :=
  if info.hasExternalLinkage then { s with GlobalFuncMap := (info.guid, F) :: s.GlobalFuncMap }
  else s

/-- The tables for a function. -/
def initializeFunction (M : Module) (s : MLTA) (F : Value) : MLTA :=
  match p.asFunction F with
  | none => s
  | some info =>
    let s := noteSignature p info F s
    if info.isDeclaration then s
    else
      let s := s.collectAliasStructPtr p M F info
      let s := s.typeConfineInFunction p info
      let s := s.typePropInFunction p info
      noteDefinition info F s

/-- The definition of a function that is only declared, if there is one. -/
def definition (s : MLTA) (F : Value) : Option Value :=
  match p.asFunction F with
  | some info => if info.isDeclaration then s.GlobalFuncMap.lookup info.guid else some F
  | none => some F

/-- Replace declared functions in a set by their definitions. -/
def mapDeclarations {κ : Type} [DecidableEq κ] (s : MLTA) (table : List (κ × Value)) :
    List (κ × Value) :=
  (table.filterMap fun x => (definition p s x.2).map fun AF => (x.1, AF)).dedup

/-- The tables for a module. -/
def initializeModule (s : MLTA) (M : Module) : MLTA :=
  M.functions.foldl (initializeFunction p M) (M.globals.foldl (initializeGlobal p) s)

def doInitialization (s : CallGraphPass) (M : Module) : CallGraphPass :=
  let MIdx := s.MIdx + 1
  let tables := initializeModule p s.tables M
  if p.modules.length = MIdx then
    { s with
      tables := { tables with
        sigFuncsMap := mapDeclarations p tables tables.sigFuncsMap
        typeIdxFuncsMap := mapDeclarations p tables tables.typeIdxFuncsMap }
      MIdx := 0 }
  else { s with tables, MIdx }

/-! ## Resolving -/

/-- The callee of a direct call: the definition of a declared function, if there is one. -/
def directCallee (s : MLTA) (calledOperand : Value) : Option Value :=
  (p.asFunction calledOperand).map fun CF =>
    if CF.isDeclaration then (s.GlobalFuncMap.lookup CF.guid).getD calledOperand
    else calledOperand

/-- The callees of one instruction. -/
def resolveCall (s : CallGraphPass) (CI : Value) : CallGraphPass :=
  match p.kind CI with
  | .call _ calledOperand functionType =>
    let CallSet := s.CallSet.insert CI
    if p.isIndirectCall calledOperand then
      let found := s.tables.findCalleesWithMLTA p calledOperand functionType
      { s with
        tables := found.2
        CallSet
        Callees := s.Callees.insert CI found.1
        Callers := found.1.map (fun Callee => (Callee, CI)) ∪ s.Callers
        IndirectCallInsts := s.IndirectCallInsts ++ [CI] }
    else
      let CF := (directCallee p s.tables calledOperand).toList
      { s with
        CallSet
        Callees := s.Callees.insert CI (CF ∪ s.Callees.get CI)
        Callers := CF.map (fun CF => (CF, CI)) ∪ s.Callers }
  | _ => s

def doMLTA (s : CallGraphPass) (F : FunctionInfo) : CallGraphPass :=
  F.instructions.foldl (resolveCall p) s

/-- A function that is only declared has no calls. -/
def resolveFunction (s : CallGraphPass) (F : Value) : CallGraphPass :=
  match p.asFunction F with
  | some info => if info.isDeclaration then s else doMLTA p s info
  | none => s

def doModulePass (s : CallGraphPass) (M : Module) : CallGraphPass :=
  M.functions.foldl (resolveFunction p) { s with MIdx := s.MIdx + 1 }

def doFinalization (s : CallGraphPass) (_ : Module) : CallGraphPass :=
  let s := { s with MIdx := s.MIdx + 1 }
  if p.modules.length = s.MIdx then
    s.CallSet.foldl (fun s CI =>
      let FS := ((s.Callees.get CI).filterMap (definition p s.tables)).dedup
      { s with Callees := s.Callees.insert CI FS }) s
  else s

/-- The pass. No module asks to be visited again. -/
def run : CallGraphPass :=
  let s := p.modules.foldl (doInitialization p) {}
  let s := p.modules.foldl (doModulePass p) s
  p.modules.foldl (doFinalization p) s

end CallGraphPass

end Semalloc
