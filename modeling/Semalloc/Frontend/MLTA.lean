import Semalloc.Frontend.TypeLayers
import Semalloc.Library.Worklist

/-!
# Multi-layer type analysis

The analysis notes at which layers each function is kept, from which layers the contents of a layer
are copied, and of which layers it has lost track. The functions an indirect call may call have the
type of the call and are kept at every layer of the called value. They are looked up layer by layer,
and what was found for a layer is kept for the calls that come after.

## Main definitions

* `MLTA`: the tables of the analysis
* `typeConfineInInitializer`, `typeConfineInFunction`, `typePropInFunction`: what it notes
* `getTargetsWithLayerType`, `getDependentTypes`: the functions kept at a layer
* `findCalleesWithMLTA`: the functions a call may call

## Main results

* `mem_getDependentTypes`: the layers whose contents reach a layer
-/

set_option autoImplicit false

namespace Semalloc

namespace MLTA

/-! ## Hashes -/

namespace Program

variable (p : Program)

/-- Take the class off the front of the parameters. -/
def dropClass : List Char → List Char
  | [] => []
  | c :: cs =>
    if "(%class.".toList <+: c :: cs then
      let sub := (c :: cs).drop 8
      let isWord : Char → Bool := fun c => c.isAlphanum || c == '_'
      match sub.takeWhile isWord, sub.dropWhile isWord with
      | _ :: _, '*' :: ',' :: rest => '(' :: rest
      | _ :: _, '*' :: rest => '(' :: rest
      | _, _ => c :: cs
    else c :: dropClass cs

def withoutSpaces (str : List Char) : String := String.ofList (str.filter (· ≠ ' '))

def cleanString (str : String) : String := withoutSpaces (dropClass str.toList)

/-- The hash of a function type: `funcHash` of a function, `callHash` of a call. -/
def signatureHash (FTy : Ty) : Hash := p.str_hash (cleanString (p.print FTy))

def structTyStr (elements : List Ty) : String :=
  String.join (elements.map fun Ty => toString (p.typeID Ty))

/-- The names of the structs with the same kinds of elements, in order. -/
def elementsStructNameMap (str : String) : List String :=
  ((p.modules.flatMap Module.identifiedStructTypes).filterMap fun STy =>
    match p.typeKind STy with
    | .struct name true elements => if p.structTyStr elements = str then name else none
    | _ => none).dedup.insertionSort (· ≤ ·)

def structTypeHash (name : Option String) (elements : List Ty) : List Hash :=
  match name with
  | some name => [p.str_hash name]
  | none => (p.elementsStructNameMap (p.structTyStr elements)).map p.str_hash

def typeHash (Ty : Ty) : Hash :=
  p.str_hash <|
    match p.typeKind Ty with
    | .struct (some name) _ _ => name
    | .struct none _ elements => (p.elementsStructNameMap (p.structTyStr elements)).headD ""
    | .array _ => withoutSpaces (p.print Ty ++ "[array]").toList
    | _ => withoutSpaces (p.print Ty).toList

def hashIdxHash (Hs : Hash) (Idx : ℤ) : Hash := Hs + p.str_hash (toString Idx)

def typeIdxHash (TyIdx : Ty × ℤ) : Hash := p.hashIdxHash (p.typeHash TyIdx.1) TyIdx.2

/-- The place of a layer in the tables. -/
def hashidx (TyIdx : Ty × ℤ) : Hash × ℤ := (p.typeHash TyIdx.1, TyIdx.2)

/-! ## Functions and calls -/

/-- The function behind casts. -/
def getBaseFunction : ℕ → Value → Option Value
  | 0, _ => none
  | fuel + 1, V =>
    match p.kind V with
    | .function info => if info.isIntrinsic then none else some V
    | .bitCast operand => getBaseFunction fuel operand
    | _ => none

def isConstant (V : Value) : Bool :=
  (p.parent V).isNone && match p.kind V with
    | .argument | .inlineAsm => false
    | _ => true

def isIndirectCall (calledOperand : Value) : Bool :=
  ¬ p.isConstant calledOperand && p.kind calledOperand ≠ .inlineAsm

end Program

/-- The operand number is passed as an `int8_t`. -/
def getParamByArgNo (CF : FunctionInfo) (operandNo : ℕ) : Option Value :=
  let ArgNo := Int.bmod operandNo (2 ^ 8)
  if ArgNo < 0 then none else CF.args[ArgNo.toNat]?

end MLTA

/-! ## Tables -/

open MLTA

/-- The tables of the analysis, and those of the context it uses. -/
structure MLTA where
  typeIdxFuncsMap : List ((Hash × ℤ) × Value) := []
  typeIdxPropMap : List ((Hash × ℤ) × (Hash × ℤ)) := []
  typeEscapeSet : List Hash := []
  typeCapSet : List Hash := []
  AliasStructPtrMap : AliasMap := []
  MatchedFuncsMap : List (Hash × List Value) := []
  GlobalFuncMap : List (Hash × Value) := []
  sigFuncsMap : List (Hash × Value) := []

namespace MLTA

/-- The functions that a layer keeps, by its place. -/
def funcsAt (s : MLTA) (place : Hash × ℤ) : List Value :=
  s.typeIdxFuncsMap.filterMap fun x => if x.1 = place then some x.2 else none

def propsAt (s : MLTA) (place : Hash × ℤ) : List (Hash × ℤ) :=
  s.typeIdxPropMap.filterMap fun x => if x.1 = place then some x.2 else none

/-- The functions of a signature. -/
def signatureFuncs (s : MLTA) (h : Hash) : List Value :=
  s.sigFuncsMap.filterMap fun x => if x.1 = h then some x.2 else none

def insertFunc (s : MLTA) (place : Hash × ℤ) (F : Value) : MLTA :=
  { s with typeIdxFuncsMap := s.typeIdxFuncsMap.insert (place, F) }

def insertProp (s : MLTA) (dest source : Hash × ℤ) : MLTA :=
  { s with typeIdxPropMap := s.typeIdxPropMap.insert (dest, source) }

def insertEscape (s : MLTA) (h : Hash) : MLTA :=
  { s with typeEscapeSet := s.typeEscapeSet.insert h }

def insertCap (s : MLTA) (h : Hash) : MLTA := { s with typeCapSet := s.typeCapSet.insert h }

/-! ## What the analysis notes -/

section Notes

variable (p : Program)

/-- One instruction of a function: the struct pointer that the result of a call is cast to. A result
that is cast twice is put aside. -/
def collectCast (M : Module) (F : Value) (x : AliasMap × List Value) (I : Value) :
    AliasMap × List Value :=
  match (p.kind I).isCast, p.operands I with
  | true, FromV :: _ =>
    match p.kind FromV with
    | .call .. =>
      if p.type FromV = M.int8PtrTy ∧
          (p.pointerElementType (p.type I)).any p.isCompositeType = true then
        if (x.1.lookup (F, FromV)).isSome then (x.1, FromV :: x.2)
        else (((F, FromV), I) :: x.1, x.2)
      else x
    | _ => x
  | _, _ => x

def collectAliasStructPtr (M : Module) (F : Value) (info : FunctionInfo) (s : MLTA) : MLTA :=
  let found := info.instructions.foldl (collectCast p M F) (s.AliasStructPtrMap, [])
  { s with AliasStructPtrMap := found.1.filter fun x => ¬ (x.1.1 = F ∧ x.1.2 ∈ found.2) }

/-- The layers of a value. The last one is a cap when they are not complete. -/
def getBaseTypeChain (s : MLTA) (V : Value) : (List (Ty × ℤ) × Bool) × MLTA :=
  let chain := p.getBaseTypeChain s.AliasStructPtrMap V
  (chain, match chain.2, chain.1.getLast? with
    | false, some TyIdx => s.insertCap (p.typeHash TyIdx.1)
    | _, _ => s)

/-- Note that `F` is kept where `V` points to. -/
def confineTargetFunction (V F : Value) (s : MLTA) : MLTA :=
  match p.asFunction F with
  | none => s
  | some info =>
    if info.isIntrinsic then s
    else
      let (chain, s) := s.getBaseTypeChain p V
      let s := chain.1.foldl (fun s TI => s.insertFunc (p.hashidx TI) F) s
      if chain.2 then s
      else
        s.insertCap (match chain.1.getLast? with
          | some TI => p.typeHash TI.1
          | none => p.signatureHash info.functionType)

/-- Note that what is kept at a layer is copied to where `ToV` points to. -/
def propagateType (ToV : Value) (source : Ty × ℤ) (s : MLTA) : MLTA :=
  let (chain, s) := s.getBaseTypeChain p ToV
  chain.1.foldl (fun s T =>
    if p.hashidx T = p.hashidx source then s else s.insertProp (p.hashidx T) (p.hashidx source)) s

/-- Note that the analysis has lost track of what is kept where `V` points to. -/
def escapeType (V : Value) (s : MLTA) : MLTA :=
  let (chain, s) := s.getBaseTypeChain p V
  chain.1.foldl (fun s T => s.insertEscape (p.typeIdxHash T)) s

/-- Where the callee of a direct call keeps the argument. -/
def keepsArgument (s : MLTA) (CF : FunctionInfo) (operandNo : ℕ) : List Value :=
  let CF :=
    if CF.isDeclaration then (s.GlobalFuncMap.lookup CF.guid).bind p.asFunction else some CF
  match CF.bind fun CF => getParamByArgNo CF operandNo with
  | none => []
  | some Arg => (p.users Arg).filter fun U =>
    match p.kind U with
    | .store .. | .bitCast _ => true
    | _ => false

/-- One operand of a call. -/
def confineOperand (calledOperand : Value) (operandNo : ℕ) (O : Value) (s : MLTA) : MLTA :=
  match p.asFunction O with
  | none => s
  | some F =>
    if F.isIntrinsic then s
    else if p.isIndirectCall calledOperand then s.confineTargetFunction p O O
    else
      match p.asFunction calledOperand with
      | none => s
      | some CF =>
        (s.keepsArgument p CF operandNo).foldl (fun s U => s.confineTargetFunction p U O) s

/-- One instruction of a function. -/
def confineInstruction (F : FunctionInfo) (I : Value) (s : MLTA) : MLTA :=
  match p.kind I with
  | .store VO PO =>
    match p.getBaseFunction p.walkFuel (p.stripPointerCasts VO) with
    | none => s
    | some CF => if F.isIntrinsic then s else s.confineTargetFunction p PO CF
  | .call _ calledOperand _ =>
    (p.operands I).zipIdx.foldl (fun s O => s.confineOperand p calledOperand O.2 O.1) s
  | _ => s

def typeConfineInFunction (F : FunctionInfo) (s : MLTA) : MLTA :=
  F.instructions.foldl (fun s I => s.confineInstruction p F I) s

def memcpyName : String := "llvm.memcpy.p0i8.p0i8.i64"

/-- The destination and the source of a store, or of a structure that is copied. -/
def copies (I : Value) : Option (Value × Value) :=
  match p.kind I with
  | .store VO PO => some (PO, VO)
  | .call _ calledOperand _ =>
    match p.asFunction calledOperand, p.operands I with
    | some CF, PO :: VO :: _ => if CF.name = memcpyName then some (PO, VO) else none
    | _, _ => none
  | _ => none

/-- A copy of `VO` to where `PO` points to. -/
def typePropInCopy (PO VO : Value) (s : MLTA) : MLTA :=
  if (p.kind VO).isConstantAggregate || (p.kind VO).isConstantData then s
  else
    match (p.nextLayerBaseType s.AliasStructPtrMap p.walkFuel VO {}).2.TyList with
    | TyIdx :: TyList => (TyIdx :: TyList).foldl (fun s TyIdx => s.propagateType p PO TyIdx) s
    | [] =>
      match (p.getBaseType s.AliasStructPtrMap p.walkFuel VO []).1 with
      | some BTy => s.propagateType p PO (BTy, -1)
      | none =>
        match p.getFuncPtrType (p.stripPointerCasts VO) with
        | some FTy =>
          if (p.getBaseFunction p.walkFuel VO).isNone then s.propagateType p PO (FTy, -1) else s
        | none => if p.isPointerTy (p.type VO) then s.escapeType p PO else s

/-- One instruction of a function. -/
def propInstruction (I : Value) (s : MLTA) : MLTA :=
  match copies p I with
  | some (PO, VO) => s.typePropInCopy p PO VO
  | none => s

def typePropInFunction (F : FunctionInfo) (s : MLTA) : MLTA :=
  F.instructions.foldl (fun s I => s.propInstruction p I) s

/-! ## Initializers -/

/-- The function that an operand of an initializer stands for, behind one cast at most. -/
def foundFunction (O : Value) : Option Value :=
  match p.kind O with
  | .function _ => some O
  | .ptrToInt operand | .bitCast operand =>
    if (p.asFunction operand).isSome ∧ ¬ p.isCompositeType (p.type O) then some operand else none
  | _ => none

/-- What the search through an initializer goes to from one operand. -/
def nextUsers (O : Value) : List Value :=
  if (p.asFunction O).isSome then []
  else if p.isCompositeType (p.type O) then [O]
  else
    match p.kind O with
    | .ptrToInt operand | .bitCast operand =>
      if (p.asFunction operand).isSome then [] else [operand]
    | .nullPointer => []
    | _ => if p.isPointerTy (p.type O) then [O] else []

/-- A struct without elements is passed over. -/
def initUsers (U : Value) : List Value := (p.operands U).flatMap (nextUsers p)

/-- The hashes of the type of a container. -/
def containerHashes (U : Value) : List Hash :=
  match p.typeKind (p.type U) with
  | .struct name _ elements => p.structTypeHash name elements
  | _ => [p.typeHash (p.type U)]

/-- The containers of the operands: the value each is an operand of, and its number there. -/
abbrev Containers := List (Value × Value × ℕ)

/-- Note that `F` is kept in the containers of `CV`, from the inside out. -/
def confineContainers (F : Value) (ContainersMap : Containers) :
    ℕ → Value → List Value → MLTA → MLTA
  | 0, _, _, s => s
  | fuel + 1, CV, Visited, s =>
    match ContainersMap.lookup CV with
    | none => s
    | some (U, i) =>
      let s := (containerHashes p U).foldl (fun s TyH => s.insertFunc (TyH, i) F) s
      let Visited := CV :: Visited
      if U ∈ Visited then s else confineContainers F ContainersMap fuel U Visited s

/-- A pointer to a struct in another global is a cap. -/
def capGlobal (O : Value) (s : MLTA) : MLTA :=
  match p.kind O, p.pointerElementType (p.type O) with
  | .globalVariable .., some Ty =>
    match p.typeKind Ty with
    | .struct .. => s.insertCap (p.typeHash Ty)
    | _ => s
  | _, _ => s

/-- One operand of a container. -/
def visitOperand (U : Value) (x : Containers × MLTA) (O : Value × ℕ) : Containers × MLTA :=
  let ContainersMap := (O.1, U, O.2) :: x.1
  let s := capGlobal p O.1 x.2
  match foundFunction p O.1 with
  | some F =>
    if (p.asFunction F).any FunctionInfo.isIntrinsic then (ContainersMap, s)
    else (ContainersMap, confineContainers p F ContainersMap (ContainersMap.length + 1) O.1 [] s)
  | none => (ContainersMap, s)

def visitUser (x : Containers × MLTA) (U : Value) : Containers × MLTA :=
  (p.operands U).zipIdx.foldl (visitOperand p U) x

/-- Note which functions the initializer of a global keeps, at every layer. -/
def typeConfineInInitializer (Ini : Value) (s : MLTA) : MLTA :=
  if (p.kind Ini).isConstantAggregate then
    (Worklist.loop (initUsers p) (visitUser p)
      (Worklist.steps (initUsers p) (Ini :: (List.range p.values.length).flatMap (initUsers p)))
      [Ini] [] ([], s)).2
  else s

end Notes

/-! ## What a layer keeps -/

/-- `FS` is the set from before when all fields are asked for. -/
def getTargetsWithLayerType (s : MLTA) (place : Hash × ℤ) (FS : List Value) : List Value :=
  if place.2 = -1 then
    (s.typeIdxFuncsMap.filterMap fun x => if x.1.1 = place.1 then some x.2 else none) ∪ FS
  else s.funcsAt (place.1, -1) ∪ s.funcsAt place

/-- The layers whose contents are copied to a layer, or to all fields of its type. -/
def dependsOn (s : MLTA) (place : Hash × ℤ) : List (Hash × ℤ) :=
  s.propsAt place ++ s.propsAt (place.1, -1)

/-- The order of the set. -/
def PlaceLe (a b : Hash × ℤ) : Prop := a.1 < b.1 ∨ a.1 = b.1 ∧ a.2 ≤ b.2

instance (a b : Hash × ℤ) : Decidable (PlaceLe a b) := inferInstanceAs (Decidable (_ ∨ _))

/-- The layers whose contents reach a layer. -/
def getDependentTypes (s : MLTA) (place : Hash × ℤ) : List (Hash × ℤ) :=
  (Worklist.loop s.dependsOn (fun PropSet TI => s.dependsOn TI ∪ PropSet)
    (Worklist.steps s.dependsOn (place :: s.typeIdxPropMap.map Prod.snd)) [place] []
    []).insertionSort PlaceLe

def maxTypeLayer : ℕ := 10

/-! ## Resolving a call -/

/-- The variables of `findCalleesWithMLTA`. -/
structure Resolving where
  FS : List Value
  FS1 : List Value := []
  FS2 : List Value := []
  PrevLayerTy : Ty
  CV : Option Value
  LayerNo : ℕ := 1
  ContinueNextLayer : Bool := true

section Calls

variable (p : Program)

/-- Collect the functions that the layer keeps, unless they were found before; an escaped layer
gives nothing. -/
def collectTargets (TyIdx : Ty × ℤ) (x : Resolving × MLTA) : Option (Resolving × MLTA) :=
  match x.2.MatchedFuncsMap.lookup (p.typeIdxHash TyIdx) with
  | some FS => some ({ x.1 with FS1 := FS }, x.2)
  | none =>
    if p.typeIdxHash TyIdx ∈ x.2.typeEscapeSet then none
    else if p.typeIdxHash (TyIdx.1, -1) ∈ x.2.typeEscapeSet then none
    else
      let FS1 := x.2.getTargetsWithLayerType (p.hashidx TyIdx) x.1.FS1
      let found := (x.2.getDependentTypes (p.hashidx TyIdx)).foldl (fun y place =>
        let FS2 := x.2.getTargetsWithLayerType place y.2
        (FS2 ∪ y.1, FS2)) (FS1, x.1.FS2)
      some ({ x.1 with FS1 := found.1, FS2 := found.2 },
        { x.2 with MatchedFuncsMap := (p.typeIdxHash TyIdx, found.1) :: x.2.MatchedFuncsMap })

/-- Go through the layers that one walk has found. -/
def resolveLayers (NextV : Option Value) : List (Ty × ℤ) → Resolving × MLTA → Resolving × MLTA
  | [], x => x
  | TyIdx :: TyList, x =>
    if maxTypeLayer ≤ x.1.LayerNo then x
    else
      let y := ({ x.1 with LayerNo := x.1.LayerNo + 1 }, x.2)
      match collectTargets p TyIdx y with
      | none => y
      | some (t, s) =>
        let FS := t.FS1.filter (· ∈ t.FS)
        let t := { t with FS := FS, FS2 := FS, CV := NextV }
        if p.typeHash TyIdx.1 ∈ s.typeCapSet then ({ t with ContinueNextLayer := false }, s)
        else resolveLayers NextV TyList ({ t with PrevLayerTy := TyIdx.1 }, s)

/-- The walk from the called value to the next layers. -/
def nextLayers (A : AliasMap) : Option Value → List (Ty × ℤ) × Option Value
  | none => ([], none)
  | some CV =>
    let w := (p.nextLayerBaseType A p.walkFuel CV {}).2
    (w.TyList, w.NextV)

/-- The loop over the layers. -/
def resolveLoop : ℕ → Resolving × MLTA → Resolving × MLTA
  | 0, x => x
  | fuel + 1, x =>
    if x.1.ContinueNextLayer = false ∨ maxTypeLayer ≤ x.1.LayerNo ∨
        p.typeHash x.1.PrevLayerTy ∈ x.2.typeCapSet then x
    else
      let next := nextLayers p x.2.AliasStructPtrMap x.1.CV
      if next.1.isEmpty then x
      else resolveLoop fuel (resolveLayers p next.2 next.1 x)

/-- The functions that an indirect call may call. -/
def findCalleesWithMLTA (calledOperand : Value) (functionType : Ty) (s : MLTA) :
    List Value × MLTA :=
  let FS := s.signatureFuncs (p.signatureHash functionType)
  if FS.isEmpty then ([], s)
  else
    let x := resolveLoop p maxTypeLayer
      ({ FS, PrevLayerTy := functionType, CV := some calledOperand }, s)
    (x.1.FS, x.2)

end Calls

/-! ## The layers behind a layer -/

section Dependence

variable {s : MLTA} {place q : Hash × ℤ} {F : Value} {FS : List Value}

theorem mem_propsAt : q ∈ s.propsAt place ↔ (place, q) ∈ s.typeIdxPropMap := by
  simp [propsAt]

theorem mem_funcsAt : F ∈ s.funcsAt place ↔ (place, F) ∈ s.typeIdxFuncsMap := by
  simp [funcsAt]

theorem mem_dependsOn :
    q ∈ s.dependsOn place ↔ (place, q) ∈ s.typeIdxPropMap ∨ ((place.1, -1), q) ∈ s.typeIdxPropMap := by
  simp [dependsOn, mem_propsAt]

/-- A function that a layer keeps, in its field or in a field that is not known. -/
def KeptAt (s : MLTA) (place : Hash × ℤ) (F : Value) : Prop :=
  ∃ i, ((place.1, i), F) ∈ s.typeIdxFuncsMap ∧ (place.2 = -1 ∨ i = place.2 ∨ i = -1)

/-- What the layer keeps is found, whatever was in the set before. -/
theorem KeptAt.mem_getTargets (h : s.KeptAt place F) : F ∈ s.getTargetsWithLayerType place FS := by
  obtain ⟨i, hmem, hi⟩ := h
  unfold getTargetsWithLayerType
  split
  · refine List.mem_union_iff.mpr (.inl (List.mem_filterMap.mpr ⟨_, hmem, ?_⟩))
    simp
  · rename_i hfield
    rcases hi.resolve_left hfield with rfl | rfl
    · exact List.mem_union_iff.mpr (.inr (mem_funcsAt.mpr hmem))
    · exact List.mem_union_iff.mpr (.inl (mem_funcsAt.mpr hmem))

/-- The contents of `q` reach `place`. -/
def DependsOn (s : MLTA) (place q : Hash × ℤ) : Prop := q ∈ s.dependsOn place

theorem mem_foldl_dependsOn {order PropSet : List (Hash × ℤ)} :
    q ∈ order.foldl (fun PropSet TI => s.dependsOn TI ∪ PropSet) PropSet ↔
      q ∈ PropSet ∨ ∃ TI ∈ order, s.DependsOn TI q := by
  induction order generalizing PropSet with
  | nil => simp
  | cons TI order ih =>
    rw [List.foldl_cons, ih, List.mem_union_iff]
    simp only [List.mem_cons, exists_eq_or_imp, DependsOn]
    tauto

/-- **The layers that a layer depends on** are those whose contents reach it in one or more
copies. -/
theorem mem_getDependentTypes :
    q ∈ s.getDependentTypes place ↔ Relation.TransGen s.DependsOn place q := by
  have hclosed : ∀ u ∈ place :: s.typeIdxPropMap.map Prod.snd, ∀ v ∈ s.dependsOn u,
      v ∈ place :: s.typeIdxPropMap.map Prod.snd := by
    intro u _ v hv
    refine List.mem_cons_of_mem _ (List.mem_map.mpr ?_)
    rcases mem_dependsOn.mp hv with hv | hv
    · exact ⟨_, hv, rfl⟩
    · exact ⟨_, hv, rfl⟩
  unfold getDependentTypes
  rw [List.mem_insertionSort, Worklist.loop_eq, mem_foldl_dependsOn]
  constructor
  · rintro (hnil | ⟨TI, hTI, hq⟩)
    · exact absurd hnil List.not_mem_nil
    · exact Relation.TransGen.tail' ((Worklist.mem_order List.mem_cons_self hclosed).mp hTI) hq
  · intro h
    obtain ⟨TI, hTI, hq⟩ := Relation.TransGen.tail'_iff.mp h
    exact .inr ⟨TI, (Worklist.mem_order List.mem_cons_self hclosed).mpr hTI, hq⟩

end Dependence

end MLTA

end Semalloc
