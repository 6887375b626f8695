import Mathlib.Data.List.Dedup
import Mathlib.Data.BitVec
import Mathlib.Tactic

/-!
# Type layers

The multi-layer type analysis looks at a function pointer through the memory it was loaded from: the
field it is kept in, the field of the structure around that one, and so on. A layer is a type and the
index of a field; the layers of a value are found by walking from the value to what it was made of.

The types and the values of a program stand in tables. A walk notes the values it has passed, so it
ends although values may be made of each other in a cycle.

## Main definitions

* `Program`: the types, the values and the modules
* `getGEPLayerTypes`: the layers of an address computation
* `nextLayerBaseType`: the walk to the next layers
* `getBaseType`: the type at the current layer
* `getBaseTypeChain`: all layers of a value

## Main results

* `nextLayerBaseType_fuel`, `getBaseType_fuel`, `walkChain_fuel`: one walk ends
* `walks_end`: as many steps as there are values are enough for all
-/

set_option autoImplicit false

namespace Semalloc

namespace MLTA

/-! ## Programs -/

abbrev Hash := BitVec 64

/-- A type, by its place among the types. -/
abbrev Ty := ℕ

/-- A value, by its place among the values. -/
abbrev Value := ℕ

inductive TypeKind
  | struct (name : Option String) (hasBody : Bool) (elements : List Ty)
  | array (element : Ty)
  | vector (element : Ty)
  | pointer (element : Ty)
  | function
  | other
  deriving DecidableEq

structure FunctionInfo where
  name : String
  functionType : Ty
  guid : Hash
  isDeclaration : Bool
  isIntrinsic : Bool
  hasAddressTaken : Bool
  hasExternalLinkage : Bool
  args : List Value
  instructions : List Value
  deriving DecidableEq

/-- What a value is made of. The addresses and casts are instructions or constants. -/
inductive ValueKind
  | argument
  | function (info : FunctionInfo)
  | globalVariable (name : String) (initializer : Option Value)
  | gep (pointer : Value) (sourceElementType : Ty) (indices : List Value)
  | bitCast (operand : Value)
  | ptrToInt (operand : Value)
  | cast (operand : Value)
  | load (pointer : Value)
  | store (value pointer : Value)
  | phi (incoming : List Value)
  | select (condition trueValue falseValue : Value)
  | unary (operand : Value)
  | call (args : List Value) (calledOperand : Value) (functionType : Ty)
  | aggregate (operands : List Value)
  | nullPointer
  | constantInt (value : ℤ)
  | data
  | inlineAsm
  | other (operands : List Value)
  deriving DecidableEq

/-- A value; an instruction has the function it is in. -/
structure ValueInfo where
  kind : ValueKind
  type : Ty
  parent : Option Value
  deriving DecidableEq

structure Module where
  globals : List Value
  functions : List Value
  int8PtrTy : Ty
  identifiedStructTypes : List Ty
  deriving DecidableEq

/-- The modules with their types and values, and what the compiler and its library say of them. -/
structure Program where
  typeKind : Ty → TypeKind
  print : Ty → String
  typeID : Ty → ℕ
  values : List ValueInfo
  modules : List Module
  str_hash : String → Hash
  stripPointerCasts : Value → Value
  getGEPIndicesForOffset : Ty → ℤ → List ℤ

/-- The struct pointer that the result of a call is cast to, for each function. -/
abbrev AliasMap := List ((Value × Value) × Value)

namespace ValueKind

def operands : ValueKind → List Value
  | globalVariable _ initializer => initializer.toList
  | gep pointer _ indices => pointer :: indices
  | bitCast operand | ptrToInt operand | cast operand | unary operand => [operand]
  | load pointer => [pointer]
  | store value pointer => [value, pointer]
  | phi incoming => incoming
  | select condition trueValue falseValue => [condition, trueValue, falseValue]
  | call args calledOperand _ => args ++ [calledOperand]
  | aggregate operands | other operands => operands
  | argument | function _ | nullPointer | constantInt _ | data | inlineAsm => []

def isCast : ValueKind → Bool
  | bitCast _ | ptrToInt _ | cast _ => true
  | _ => false

def isConstantAggregate : ValueKind → Bool
  | aggregate _ => true
  | _ => false

def isConstantData : ValueKind → Bool
  | nullPointer | constantInt _ | data => true
  | _ => false

end ValueKind

namespace Program

variable (p : Program)

def kind (v : Value) : ValueKind := p.values[v]?.elim (.other []) ValueInfo.kind

def type (v : Value) : Ty := p.values[v]?.elim 0 ValueInfo.type

def parent (v : Value) : Option Value := p.values[v]?.bind ValueInfo.parent

def operands (v : Value) : List Value := (p.kind v).operands

def users (v : Value) : List Value := (List.range p.values.length).filter fun u => v ∈ p.operands u

def pointerElementType (Ty : Ty) : Option MLTA.Ty :=
  match p.typeKind Ty with
  | .pointer element => some element
  | _ => none

def isPointerTy (Ty : Ty) : Bool := (p.pointerElementType Ty).isSome

def isCompositeType (Ty : Ty) : Bool :=
  match p.typeKind Ty with
  | .struct .. | .array _ | .vector _ => true
  | _ => false

def getFuncPtrType (v : Value) : Option Ty :=
  (p.pointerElementType (p.type v)).filter fun ETy => p.typeKind ETy = .function

/-- The function that a value is. -/
def asFunction (v : Value) : Option FunctionInfo :=
  match p.kind v with
  | .function info => some info
  | _ => none

/-- The struct pointer that the result of a call is known as. -/
def recoverBaseType (A : AliasMap) (v : Value) : Option Value :=
  (p.parent v).bind fun F => A.lookup (F, v)

/-! ## Layers of an address -/

/-- A 64-bit constant kept as an `int`. -/
def toInt (n : ℤ) : ℤ := Int.bmod n (2 ^ 32)

/-- The constant index, and `-1` for an index that is not constant. -/
def indexOf (v : Value) : ℤ :=
  match p.kind v with
  | .constantInt n => toInt n
  | _ => -1

/-- The type that a field index selects. -/
def elementType (ETy : Ty) (Idx : ℤ) : Option Ty :=
  match p.typeKind ETy with
  | .struct _ _ elements => if 0 ≤ Idx then elements[Idx.toNat]? else none
  | .array element | .vector element => some element
  | _ => none

/-- The casts of an address to a pointer to the first field. -/
def firstFieldCasts (GEP : Value) (Ty0 : Ty) : List Value :=
  (p.users GEP).filter fun U =>
    match p.kind U with
    | .bitCast _ => p.pointerElementType (p.type U) = some Ty0
    | _ => false

def hasBitCast (GEP : Value) : Bool :=
  (p.users GEP).any fun U =>
    match p.kind U with
    | .bitCast _ => true
    | _ => false

/-- Go through the types that the indices select, the innermost layer first. -/
def indexLayers (ETy : Ty) (Indices : List ℤ) : List (Ty × ℤ) × Ty :=
  Indices.foldl (fun x Idx => ((x.2, Idx) :: x.1, (p.elementType x.2 Idx).getD x.2)) ([], ETy)

/-- The layers of an address whose first index is `Indices.head`. -/
def layersOfIndices (GEP : Value) (ETy : Ty) (Indices : List ℤ) : List (Ty × ℤ) :=
  let x := p.indexLayers ETy Indices.tail
  match p.typeKind x.2 with
  | .struct _ _ (Ty0 :: _) => (p.firstFieldCasts GEP Ty0).map (fun _ => (x.2, 0)) ++ x.1
  | _ => x.1

/-- The layers that an address adds. The source says whether there are any. -/
def getGEPLayerTypes (A : AliasMap) (GEP pointer : Value) (ETy : Ty) (indices : List Value) :
    List (Ty × ℤ) :=
  let own := indices.map p.indexOf
  match indices.head?.map p.kind with
  | some (.constantInt n) =>
    if n = 0 then p.layersOfIndices GEP ETy own
    else
      match p.recoverBaseType A pointer with
      | some BV =>
        let BaseTy := (p.pointerElementType (p.type BV)).getD ETy
        let IndiceV := p.getGEPIndicesForOffset BaseTy n
        p.layersOfIndices GEP BaseTy (if IndiceV.isEmpty then own else IndiceV.map toInt)
      | none =>
        match p.typeKind ETy with
        | .struct .. => if p.hasBitCast GEP then [] else p.layersOfIndices GEP ETy own
        | _ => p.layersOfIndices GEP ETy own
  | _ => p.layersOfIndices GEP ETy own

/-! ## Walks -/

/-- The references that a walk to the next layer changes. -/
structure Walk where
  TyList : List (Ty × ℤ) := []
  NextV : Option Value := none
  Visited : List Value := []
  deriving DecidableEq

/-- Walk to the next layers, and say whether there are any. -/
def nextLayerBaseType (A : AliasMap) : ℕ → Value → Walk → Bool × Walk
  | 0, _, w => (false, w)
  | fuel + 1, V, w =>
    if p.kind V = .argument ∨ V ∈ w.Visited then (false, { w with NextV := some V })
    else
      let w := { w with Visited := V :: w.Visited }
      match p.kind V with
      | .gep pointer ETy indices =>
        let layers := p.getGEPLayerTypes A V pointer ETy indices
        (¬ layers.isEmpty, { w with
          TyList := w.TyList ++ layers
          NextV := if layers.isEmpty then none else some pointer })
      | .load operand | .bitCast operand | .select _ operand _ | .unary operand =>
        nextLayerBaseType A fuel operand { w with NextV := some operand }
      | .phi incoming =>
        incoming.foldl (fun x IV =>
          let ret := nextLayerBaseType A fuel IV { x.2 with NextV := some IV }
          (x.1 || ret.1, ret.2)) (false, w)
      | _ => (false, { w with NextV := none })

/-- The composite type that a value has or points to. -/
def ownBaseType (A : AliasMap) (V : Value) : Option Ty :=
  if p.isCompositeType (p.type V) then some (p.type V)
  else
    match p.pointerElementType (p.type V) with
    | some ETy =>
      if p.isCompositeType ETy then some ETy
      else (p.recoverBaseType A V).bind fun BV => p.pointerElementType (p.type BV)
    | none => none

/-- The composite type at the current layer, and the values that were passed. -/
def getBaseType (A : AliasMap) : ℕ → Value → List Value → Option Ty × List Value
  | 0, _, Visited => (none, Visited)
  | fuel + 1, V, Visited =>
    if V ∈ Visited then (none, Visited)
    else
      let Visited := V :: Visited
      match p.ownBaseType A V with
      | some Ty => (some Ty, Visited)
      | none =>
        match p.kind V with
        | .bitCast operand | .select _ operand _ | .load operand =>
          getBaseType A fuel operand Visited
        | .phi incoming =>
          incoming.foldl (fun x IV => if x.1.isSome then x else getBaseType A fuel IV x.2)
            (none, Visited)
        | _ => (none, Visited)

/-- Steps that are enough for every walk. -/
def walkFuel : ℕ := p.values.length + 1

/-- Walk from layer to layer. -/
def walkChain (A : AliasMap) : ℕ → Option Value → Walk → Walk
  | 0, _, w => w
  | _ + 1, none, w => { w with NextV := none }
  | fuel + 1, some CV, w =>
    let ret := p.nextLayerBaseType A p.walkFuel CV w
    if ret.1 then walkChain A fuel ret.2.NextV ret.2 else ret.2

/-- Nothing else is known to be stored where the walk ended. -/
def isComplete (NextV : Option Value) : Bool :=
  match NextV with
  | none => false
  | some V =>
    if p.kind V = .argument ∧ p.isPointerTy (p.type V) then false
    else
      (p.users V).all fun U =>
        match p.kind U with
        | .store _ pointer => V ≠ pointer
        | _ => true

/-- All layers of a value from the inside out, and whether they are complete. -/
def getBaseTypeChain (A : AliasMap) (V : Value) : List (Ty × ℤ) × Bool :=
  let BTy := (p.getBaseType A p.walkFuel V []).1
  let w := p.walkChain A p.walkFuel (some V) {}
  (BTy.toList.map (fun Ty => (Ty, 0)) ++ w.TyList, p.isComplete w.NextV)

/-! ## Walks end -/

section Fuel

variable {p} {A : AliasMap} {fuel fuel' : ℕ} {V : Value} {w : Walk} {Visited Visited' : List Value}

/-- The values of the program that a walk has not passed. -/
def unvisited (p : Program) (Visited : List Value) : ℕ :=
  ((List.range p.values.length).filter (· ∉ Visited)).length

theorem unvisited_anti (h : Visited ⊆ Visited') : p.unvisited Visited' ≤ p.unvisited Visited := by
  refine (List.monotone_filter_right _ fun v hv => ?_).length_le
  simp only [decide_eq_true_eq] at hv ⊢
  exact fun hmem => hv (h hmem)

theorem unvisited_cons (hlt : V < p.values.length) (hV : V ∉ Visited) :
    p.unvisited (V :: Visited) < p.unvisited Visited := by
  unfold unvisited
  have hsub : ((List.range p.values.length).filter (· ∉ V :: Visited)).Sublist
      ((List.range p.values.length).filter (· ∉ Visited)) := by
    refine List.monotone_filter_right _ fun v hv => ?_
    simp only [decide_eq_true_eq, List.mem_cons, not_or] at hv ⊢
    exact hv.2
  refine lt_of_le_of_ne hsub.length_le fun heq => ?_
  -- the value that is passed is in the second list only
  have hmem : V ∈ (List.range p.values.length).filter (· ∉ Visited) := by
    simp [hlt, hV]
  rw [← hsub.eq_of_length heq] at hmem
  simp at hmem

theorem unvisited_lt_walkFuel : p.unvisited Visited < p.walkFuel := by
  have hle := List.length_filter_le (· ∉ Visited) (List.range p.values.length)
  rw [List.length_range] at hle
  exact Nat.lt_succ_of_le hle

/-- Only the values of the table are made of something. -/
theorem lt_of_kind (h : p.kind V ≠ .other []) : V < p.values.length := by
  by_contra hlt
  exact h (by simp [kind, List.getElem?_eq_none (not_lt.mp hlt)])

theorem foldl_visited {ls : List Value}
    (ih : ∀ V w, w.Visited ⊆ (p.nextLayerBaseType A fuel V w).2.Visited) (x : Bool × Walk) :
    x.2.Visited ⊆ (ls.foldl (fun x IV =>
      (x.1 || (p.nextLayerBaseType A fuel IV { x.2 with NextV := some IV }).1,
        (p.nextLayerBaseType A fuel IV { x.2 with NextV := some IV }).2)) x).2.Visited := by
  induction ls generalizing x with
  | nil => exact List.Subset.refl _
  | cons IV ls ihls =>
    have hfirst := ih IV { x.2 with NextV := some IV }
    exact fun v hv => ihls _ (hfirst hv)

theorem nextLayerBaseType_visited :
    w.Visited ⊆ (p.nextLayerBaseType A fuel V w).2.Visited := by
  induction fuel generalizing V w with
  | zero => exact List.Subset.refl _
  | succ fuel ih =>
    unfold nextLayerBaseType
    split
    · exact List.Subset.refl _
    · dsimp only
      split
      · exact List.subset_cons_self _ _
      · exact fun v hv => ih (List.mem_cons_of_mem _ hv)
      · exact fun v hv => ih (List.mem_cons_of_mem _ hv)
      · exact fun v hv => ih (List.mem_cons_of_mem _ hv)
      · exact fun v hv => ih (List.mem_cons_of_mem _ hv)
      · exact fun v hv => foldl_visited (fun _ _ => ih) _ (List.mem_cons_of_mem _ hv)
      · exact List.subset_cons_self _ _

/-- Where there are next layers the walk has passed a value more. -/
theorem unvisited_nextLayerBaseType (h : (p.nextLayerBaseType A fuel V w).1 = true) :
    p.unvisited (p.nextLayerBaseType A fuel V w).2.Visited < p.unvisited w.Visited := by
  cases fuel with
  | zero => cases h
  | succ fuel =>
    unfold nextLayerBaseType at h ⊢
    split at h
    · cases h
    · rename_i hnew
      have hV : V ∉ w.Visited := fun hmem => hnew (.inr hmem)
      have hpassed : ∀ {Visited'}, p.kind V ≠ .other [] → V :: w.Visited ⊆ Visited' →
          p.unvisited Visited' < p.unvisited w.Visited := fun hkind hsub =>
        lt_of_le_of_lt (unvisited_anti hsub) (unvisited_cons (lt_of_kind hkind) hV)
      rw [if_neg hnew]
      dsimp only at h ⊢
      split at h
      · rename_i hkind
        exact hpassed (by simp [hkind]) (List.Subset.refl _)
      · rename_i hkind
        exact hpassed (by simp [hkind]) fun v hv => nextLayerBaseType_visited hv
      · rename_i hkind
        exact hpassed (by simp [hkind]) fun v hv => nextLayerBaseType_visited hv
      · rename_i hkind
        exact hpassed (by simp [hkind]) fun v hv => nextLayerBaseType_visited hv
      · rename_i hkind
        exact hpassed (by simp [hkind]) fun v hv => nextLayerBaseType_visited hv
      · rename_i hkind
        exact hpassed (by simp [hkind]) fun v hv =>
          foldl_visited (fun _ _ => nextLayerBaseType_visited) _ hv
      · cases h

/-- The incoming values are walked to one after the other, and each leaves no more unvisited. -/
theorem foldl_fuel {ls : List Value}
    (ih : ∀ V w, p.unvisited w.Visited < fuel → p.unvisited w.Visited < fuel' →
      p.nextLayerBaseType A fuel V w = p.nextLayerBaseType A fuel' V w) (x : Bool × Walk)
    (h : p.unvisited x.2.Visited < fuel) (h' : p.unvisited x.2.Visited < fuel') :
    ls.foldl (fun x IV =>
      (x.1 || (p.nextLayerBaseType A fuel IV { x.2 with NextV := some IV }).1,
        (p.nextLayerBaseType A fuel IV { x.2 with NextV := some IV }).2)) x =
    ls.foldl (fun x IV =>
      (x.1 || (p.nextLayerBaseType A fuel' IV { x.2 with NextV := some IV }).1,
        (p.nextLayerBaseType A fuel' IV { x.2 with NextV := some IV }).2)) x := by
  induction ls generalizing x with
  | nil => rfl
  | cons IV ls ihls =>
    have hfirst := ih IV { x.2 with NextV := some IV } h h'
    have hle : p.unvisited (p.nextLayerBaseType A fuel' IV { x.2 with NextV := some IV }).2.Visited ≤
        p.unvisited x.2.Visited :=
      unvisited_anti (nextLayerBaseType_visited (w := { x.2 with NextV := some IV }))
    rw [List.foldl_cons, List.foldl_cons, hfirst]
    exact ihls _ (lt_of_le_of_lt hle h) (lt_of_le_of_lt hle h')

/-- **A walk to the next layer ends**: with more steps than there are values left it does not
depend on their number. -/
theorem nextLayerBaseType_fuel (h : p.unvisited w.Visited < fuel)
    (h' : p.unvisited w.Visited < fuel') :
    p.nextLayerBaseType A fuel V w = p.nextLayerBaseType A fuel' V w := by
  induction fuel generalizing fuel' V w with
  | zero => exact absurd h (Nat.not_lt_zero _)
  | succ fuel ih =>
    cases fuel' with
    | zero => exact absurd h' (Nat.not_lt_zero _)
    | succ fuel' =>
      unfold nextLayerBaseType
      split
      · rfl
      · rename_i hnew
        have hV : V ∉ w.Visited := fun hmem => hnew (.inr hmem)
        -- one value less is left where the walk goes on
        have hless : p.kind V ≠ .other [] → p.unvisited (V :: w.Visited) < fuel ∧
            p.unvisited (V :: w.Visited) < fuel' := by
          intro hkind
          have hlt := unvisited_cons (lt_of_kind hkind) hV
          exact ⟨by omega, by omega⟩
        dsimp only
        split
        · rfl
        · rename_i operand hkind
          obtain ⟨hl, hl'⟩ := hless (by simp [hkind])
          exact ih hl hl'
        · rename_i operand hkind
          obtain ⟨hl, hl'⟩ := hless (by simp [hkind])
          exact ih hl hl'
        · rename_i operand _ hkind
          obtain ⟨hl, hl'⟩ := hless (by simp [hkind])
          exact ih hl hl'
        · rename_i operand hkind
          obtain ⟨hl, hl'⟩ := hless (by simp [hkind])
          exact ih hl hl'
        · rename_i incoming hkind
          obtain ⟨hl, hl'⟩ := hless (by simp [hkind])
          exact foldl_fuel (fun V w => @ih fuel' V w) _ hl hl'
        · rfl

/-- **The walk from layer to layer ends.** -/
theorem walkChain_fuel {CV : Option Value} (h : p.unvisited w.Visited < fuel)
    (h' : p.unvisited w.Visited < fuel') : p.walkChain A fuel CV w = p.walkChain A fuel' CV w := by
  induction fuel generalizing fuel' CV w with
  | zero => exact absurd h (Nat.not_lt_zero _)
  | succ fuel ih =>
    cases fuel' with
    | zero => exact absurd h' (Nat.not_lt_zero _)
    | succ fuel' =>
      cases CV with
      | none => rfl
      | some CV =>
        unfold walkChain
        dsimp only
        split
        · rename_i hret
          have hlt := unvisited_nextLayerBaseType hret
          exact ih (by omega) (by omega)
        · rfl

theorem getBaseType_foldl_visited {ls : List Value}
    (ih : ∀ V Visited, Visited ⊆ (p.getBaseType A fuel V Visited).2)
    (x : Option Ty × List Value) :
    x.2 ⊆ (ls.foldl (fun x IV =>
      if x.1.isSome then x else p.getBaseType A fuel IV x.2) x).2 := by
  induction ls generalizing x with
  | nil => exact List.Subset.refl _
  | cons IV ls ihls =>
    rw [List.foldl_cons]
    refine fun v hv => ihls _ ?_
    split
    · exact hv
    · exact ih IV x.2 hv

theorem getBaseType_visited : Visited ⊆ (p.getBaseType A fuel V Visited).2 := by
  induction fuel generalizing V Visited with
  | zero => exact List.Subset.refl _
  | succ fuel ih =>
    unfold getBaseType
    split
    · exact List.Subset.refl _
    · dsimp only
      split
      · exact List.subset_cons_self _ _
      · split
        · exact fun v hv => ih (List.mem_cons_of_mem _ hv)
        · exact fun v hv => ih (List.mem_cons_of_mem _ hv)
        · exact fun v hv => ih (List.mem_cons_of_mem _ hv)
        · exact fun v hv =>
            getBaseType_foldl_visited (fun _ _ => ih) _ (List.mem_cons_of_mem _ hv)
        · exact List.subset_cons_self _ _

theorem getBaseType_foldl_fuel {ls : List Value}
    (ih : ∀ V Visited, p.unvisited Visited < fuel → p.unvisited Visited < fuel' →
      p.getBaseType A fuel V Visited = p.getBaseType A fuel' V Visited)
    (x : Option Ty × List Value) (h : p.unvisited x.2 < fuel) (h' : p.unvisited x.2 < fuel') :
    ls.foldl (fun x IV => if x.1.isSome then x else p.getBaseType A fuel IV x.2) x =
      ls.foldl (fun x IV => if x.1.isSome then x else p.getBaseType A fuel' IV x.2) x := by
  induction ls generalizing x with
  | nil => rfl
  | cons IV ls ihls =>
    rw [List.foldl_cons, List.foldl_cons, ih IV x.2 h h']
    have hle : p.unvisited (if x.1.isSome then x else p.getBaseType A fuel' IV x.2).2 ≤
        p.unvisited x.2 := by
      split
      · exact le_refl _
      · exact unvisited_anti getBaseType_visited
    exact ihls _ (lt_of_le_of_lt hle h) (lt_of_le_of_lt hle h')

/-- **The search for the type at the current layer ends.** -/
theorem getBaseType_fuel (h : p.unvisited Visited < fuel) (h' : p.unvisited Visited < fuel') :
    p.getBaseType A fuel V Visited = p.getBaseType A fuel' V Visited := by
  induction fuel generalizing fuel' V Visited with
  | zero => exact absurd h (Nat.not_lt_zero _)
  | succ fuel ih =>
    cases fuel' with
    | zero => exact absurd h' (Nat.not_lt_zero _)
    | succ fuel' =>
      unfold getBaseType
      split
      · rfl
      · rename_i hV
        have hless : p.kind V ≠ .other [] → p.unvisited (V :: Visited) < fuel ∧
            p.unvisited (V :: Visited) < fuel' := by
          intro hkind
          have hlt := unvisited_cons (lt_of_kind hkind) hV
          exact ⟨by omega, by omega⟩
        dsimp only
        split
        · rfl
        · split
          · rename_i operand hkind
            obtain ⟨hl, hl'⟩ := hless (by simp [hkind])
            exact ih hl hl'
          · rename_i operand _ hkind
            obtain ⟨hl, hl'⟩ := hless (by simp [hkind])
            exact ih hl hl'
          · rename_i operand hkind
            obtain ⟨hl, hl'⟩ := hless (by simp [hkind])
            exact ih hl hl'
          · rename_i incoming hkind
            obtain ⟨hl, hl'⟩ := hless (by simp [hkind])
            exact getBaseType_foldl_fuel (fun V Visited => @ih fuel' V Visited) _ hl hl'
          · rfl

/-- **The walks end**, also where values are made of each other: a step for each value and one more
are as good as any larger number of steps. -/
theorem walks_end (n : ℕ) (V : Value) (CV : Option Value) (Visited : List Value) (w : Walk) :
    p.getBaseType A (p.walkFuel + n) V Visited = p.getBaseType A p.walkFuel V Visited ∧
      p.nextLayerBaseType A (p.walkFuel + n) V w = p.nextLayerBaseType A p.walkFuel V w ∧
      p.walkChain A (p.walkFuel + n) CV w = p.walkChain A p.walkFuel CV w := by
  have hmore : ∀ Visited, p.unvisited Visited < p.walkFuel + n :=
    fun _ => Nat.lt_add_right n unvisited_lt_walkFuel
  refine ⟨?_, ?_, ?_⟩
  · exact getBaseType_fuel (hmore Visited) unvisited_lt_walkFuel
  · exact nextLayerBaseType_fuel (hmore w.Visited) unvisited_lt_walkFuel
  · exact walkChain_fuel (hmore w.Visited) unvisited_lt_walkFuel

end Fuel

end Program

end MLTA

end Semalloc
