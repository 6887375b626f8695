import Semalloc.Frontend.StructPointers

/-!
# What is noted of one instruction

The tables only grow. A function that is stored is noted at every layer of the address, a function
that is passed at every layer of the casts of the parameter, and what a copy reads from is noted for
every layer it writes to.

## Main definitions

* `Noted`: tables with more notes
* `copySources`: the layers that a copied value is read from

## Main results

* `confineStore_adds`, `confineArgument_adds`, `typePropInFunction_adds`: what an instruction notes
-/

set_option autoImplicit false

namespace Semalloc

namespace MLTA

variable {p : Program} {A A' : AliasMap} {s t u : MLTA} {place q : Hash × ℤ}
  {F G V U O PO VO I : Value} {info : FunctionInfo} {l l' : Ty × ℤ} {h : Hash}

/-! ## Notes stay -/

/-- The tables `t` have the notes of `s` and more; the rest is the same. -/
structure Noted (s t : MLTA) : Prop where
  funcs : s.typeIdxFuncsMap ⊆ t.typeIdxFuncsMap
  props : s.typeIdxPropMap ⊆ t.typeIdxPropMap
  sigs : t.sigFuncsMap = s.sigFuncsMap
  aliases : t.AliasStructPtrMap = s.AliasStructPtrMap
  matched : t.MatchedFuncsMap = s.MatchedFuncsMap
  globals : t.GlobalFuncMap = s.GlobalFuncMap

theorem Noted.refl (s : MLTA) : Noted s s :=
  ⟨List.Subset.refl _, List.Subset.refl _, rfl, rfl, rfl, rfl⟩

theorem Noted.trans (h : Noted s t) (h' : Noted t u) : Noted s u where
  funcs := List.Subset.trans h.funcs h'.funcs
  props := List.Subset.trans h.props h'.props
  sigs := h'.sigs.trans h.sigs
  aliases := h'.aliases.trans h.aliases
  matched := h'.matched.trans h.matched
  globals := h'.globals.trans h.globals

theorem Noted.foldl {α : Type} {step : MLTA → α → MLTA} {xs : List α}
    (hstep : ∀ s, ∀ x ∈ xs, Noted s (step s x)) : Noted s (xs.foldl step s) :=
  Folding.foldl_rel Noted.refl Noted.trans hstep

theorem insertFunc_noted : Noted s (s.insertFunc place F) :=
  { Noted.refl s with funcs := fun _ hx => List.mem_insert_of_mem hx }

theorem insertProp_noted : Noted s (s.insertProp place q) :=
  { Noted.refl s with props := fun _ hx => List.mem_insert_of_mem hx }

theorem insertEscape_noted : Noted s (s.insertEscape h) := { Noted.refl s with }

theorem insertCap_noted : Noted s (s.insertCap h) := { Noted.refl s with }

theorem getBaseTypeChain_noted : Noted s (s.getBaseTypeChain p V).2 := by
  unfold getBaseTypeChain
  dsimp only
  split
  · exact insertCap_noted
  · exact .refl s

theorem confineTargetFunction_noted : Noted s (s.confineTargetFunction p V F) := by
  unfold confineTargetFunction
  split
  · exact .refl s
  · split
    · exact .refl s
    · have hfuncs : Noted s (((p.getBaseTypeChain s.AliasStructPtrMap V).1).foldl
          (fun s TI => s.insertFunc (p.hashidx TI) F) (s.getBaseTypeChain p V).2) :=
        getBaseTypeChain_noted.trans (Noted.foldl fun _ _ _ => insertFunc_noted)
      dsimp only
      split
      · exact hfuncs
      · exact hfuncs.trans insertCap_noted

theorem propagateType_noted : Noted s (s.propagateType p V l) := by
  unfold propagateType
  refine getBaseTypeChain_noted.trans (Noted.foldl fun s T _ => ?_)
  split
  · exact .refl s
  · exact insertProp_noted

theorem escapeType_noted : Noted s (s.escapeType p V) := by
  unfold escapeType
  exact getBaseTypeChain_noted.trans (Noted.foldl fun _ _ _ => insertEscape_noted)

theorem confineOperand_noted {calledOperand : Value} {i : ℕ} :
    Noted s (s.confineOperand p calledOperand i O) := by
  unfold confineOperand
  split
  · exact .refl s
  · split
    · exact .refl s
    · split
      · exact confineTargetFunction_noted
      · split
        · exact .refl s
        · exact Noted.foldl fun _ _ _ => confineTargetFunction_noted

/-- What is noted of one instruction of a function. -/
theorem confineInstruction_noted : Noted s (s.confineInstruction p info I) := by
  unfold confineInstruction
  split
  · split
    · exact .refl s
    · split
      · exact .refl s
      · exact confineTargetFunction_noted
  · exact Noted.foldl fun _ _ _ => confineOperand_noted
  · exact .refl s

theorem typeConfineInFunction_noted : Noted s (s.typeConfineInFunction p info) := by
  unfold typeConfineInFunction
  exact Noted.foldl fun _ _ _ => confineInstruction_noted

theorem typePropInCopy_noted : Noted s (s.typePropInCopy p PO VO) := by
  unfold typePropInCopy
  split
  · exact .refl s
  · split
    · exact Noted.foldl fun _ _ _ => propagateType_noted
    · split
      · exact propagateType_noted
      · split
        · split
          · exact propagateType_noted
          · exact .refl s
        · split
          · exact escapeType_noted
          · exact .refl s

theorem propInstruction_noted : Noted s (s.propInstruction p I) := by
  unfold propInstruction
  split
  · exact typePropInCopy_noted
  · exact .refl s

theorem typePropInFunction_noted : Noted s (s.typePropInFunction p info) := by
  unfold typePropInFunction
  exact Noted.foldl fun _ _ _ => propInstruction_noted

/-- What both passes over the instructions of a function change. -/
theorem functionBody_noted :
    Noted s ((s.typeConfineInFunction p info).typePropInFunction p info) :=
  typeConfineInFunction_noted.trans typePropInFunction_noted

theorem confineContainers_noted {C : Containers} {fuel : ℕ} {CV : Value} {Visited : List Value} :
    Noted s (confineContainers p F C fuel CV Visited s) := by
  induction fuel generalizing CV Visited s with
  | zero => exact .refl s
  | succ fuel ih =>
    unfold confineContainers
    split
    · exact .refl s
    · rename_i U i _
      have hfuncs : Noted s ((containerHashes p U).foldl
          (fun s TyH => s.insertFunc (TyH, i) F) s) := Noted.foldl fun _ _ _ => insertFunc_noted
      dsimp only
      split
      · exact hfuncs
      · exact hfuncs.trans ih

theorem capGlobal_noted : Noted s (capGlobal p O s) := by
  unfold capGlobal
  split
  · split
    · exact insertCap_noted
    · exact .refl s
  · exact .refl s

theorem visitOperand_noted {x : Containers × MLTA} {o : Value × ℕ} :
    Noted x.2 (visitOperand p U x o).2 := by
  unfold visitOperand
  dsimp only
  split
  · split
    · exact capGlobal_noted
    · exact capGlobal_noted.trans confineContainers_noted
  · exact capGlobal_noted

theorem visitUser_noted {x : Containers × MLTA} : Noted x.2 (visitUser p x U).2 :=
  Folding.foldl_rel (r := fun x y : Containers × MLTA => Noted x.2 y.2) (fun x => .refl x.2)
    (fun h h' => h.trans h') fun _ _ _ => visitOperand_noted

theorem visitUsers_noted {x : Containers × MLTA} {users : List Value} :
    Noted x.2 (users.foldl (visitUser p) x).2 :=
  Folding.foldl_rel (r := fun x y : Containers × MLTA => Noted x.2 y.2) (fun x => .refl x.2)
    (fun h h' => h.trans h') fun _ _ _ => visitUser_noted

theorem typeConfineInInitializer_noted : Noted s (s.typeConfineInInitializer p V) := by
  unfold typeConfineInInitializer
  split
  · rw [Worklist.loop_eq]
    exact visitUsers_noted (x := ([], s))
  · exact .refl s

/-! ## What is noted of one instruction -/

theorem Noted.foldl_at {α : Type} {step : MLTA → α → MLTA} {xs : List α} {x : α}
    (hstep : ∀ s, ∀ x ∈ xs, Noted s (step s x)) (hx : x ∈ xs) :
    ∃ t, Noted s t ∧ Noted (step t x) (xs.foldl step s) :=
  Folding.foldl_at Noted.refl Noted.trans hstep hx

theorem mem_insertFunc : (place, F) ∈ (s.insertFunc place F).typeIdxFuncsMap :=
  List.mem_insert_self

theorem mem_insertProp : (place, q) ∈ (s.insertProp place q).typeIdxPropMap :=
  List.mem_insert_self

/-- A function is noted at every layer of the address it is stored to. -/
theorem confineTargetFunction_adds (hF : p.asFunction F = some info) (hinfo : info.isIntrinsic = false)
    (hl : l ∈ (p.getBaseTypeChain s.AliasStructPtrMap V).1) :
    (p.hashidx l, F) ∈ (s.confineTargetFunction p V F).typeIdxFuncsMap := by
  unfold confineTargetFunction
  rw [hF]
  dsimp only
  rw [if_neg (by simp [hinfo])]
  have hstep : ∀ (s : MLTA) (TI : Ty × ℤ), Noted s (s.insertFunc (p.hashidx TI) F) :=
    fun _ _ => insertFunc_noted
  obtain ⟨t, -, hafter⟩ := Noted.foldl_at (s := (s.getBaseTypeChain p V).2)
    (fun s TI _ => hstep s TI) hl
  split
  · exact hafter.funcs mem_insertFunc
  · exact insertCap_noted.funcs (hafter.funcs mem_insertFunc)

/-- What is copied from a layer is noted at every layer of the address it is copied to. -/
theorem propagateType_adds (hl : l ∈ (p.getBaseTypeChain s.AliasStructPtrMap V).1)
    (hne : p.hashidx l ≠ p.hashidx l') :
    (p.hashidx l, p.hashidx l') ∈ (s.propagateType p V l').typeIdxPropMap := by
  unfold propagateType
  have hstep : ∀ (s : MLTA) (T : Ty × ℤ), Noted s (if p.hashidx T = p.hashidx l' then s
      else s.insertProp (p.hashidx T) (p.hashidx l')) := by
    intro s T
    split
    · exact .refl s
    · exact insertProp_noted
  obtain ⟨t, -, hafter⟩ := Noted.foldl_at (s := (s.getBaseTypeChain p V).2)
    (fun s T _ => hstep s T) hl
  refine hafter.props ?_
  rw [if_neg hne]
  exact mem_insertProp

/-- The layers that a copied value is read from. -/
def copySources (p : Program) (A : AliasMap) (VO : Value) : List (Ty × ℤ) :=
  if (p.kind VO).isConstantAggregate || (p.kind VO).isConstantData then []
  else
    match (p.nextLayerBaseType A p.walkFuel VO {}).2.TyList with
    | TyIdx :: TyList => TyIdx :: TyList
    | [] =>
      match (p.getBaseType A p.walkFuel VO []).1 with
      | some BTy => [(BTy, -1)]
      | none =>
        match p.getFuncPtrType (p.stripPointerCasts VO) with
        | some FTy => if (p.getBaseFunction p.walkFuel VO).isNone then [(FTy, -1)] else []
        | none => []

theorem copySources_congr {S : Value → Prop} (hS : Closed p S) (hA : Agree p S A A') (hV : S VO) :
    copySources p A VO = copySources p A' VO := by
  unfold copySources
  rw [nextLayerBaseType_congr hS hA hV, getBaseType_congr hS hA hV]

/-- A copy reads and writes through its operands. -/
theorem copies_operands (h : copies p I = some (PO, VO)) :
    PO ∈ p.operands I ∧ VO ∈ p.operands I := by
  unfold copies at h
  split at h
  · rename_i value pointer hkind
    cases h
    simp [Program.operands, hkind, ValueKind.operands]
  · split at h
    · rename_i hoperands
      split at h
      · cases h
        rw [hoperands]
        exact ⟨List.mem_cons_self, List.mem_cons_of_mem _ List.mem_cons_self⟩
      · cases h
    · cases h
  · cases h

theorem typePropInCopy_adds (hl' : l' ∈ copySources p s.AliasStructPtrMap VO)
    (hl : l ∈ (p.getBaseTypeChain s.AliasStructPtrMap PO).1) (hne : p.hashidx l ≠ p.hashidx l') :
    (p.hashidx l, p.hashidx l') ∈ (s.typePropInCopy p PO VO).typeIdxPropMap := by
  unfold copySources at hl'
  unfold typePropInCopy
  split at hl'
  · cases hl'
  · rename_i hconst
    rw [if_neg hconst]
    cases hlist : (p.nextLayerBaseType s.AliasStructPtrMap p.walkFuel VO {}).2.TyList with
    | cons TyIdx TyList =>
      rw [hlist] at hl'
      dsimp only at hl' ⊢
      have hstep : ∀ (s : MLTA) (TyIdx : Ty × ℤ), Noted s (s.propagateType p PO TyIdx) :=
        fun _ _ => propagateType_noted
      obtain ⟨t, hbefore, hafter⟩ := Noted.foldl_at (s := s) (fun s TyIdx _ => hstep s TyIdx) hl'
      exact hafter.props (propagateType_adds (hbefore.aliases ▸ hl) hne)
    | nil =>
      rw [hlist] at hl'
      dsimp only at hl' ⊢
      cases hbase : (p.getBaseType s.AliasStructPtrMap p.walkFuel VO []).1 with
      | some BTy =>
        rw [hbase] at hl'
        rw [List.mem_singleton.mp hl'] at hne ⊢
        exact propagateType_adds hl hne
      | none =>
        rw [hbase] at hl'
        dsimp only at hl' ⊢
        cases hptr : p.getFuncPtrType (p.stripPointerCasts VO) with
        | none =>
          rw [hptr] at hl'
          cases hl'
        | some FTy =>
          rw [hptr] at hl'
          dsimp only at hl' ⊢
          split at hl'
          · rename_i hnone
            rw [if_pos hnone]
            rw [List.mem_singleton.mp hl'] at hne ⊢
            exact propagateType_adds hl hne
          · cases hl'

theorem typePropInFunction_adds (hI : I ∈ info.instructions) (hcopy : copies p I = some (PO, VO))
    (hl' : l' ∈ copySources p s.AliasStructPtrMap VO)
    (hl : l ∈ (p.getBaseTypeChain s.AliasStructPtrMap PO).1) (hne : p.hashidx l ≠ p.hashidx l') :
    (p.hashidx l, p.hashidx l') ∈ (s.typePropInFunction p info).typeIdxPropMap := by
  have hstep : ∀ (s : MLTA) (I : Value), Noted s (s.propInstruction p I) :=
    fun _ _ => propInstruction_noted
  obtain ⟨t, hbefore, hafter⟩ := Noted.foldl_at (s := s) (fun s I _ => hstep s I) hI
  refine hafter.props ?_
  unfold propInstruction
  rw [hcopy]
  exact typePropInCopy_adds (hbefore.aliases ▸ hl') (hbefore.aliases ▸ hl) hne

/-- What is noted of an instruction stays. -/
theorem typeConfineInFunction_at (hI : I ∈ info.instructions) :
    ∃ t, Noted s t ∧ Noted (t.confineInstruction p info I) (s.typeConfineInFunction p info) := by
  have hstep : ∀ (s : MLTA) (I : Value), Noted s (s.confineInstruction p info I) :=
    fun _ _ => confineInstruction_noted
  exact Noted.foldl_at (fun s I _ => hstep s I) hI

/-- A function behind casts is a function of the program. -/
theorem getBaseFunction_some {fuel : ℕ} (h : p.getBaseFunction fuel V = some G) :
    ∃ info, p.asFunction G = some info ∧ info.isIntrinsic = false := by
  induction fuel generalizing V with
  | zero => cases h
  | succ fuel ih =>
    unfold Program.getBaseFunction at h
    split at h
    · rename_i info hkind
      split at h
      · cases h
      · rename_i hintrinsic
        cases h
        exact ⟨info, by rw [Program.asFunction, hkind], by simpa using hintrinsic⟩
    · exact ih h
    · cases h

theorem confineStore_adds (hI : I ∈ info.instructions) (hkind : p.kind I = .store VO PO)
    (hG : p.getBaseFunction p.walkFuel (p.stripPointerCasts VO) = some G)
    (hinfo : info.isIntrinsic = false) (hl : l ∈ (p.getBaseTypeChain s.AliasStructPtrMap PO).1) :
    (p.hashidx l, G) ∈ (s.typeConfineInFunction p info).typeIdxFuncsMap := by
  obtain ⟨t, hbefore, hafter⟩ := typeConfineInFunction_at (p := p) (s := s) hI
  obtain ⟨infoG, hasG, hintrinsic⟩ := getBaseFunction_some hG
  refine hafter.funcs ?_
  unfold confineInstruction
  rw [hkind]
  dsimp only
  rw [hG]
  dsimp only
  rw [if_neg (by simp [hinfo])]
  exact confineTargetFunction_adds hasG hintrinsic (hbefore.aliases ▸ hl)

/-- A function that is passed to a defined function is noted at the type its parameter is cast to. -/
theorem confineArgument_adds {args : List Value} {calledOperand functionType Arg : Value} {i : ℕ}
    {CF infoO : FunctionInfo} (hI : I ∈ info.instructions)
    (hkind : p.kind I = .call args calledOperand functionType)
    (hdirect : p.isIndirectCall calledOperand = false) (hCF : p.asFunction calledOperand = some CF)
    (hbody : CF.isDeclaration = false) (hO : (O, i) ∈ (p.operands I).zipIdx)
    (hinfoO : p.asFunction O = some infoO) (hintrinsic : infoO.isIntrinsic = false)
    (hArg : getParamByArgNo CF i = some Arg) (hU : U ∈ p.users Arg) (hcast : p.kind U = .bitCast Arg)
    (hl : ∀ t, Noted s t → l ∈ (p.getBaseTypeChain t.AliasStructPtrMap U).1) :
    (p.hashidx l, O) ∈ (s.typeConfineInFunction p info).typeIdxFuncsMap := by
  obtain ⟨t, hbefore, hafter⟩ := typeConfineInFunction_at (p := p) (s := s) hI
  refine hafter.funcs ?_
  unfold confineInstruction
  rw [hkind]
  have hoperands : ∀ (s : MLTA) (O : Value × ℕ),
      Noted s (s.confineOperand p calledOperand O.2 O.1) := fun _ _ => confineOperand_noted
  obtain ⟨t', hbefore', hafter'⟩ := Noted.foldl_at (s := t) (fun s O _ => hoperands s O) hO
  refine hafter'.funcs ?_
  unfold confineOperand
  rw [hinfoO]
  dsimp only
  rw [if_neg (by simp [hintrinsic]), if_neg (by simp [hdirect]), hCF]
  have hkeeps : U ∈ t'.keepsArgument p CF i := by
    unfold keepsArgument
    simp only [hbody, Bool.false_eq_true, ↓reduceIte, Option.bind_some, hArg]
    exact List.mem_filter.mpr ⟨hU, by rw [hcast]⟩
  have husers : ∀ (s : MLTA) (U : Value), Noted s (s.confineTargetFunction p U O) :=
    fun _ _ => confineTargetFunction_noted
  obtain ⟨t'', hbefore'', hafter''⟩ := Noted.foldl_at (s := t') (fun s U _ => husers s U) hkeeps
  exact hafter''.funcs (confineTargetFunction_adds hinfoO hintrinsic
    (hl t'' ((hbefore.trans hbefore').trans hbefore'')))

end MLTA

end Semalloc
