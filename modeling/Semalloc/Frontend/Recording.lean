import Semalloc.Frontend.CallGraph
import Semalloc.Frontend.Initializers

/-!
# What the first visit records

The first visit of the modules only adds to the tables, so what it notes of one instruction is still
there at the end, and the casts of a function stay as they were when its body was visited.

## Main definitions

* `collect`: the tables when all modules are visited
* `WellScoped`: instructions use values of their own function and constants
* `Keeps`, `Copies`: where the program stores functions, and what it copies

## Main results

* `collect_body`: the state in which a body is visited
* `collect_keeps`, `collect_copies`: every store and copy of the program is recorded
-/

set_option autoImplicit false

namespace Semalloc

open MLTA

namespace CallGraphPass

variable {p : Program} {s t u : MLTA} {M : Module} {F : Value} {info : FunctionInfo}

/-! ## The first visit -/

/-- The tables when all modules are visited for the first time. -/
def collect (p : Program) : MLTA := p.modules.foldl (initializeModule p) {}

/-- What the IR verifier promises: a function is in one module, an instruction once in one function,
and instructions use values of their own function and values outside of functions. -/
structure WellScoped (p : Program) : Prop where
  functions : (p.modules.flatMap Module.functions).Nodup
  once : ∀ F info, p.asFunction F = some info → info.instructions.Nodup
  instructions : ∀ F info, p.asFunction F = some info → ∀ I ∈ info.instructions, p.parent I = some F
  operands : ∀ v, ∀ u ∈ p.operands v, p.parent u = none ∨ p.parent u = p.parent v

/-- The scope of a program can be read off its table of values. -/
theorem wellScoped_iff : WellScoped p ↔
    (p.modules.flatMap Module.functions).Nodup ∧
      (∀ F < p.values.length, ∀ info ∈ p.asFunction F, info.instructions.Nodup ∧
        ∀ I ∈ info.instructions, p.parent I = some F) ∧
      ∀ v < p.values.length, ∀ u ∈ p.operands v, p.parent u = none ∨ p.parent u = p.parent v := by
  constructor
  · intro hp
    exact ⟨hp.functions,
      fun F _ info hinfo => ⟨hp.once F info hinfo, hp.instructions F info hinfo⟩,
      fun v _ => hp.operands v⟩
  · rintro ⟨hfunctions, hbodies, hoperands⟩
    have hlt : ∀ {F info}, p.asFunction F = some info → F < p.values.length := fun hinfo =>
      Program.lt_of_kind fun hkind => by simp [Program.asFunction, hkind] at hinfo
    refine ⟨hfunctions, fun F info hinfo => (hbodies F (hlt hinfo) info hinfo).1,
      fun F info hinfo => (hbodies F (hlt hinfo) info hinfo).2, fun v u hu => ?_⟩
    refine hoperands v (Program.lt_of_kind fun hkind => ?_) u hu
    simp [Program.operands, hkind, ValueKind.operands] at hu

instance (p : Program) : Decidable (WellScoped p) := decidable_of_iff _ wellScoped_iff.symm

/-- The tables `t` have the entries of `s` and more, and know as much of the casts of `F`. -/
structure Extends (F : Value) (s t : MLTA) : Prop where
  funcs : s.typeIdxFuncsMap ⊆ t.typeIdxFuncsMap
  props : s.typeIdxPropMap ⊆ t.typeIdxPropMap
  sigs : s.sigFuncsMap ⊆ t.sigFuncsMap
  aliases : ∀ v, t.AliasStructPtrMap.lookup (F, v) = s.AliasStructPtrMap.lookup (F, v)

theorem Extends.refl (F : Value) (s : MLTA) : Extends F s s :=
  ⟨List.Subset.refl _, List.Subset.refl _, List.Subset.refl _, fun _ => rfl⟩

theorem Extends.trans (h : Extends F s t) (h' : Extends F t u) : Extends F s u where
  funcs := List.Subset.trans h.funcs h'.funcs
  props := List.Subset.trans h.props h'.props
  sigs := List.Subset.trans h.sigs h'.sigs
  aliases v := (h'.aliases v).trans (h.aliases v)

theorem extends_of_noted (h : Noted s t) : Extends F s t where
  funcs := h.funcs
  props := h.props
  sigs := h.sigs ▸ List.Subset.refl _
  aliases _ := by rw [h.aliases]

/-- A global variable adds to the tables. -/
theorem initializeGlobal_noted {GV : Value} : Noted s (initializeGlobal p s GV) := by
  unfold initializeGlobal
  split
  · split
    · exact typeConfineInInitializer_noted
    · exact .refl s
  · exact .refl s

theorem noteSignature_extends {G : Value} : Extends G s (noteSignature p info F s) := by
  unfold noteSignature
  split
  · exact { Extends.refl G s with sigs := fun _ hx => List.mem_insert_of_mem hx }
  · exact .refl G s

theorem noteDefinition_extends {G : Value} : Extends G s (noteDefinition info F s) := by
  unfold noteDefinition
  split
  · exact { Extends.refl G s with }
  · exact .refl G s

/-- A function adds to the tables and leaves what is known of the casts of the others. -/
theorem initializeFunction_extends {G : Value} (hG : G ≠ F) :
    Extends G s (initializeFunction p M s F) := by
  unfold initializeFunction
  split
  · exact .refl G s
  · rename_i info _
    dsimp only
    split
    · exact noteSignature_extends
    · have hsignature : Extends G s (noteSignature p info F s) := noteSignature_extends
      have haliases : Extends G (noteSignature p info F s)
          ((noteSignature p info F s).collectAliasStructPtr p M F info) :=
        { Extends.refl G _ with aliases := collectAliasStructPtr_lookup hG }
      refine ((hsignature.trans haliases).trans ?_).trans noteDefinition_extends
      exact extends_of_noted functionBody_noted

theorem noteSignature_aliases :
    (noteSignature p info F s).AliasStructPtrMap = s.AliasStructPtrMap := by
  unfold noteSignature
  split <;> rfl

theorem noteDefinition_aliases :
    (noteDefinition info F s).AliasStructPtrMap = s.AliasStructPtrMap := by
  unfold noteDefinition
  split <;> rfl

theorem initializeFunction_calls (hs : AliasCalls p s.AliasStructPtrMap) :
    AliasCalls p (initializeFunction p M s F).AliasStructPtrMap := by
  have hsignature : ∀ info, AliasCalls p (noteSignature p info F s).AliasStructPtrMap := by
    intro info
    rw [noteSignature_aliases]
    exact hs
  unfold initializeFunction
  split
  · exact hs
  · rename_i info _
    dsimp only
    split
    · exact hsignature info
    · rw [noteDefinition_aliases, functionBody_noted.aliases]
      exact collectAliasStructPtr_calls (hsignature info)

theorem initializeModule_calls (hs : AliasCalls p s.AliasStructPtrMap) :
    AliasCalls p (initializeModule p s M).AliasStructPtrMap := by
  have hglobals : AliasCalls p (M.globals.foldl (initializeGlobal p) s).AliasStructPtrMap :=
    Folding.foldl_invariant (I := fun s : MLTA => AliasCalls p s.AliasStructPtrMap)
      (fun s GV _ hs => by rw [initializeGlobal_noted.aliases]; exact hs) hs
  exact Folding.foldl_invariant (I := fun s : MLTA => AliasCalls p s.AliasStructPtrMap)
    (fun s G _ hs => initializeFunction_calls hs) hglobals

theorem initializeModules_calls (Ms : List Module) :
    AliasCalls p (Ms.foldl (initializeModule p) {}).AliasStructPtrMap :=
  Folding.foldl_invariant (I := fun s : MLTA => AliasCalls p s.AliasStructPtrMap)
    (fun _ _ _ hs => initializeModule_calls hs) fun _ hx => absurd hx List.not_mem_nil

/-- **The state in which a function is visited**, and that what is noted of it stays. -/
theorem collect_function (hp : WellScoped p) (hM : M ∈ p.modules) (hF : F ∈ M.functions) :
    ∃ s, AliasCalls p s.AliasStructPtrMap ∧
      Extends F (initializeFunction p M s F) (collect p) := by
  obtain ⟨before, after, hmodules⟩ := List.append_of_mem hM
  obtain ⟨fs, gs, hfunctions⟩ := List.append_of_mem hF
  have hnodup := hp.functions
  rw [hmodules, List.flatMap_append, List.flatMap_cons, hfunctions] at hnodup
  -- the function is not among those that come after it
  obtain ⟨-, hrest, -⟩ := List.nodup_append.mp hnodup
  obtain ⟨hown, -, hlater⟩ := List.nodup_append.mp hrest
  have hgs : ∀ G ∈ gs, F ≠ G := by
    rintro G hG rfl
    obtain ⟨-, hcons, -⟩ := List.nodup_append.mp hown
    exact (List.nodup_cons.mp hcons).1 hG
  have hafter : ∀ M' ∈ after, ∀ G ∈ M'.functions, F ≠ G := fun M' hM' G hG =>
    hlater F (List.mem_append_right _ List.mem_cons_self) G (List.mem_flatMap.mpr ⟨M', hM', hG⟩)
  have hmodule : ∀ s M', (∀ G ∈ M'.functions, F ≠ G) → Extends F s (initializeModule p s M') := by
    intro s M' hne
    have hglobals : Extends F s (M'.globals.foldl (initializeGlobal p) s) :=
      Folding.foldl_rel (Extends.refl F) Extends.trans
        fun s GV _ => extends_of_noted initializeGlobal_noted
    exact hglobals.trans (Folding.foldl_rel (Extends.refl F) Extends.trans
      fun s G hG => initializeFunction_extends (hne G hG))
  let s₀ := fs.foldl (initializeFunction p M)
    (M.globals.foldl (initializeGlobal p) (before.foldl (initializeModule p) {}))
  refine ⟨s₀, ?_, ?_⟩
  · -- the module would be visited like this if it ended here
    exact initializeModule_calls (M := { M with functions := fs }) (initializeModules_calls before)
  · have hcollect : collect p = after.foldl (initializeModule p)
        (gs.foldl (initializeFunction p M) (initializeFunction p M s₀ F)) := by
      unfold collect
      rw [hmodules, List.foldl_append, List.foldl_cons]
      unfold initializeModule
      rw [hfunctions, List.foldl_append, List.foldl_cons]
      rfl
    rw [hcollect]
    exact (Folding.foldl_rel (Extends.refl F) Extends.trans
      fun s G hG => initializeFunction_extends (hgs G hG)).trans
        (Folding.foldl_rel (Extends.refl F) Extends.trans
          fun s M' hM' => hmodule s M' (hafter M' hM'))

/-! ## Stores and copies of the program -/

/-- What is known of the casts when all modules are visited. -/
def aliases (p : Program) : AliasMap := (collect p).AliasStructPtrMap

/-- A function of the program with its body. -/
def HasBody (p : Program) (F : Value) (info : FunctionInfo) : Prop :=
  (∃ M ∈ p.modules, F ∈ M.functions) ∧ p.asFunction F = some info ∧ info.isDeclaration = false

/-- The program keeps a function at a layer: it is stored there, passed to a function that casts its
parameter, an operand of a value in an initializer, or in such a value that is in one place only. -/
inductive Keeps (p : Program) : Hash × ℤ → Value → Prop
  | store {F I VO PO G : Value} {info : FunctionInfo} {l : Ty × ℤ} (hF : HasBody p F info)
    (hintrinsic : info.isIntrinsic = false) (hI : I ∈ info.instructions)
    (hkind : p.kind I = .store VO PO)
    (hG : p.getBaseFunction p.walkFuel (p.stripPointerCasts VO) = some G)
    (hl : l ∈ (p.getBaseTypeChain (aliases p) PO).1) : Keeps p (p.hashidx l) G
  | argument {F I calledOperand functionType O Arg U : Value} {args : List Value} {i : ℕ}
    {info CF infoO : FunctionInfo} {l : Ty × ℤ} (hF : HasBody p F info)
    (hI : I ∈ info.instructions) (hkind : p.kind I = .call args calledOperand functionType)
    (hdirect : p.isIndirectCall calledOperand = false) (hCF : p.asFunction calledOperand = some CF)
    (hbody : CF.isDeclaration = false) (hO : (O, i) ∈ (p.operands I).zipIdx)
    (hinfoO : p.asFunction O = some infoO) (hintrinsic : infoO.isIntrinsic = false)
    (hArg : getParamByArgNo CF i = some Arg) (hargument : p.kind Arg = .argument)
    (hU : U ∈ p.users Arg) (hcast : p.kind U = .bitCast Arg)
    (hl : l ∈ (p.getBaseTypeChain (aliases p) U).1) : Keeps p (p.hashidx l) O
  | initializer {M : Module} {GV Ini U O G : Value} {name : String} {i : ℕ} {info : FunctionInfo}
    {h : Hash} (hM : M ∈ p.modules) (hGV : GV ∈ M.globals)
    (hkind : p.kind GV = .globalVariable name (some Ini))
    (htype : (p.isPointerTy (p.type Ini) || p.isCompositeType (p.type Ini)) = true)
    (hIni : (p.kind Ini).isConstantAggregate = true)
    (hU : Relation.ReflTransGen (fun a b => b ∈ initUsers p a) Ini U)
    (hO : (O, i) ∈ (p.operands U).zipIdx) (hG : foundFunction p O = some G)
    (hinfo : p.asFunction G = some info) (hintrinsic : info.isIntrinsic = false)
    (hh : h ∈ containerHashes p U) : Keeps p (h, (i : ℤ)) G
  | enclosing {M : Module} {GV Ini U V W O G : Value} {name : String} {i j : ℕ}
    {info : FunctionInfo} {h : Hash} (hM : M ∈ p.modules) (hGV : GV ∈ M.globals)
    (hkind : p.kind GV = .globalVariable name (some Ini))
    (htype : (p.isPointerTy (p.type Ini) || p.isCompositeType (p.type Ini)) = true)
    (hIni : (p.kind Ini).isConstantAggregate = true)
    (hU : Relation.ReflTransGen (fun a b => b ∈ initUsers p a) Ini U)
    (hO : (O, i) ∈ (p.operands U).zipIdx) (hG : foundFunction p O = some G)
    (hinfo : p.asFunction G = some info) (hintrinsic : info.isIntrinsic = false)
    (hV : Relation.ReflTransGen (fun a b => ∃ k, OnlyIn p Ini a b k) U V)
    (hW : OnlyIn p Ini V W j) (hh : h ∈ containerHashes p W) : Keeps p (h, (j : ℤ)) G

/-- The program copies what a layer keeps to another layer. -/
inductive Copies (p : Program) : Hash × ℤ → Hash × ℤ → Prop
  | copy {F I PO VO : Value} {info : FunctionInfo} {l l' : Ty × ℤ} (hF : HasBody p F info)
    (hI : I ∈ info.instructions) (hcopy : copies p I = some (PO, VO))
    (hl : l ∈ (p.getBaseTypeChain (aliases p) PO).1) (hl' : l' ∈ copySources p (aliases p) VO)
    (hne : p.hashidx l ≠ p.hashidx l') : Copies p (p.hashidx l) (p.hashidx l')

/-- The values that a function can use. -/
def InScope (p : Program) (F v : Value) : Prop := p.parent v = none ∨ p.parent v = some F

theorem WellScoped.closed (hp : WellScoped p) : Closed p (InScope p F) := by
  rintro v hv u hu
  rcases hp.operands v u hu with hnone | heq
  · exact .inl hnone
  · exact hv.imp heq.trans heq.trans

/-- The instructions of a function use what the function can use. -/
theorem WellScoped.operand (hp : WellScoped p) (hF : p.asFunction F = some info) {I u : Value}
    (hI : I ∈ info.instructions) (hu : u ∈ p.operands I) : InScope p F u :=
  hp.closed I (.inr (hp.instructions F info hF I hI)) u hu

theorem agree_of_lookup {A A' : AliasMap} (h : ∀ v, A.lookup (F, v) = A'.lookup (F, v)) :
    Agree p (InScope p F) A A' := by
  rintro v (hnone | hsome)
  · simp [Program.recoverBaseType, hnone]
  · simp [Program.recoverBaseType, hsome, h v]

/-- **The state in which a body is visited**: it knows as much of the casts of the function as there
is to know, and what is noted stays. -/
theorem collect_body (hp : WellScoped p) (hF : HasBody p F info) :
    ∃ s : MLTA, AliasCalls p s.AliasStructPtrMap ∧
      Agree p (InScope p F) s.AliasStructPtrMap (aliases p) ∧
      (s.typeConfineInFunction p info).typeIdxFuncsMap ⊆ (collect p).typeIdxFuncsMap ∧
      ((s.typeConfineInFunction p info).typePropInFunction p info).typeIdxPropMap ⊆
        (collect p).typeIdxPropMap := by
  obtain ⟨⟨M, hM, hFM⟩, hinfo, hbody⟩ := hF
  obtain ⟨s, hcalls, hextends⟩ := collect_function hp hM hFM
  let s₁ := (noteSignature p info F s).collectAliasStructPtr p M F info
  have heq : initializeFunction p M s F =
      noteDefinition info F ((s₁.typeConfineInFunction p info).typePropInFunction p info) := by
    unfold initializeFunction
    rw [hinfo]
    exact if_neg (by simp [hbody])
  rw [heq] at hextends
  have hafter : Extends F ((s₁.typeConfineInFunction p info).typePropInFunction p info) (collect p) :=
    noteDefinition_extends.trans hextends
  have hnoted : Noted s₁ ((s₁.typeConfineInFunction p info).typePropInFunction p info) :=
    functionBody_noted
  refine ⟨s₁, ?_, agree_of_lookup fun v => ?_, ?_, hafter.props⟩
  · refine collectAliasStructPtr_calls ?_
    rw [noteSignature_aliases]
    exact hcalls
  · rw [← hnoted.aliases]
    exact (hafter.aliases v).symm
  · exact List.Subset.trans typePropInFunction_noted.funcs hafter.funcs

/-- The globals of a module add to the tables for good. -/
theorem collect_global {GV : Value} (hM : M ∈ p.modules) (hGV : GV ∈ M.globals) :
    ∃ s, (initializeGlobal p s GV).typeIdxFuncsMap ⊆ (collect p).typeIdxFuncsMap := by
  have hfunction : ∀ (s : MLTA) (M : Module) (F : Value),
      s.typeIdxFuncsMap ⊆ (initializeFunction p M s F).typeIdxFuncsMap := fun s M F =>
    (initializeFunction_extends (Nat.succ_ne_self F)).funcs
  have hfunctions : ∀ (s : MLTA) (M : Module),
      s.typeIdxFuncsMap ⊆ (M.functions.foldl (initializeFunction p M) s).typeIdxFuncsMap :=
    fun s M => Folding.foldl_rel
      (r := fun s t : MLTA => s.typeIdxFuncsMap ⊆ t.typeIdxFuncsMap)
      (fun s => List.Subset.refl _) List.Subset.trans fun s F _ => hfunction s M F
  have hmodule : ∀ (s : MLTA) (M : Module),
      s.typeIdxFuncsMap ⊆ (initializeModule p s M).typeIdxFuncsMap := by
    intro s M
    have hglobals : Noted s (M.globals.foldl (initializeGlobal p) s) :=
      Noted.foldl fun _ _ _ => initializeGlobal_noted
    exact List.Subset.trans hglobals.funcs (hfunctions _ M)
  obtain ⟨s, -, hafter⟩ := Folding.foldl_at (s := ({} : MLTA))
    (r := fun s t : MLTA => s.typeIdxFuncsMap ⊆ t.typeIdxFuncsMap)
    (fun s => List.Subset.refl _) List.Subset.trans (fun s M _ => hmodule s M) hM
  obtain ⟨t, -, hnoted⟩ := Noted.foldl_at (s := s)
    (fun s GV _ => (initializeGlobal_noted : Noted s (initializeGlobal p s GV))) hGV
  exact ⟨t, List.Subset.trans (List.Subset.trans hnoted.funcs (hfunctions _ M)) hafter⟩

/-- The state in which an initializer is visited. -/
theorem collect_initializer {GV Ini : Value} {name : String} (hM : M ∈ p.modules)
    (hGV : GV ∈ M.globals) (hkind : p.kind GV = .globalVariable name (some Ini))
    (htype : (p.isPointerTy (p.type Ini) || p.isCompositeType (p.type Ini)) = true) :
    ∃ s : MLTA, (s.typeConfineInInitializer p Ini).typeIdxFuncsMap ⊆ (collect p).typeIdxFuncsMap := by
  obtain ⟨s, hfuncs⟩ := collect_global hM hGV
  refine ⟨s, ?_⟩
  unfold initializeGlobal at hfuncs
  rw [hkind] at hfuncs
  dsimp only at hfuncs
  rw [if_pos htype] at hfuncs
  exact hfuncs

/-- **Every copy of the program is recorded.** -/
theorem collect_copies (hp : WellScoped p) {place q : Hash × ℤ} (h : Copies p place q) :
    (place, q) ∈ (collect p).typeIdxPropMap := by
  cases h with
  | @copy F I PO VO info l l' hF hI hcopy hl hl' hne =>
    obtain ⟨s, -, hA, -, hprops⟩ := collect_body hp hF
    obtain ⟨hPO, hVO⟩ := copies_operands hcopy
    have hA' : Agree p (InScope p F) (s.typeConfineInFunction p info).AliasStructPtrMap
        (aliases p) := by
      rw [typeConfineInFunction_noted.aliases]
      exact hA
    refine hprops (typePropInFunction_adds hI hcopy ?_ ?_ hne)
    · rw [copySources_congr hp.closed hA' (hp.operand hF.2.1 hI hVO)]
      exact hl'
    · rw [getBaseTypeChain_congr hp.closed hA' (hp.operand hF.2.1 hI hPO)]
      exact hl

/-- A parameter and its casts are not known as struct pointers. -/
theorem agree_casts {A A' : AliasMap} (hA : AliasCalls p A) (hA' : AliasCalls p A') {Arg : Value} :
    Agree p (fun v => p.kind v = .bitCast Arg ∨ p.kind v = .argument) A A' := by
  have hnone : ∀ {A : AliasMap}, AliasCalls p A → ∀ v,
      (p.kind v = .bitCast Arg ∨ p.kind v = .argument) → p.recoverBaseType A v = none := by
    intro A hA v hv
    unfold Program.recoverBaseType
    refine Option.bind_eq_none_iff.mpr fun F _ => ?_
    by_contra hlookup
    obtain ⟨c, hc⟩ := Option.ne_none_iff_exists'.mp hlookup
    obtain ⟨args, calledOperand, functionType, hcall⟩ := hA _ (Association.mem_of_lookup hc)
    rcases hv with hv | hv
    · simp [hv] at hcall
    · simp [hv] at hcall
  exact fun v hv => (hnone hA v hv).trans (hnone hA' v hv).symm

theorem closed_casts {Arg : Value} (hArg : p.kind Arg = .argument) :
    Closed p fun v => p.kind v = .bitCast Arg ∨ p.kind v = .argument := by
  rintro v (hv | hv) u hu
  · have hu' : u = Arg := by simpa [Program.operands, hv, ValueKind.operands] using hu
    exact .inr (hu' ▸ hArg)
  · simp [Program.operands, hv, ValueKind.operands] at hu

/-- **Every store of a function is recorded.** -/
theorem collect_keeps (hp : WellScoped p) {place : Hash × ℤ} {G : Value} (h : Keeps p place G) :
    (place, G) ∈ (collect p).typeIdxFuncsMap := by
  cases h with
  | @store F I VO PO G info l hF hintrinsic hI hkind hG hl =>
    obtain ⟨s, -, hA, hfuncs, -⟩ := collect_body hp hF
    have hPO : PO ∈ p.operands I := by simp [Program.operands, hkind, ValueKind.operands]
    refine hfuncs (confineStore_adds hI hkind hG hintrinsic ?_)
    rw [getBaseTypeChain_congr hp.closed hA (hp.operand hF.2.1 hI hPO)]
    exact hl
  | argument hF hI hkind hdirect hCF hbody hO hinfoO hintrinsic hArg hargument hU hcast hl =>
    obtain ⟨s, hcalls, -, hfuncs, -⟩ := collect_body hp hF
    refine hfuncs (confineArgument_adds hI hkind hdirect hCF hbody hO hinfoO hintrinsic hArg hU hcast
      fun t hnoted => ?_)
    have hA : AliasCalls p t.AliasStructPtrMap := by
      rw [hnoted.aliases]
      exact hcalls
    rw [getBaseTypeChain_congr (closed_casts hargument)
      (agree_casts hA (initializeModules_calls p.modules)) (.inl hcast)]
    exact hl
  | @initializer M GV Ini U O G name i info h hM hGV hkind htype hIni hU hO hG hinfo hintrinsic hh =>
    obtain ⟨s, hfuncs⟩ := collect_initializer hM hGV hkind htype
    exact hfuncs ((typeConfineInInitializer_adds hIni hU hO hG hinfo hintrinsic).1 h hh)
  | @enclosing M GV Ini U V W O G name i j info h hM hGV hkind htype hIni hU hO hG hinfo hintrinsic
      hV hW hh =>
    obtain ⟨s, hfuncs⟩ := collect_initializer hM hGV hkind htype
    exact hfuncs ((typeConfineInInitializer_adds hIni hU hO hG hinfo hintrinsic).2 V W j hV hW h hh)

end CallGraphPass

end Semalloc