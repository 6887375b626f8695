import Semalloc.Frontend.Recording
import Semalloc.Frontend.Resolving

/-!
# The callees of a call

When all modules were visited twice, an indirect call has among its callees every function of its
type that the program lets flow to the layers of the called value, and no function of another type.
A direct call has one callee: the definition of the function it calls or, where no module defines
it, the function itself.

## Main definitions

* `mapped`: the tables when the calls are resolved
* `FlowsTo`: the functions that stores and copies of the program bring to a layer
* `Resolved`, `KeepsTargets`: what holds when some of the calls are resolved

## Main results

* `callees_sound`: no function that flows to the layers of an indirect call is missing
* `callees_typed`: an indirect call only has definitions of functions of its type
* `direct_callee`: a direct call has one callee
* `callers_iff`: the callers are those with the function among their callees
-/

set_option autoImplicit false

namespace Semalloc

open MLTA

namespace CallGraphPass

variable {p : Program} {s : CallGraphPass} {M : Module} {F G H I CI calledOperand functionType : Value}
  {args : List Value} {info : FunctionInfo} {place q : Hash × ℤ} {done : List Value}

/-! ## The tables when the calls are resolved -/

/-- The tables with the definitions of the functions that are only declared. -/
def mapped (p : Program) : MLTA :=
  { collect p with
    sigFuncsMap := mapDeclarations p (collect p) (collect p).sigFuncsMap
    typeIdxFuncsMap := mapDeclarations p (collect p) (collect p).typeIdxFuncsMap }

theorem mem_mapDeclarations {κ : Type} [DecidableEq κ] {t : MLTA} {table : List (κ × Value)} {k : κ} :
    (k, G) ∈ mapDeclarations p t table ↔ ∃ F, (k, F) ∈ table ∧ definition p t F = some G := by
  simp only [mapDeclarations, List.mem_dedup, List.mem_filterMap, Option.map_eq_some_iff,
    Prod.mk.injEq]
  constructor
  · rintro ⟨⟨k', F⟩, hmem, G', hdef, rfl, rfl⟩
    exact ⟨F, hmem, hdef⟩
  · rintro ⟨F, hmem, hdef⟩
    exact ⟨(k, F), hmem, G, hdef, rfl, rfl⟩

/-- Before the last module the tables only grow. -/
theorem doInitializations_eq (Ms : List Module) (h : s.MIdx + Ms.length < p.modules.length) :
    Ms.foldl (doInitialization p) s =
      { s with
        tables := Ms.foldl (initializeModule p) s.tables
        MIdx := s.MIdx + Ms.length } := by
  induction Ms generalizing s with
  | nil => rfl
  | cons M Ms ih =>
    rw [List.length_cons] at h
    have hstep : doInitialization p s M =
        { s with tables := initializeModule p s.tables M, MIdx := s.MIdx + 1 } :=
      if_neg (by omega)
    rw [List.foldl_cons, hstep, ih (by dsimp only; omega), List.length_cons]
    simp only [List.foldl_cons]
    congr 1
    omega

/-- **The first visit**: with the last module the declared functions are replaced, and the modules
are counted from the start again. -/
theorem initialize_eq :
    p.modules.foldl (doInitialization p) {} = { tables := mapped p : CallGraphPass } := by
  rcases List.eq_nil_or_concat p.modules with hnil | ⟨Ms, M, hmodules⟩
  · simp [mapped, collect, hnil, mapDeclarations]
  · rw [List.concat_eq_append] at hmodules
    have hlength : p.modules.length = Ms.length + 1 := by simp [hmodules]
    rw [hmodules, List.foldl_append, doInitializations_eq Ms (by simp [hlength])]
    have hcollect : collect p = initializeModule p (Ms.foldl (initializeModule p) {}) M := by
      simp [collect, hmodules]
    rw [List.foldl_cons, List.foldl_nil]
    unfold doInitialization mapped
    rw [hcollect]
    exact if_pos (by simp [hlength])

/-- **The third visit** only counts modules: the count went on from the second. -/
theorem doFinalizations_eq (Ms : List Module) (h : p.modules.length ≤ s.MIdx) :
    Ms.foldl (doFinalization p) s = { s with MIdx := s.MIdx + Ms.length } := by
  induction Ms generalizing s with
  | nil => rfl
  | cons M Ms ih =>
    have hstep : doFinalization p s M = { s with MIdx := s.MIdx + 1 } :=
      if_neg (by dsimp only; omega)
    rw [List.foldl_cons, hstep, ih (by dsimp only; omega), List.length_cons]
    congr 1
    dsimp only
    omega

/-! ## Resolving the calls one after the other -/

/-- What holds when the instructions `done` were gone through. -/
structure Resolved (p : Program) (done : List Value) (s : CallGraphPass) : Prop where
  tables : ∃ m, s.tables = (mapped p).withMatched m
  typed : ∀ CI args calledOperand functionType,
    p.kind CI = .call args calledOperand functionType → p.isIndirectCall calledOperand = true →
    ∀ G ∈ s.Callees.get CI, G ∈ (mapped p).signatureFuncs (p.signatureHash functionType)
  direct : ∀ CI args calledOperand functionType,
    p.kind CI = .call args calledOperand functionType → p.isIndirectCall calledOperand = false →
    s.Callees.get CI =
      if CI ∈ done then (directCallee p (mapped p) calledOperand).toList else []
  callers : ∀ G CI, G ∈ s.Callees.get CI → (G, CI) ∈ s.Callers
  callersDone : ∀ G CI, (G, CI) ∈ s.Callers → CI ∈ done
  callees : done.Nodup → ∀ G CI, (G, CI) ∈ s.Callers → G ∈ s.Callees.get CI

theorem Resolved.initial : Resolved p [] { tables := mapped p } where
  tables := ⟨(mapped p).MatchedFuncsMap, rfl⟩
  typed _ _ _ _ _ _ _ hG := absurd hG List.not_mem_nil
  direct _ _ _ _ _ _ := (if_neg List.not_mem_nil).symm
  callers _ _ hG := absurd hG List.not_mem_nil
  callersDone _ _ hG := absurd hG List.not_mem_nil
  callees _ _ _ hG := absurd hG List.not_mem_nil

/-- An instruction that is no call is passed over. -/
theorem Resolved.pass (hs : Resolved p done s)
    (hI : ∀ args calledOperand functionType, p.kind I ≠ .call args calledOperand functionType) :
    Resolved p (done ++ [I]) s where
  tables := hs.tables
  typed := hs.typed
  direct CI args calledOperand functionType hkind hdirect := by
    have hCI : CI ≠ I := fun h => hI args calledOperand functionType (h ▸ hkind)
    rw [hs.direct CI args calledOperand functionType hkind hdirect]
    simp [hCI]
  callers := hs.callers
  callersDone G CI hG := List.mem_append_left _ (hs.callersDone G CI hG)
  callees hnodup := hs.callees (List.nodup_append.mp hnodup).1

/-- The callers of a function after the callees `FS` of `I` were added. -/
theorem mem_callers {FS : List Value} {Callers : List (Value × Value)} :
    (G, CI) ∈ FS.map (fun Callee => (Callee, I)) ∪ Callers ↔
      (G ∈ FS ∧ CI = I) ∨ (G, CI) ∈ Callers := by
  rw [List.mem_union_iff]
  simp only [List.mem_map, Prod.mk.injEq]
  constructor
  · rintro (⟨_, hmem, rfl, rfl⟩ | hmem)
    · exact .inl ⟨hmem, rfl⟩
    · exact .inr hmem
  · rintro (⟨hmem, rfl⟩ | hmem)
    · exact .inl ⟨G, hmem, rfl, rfl⟩
    · exact .inr hmem

/-- The callees of the other calls stay. -/
theorem resolveCall_get (hCI : CI ≠ I) :
    (resolveCall p s I).Callees.get CI = s.Callees.get CI := by
  unfold resolveCall
  split
  · dsimp only
    split
    · exact KeyMap.insert_get_of_ne hCI
    · exact KeyMap.insert_get_of_ne hCI
  · rfl

theorem resolveCall_indirect (hkind : p.kind I = .call args calledOperand functionType)
    (hindirect : p.isIndirectCall calledOperand = true) :
    resolveCall p s I =
      { s with
        tables := (s.tables.findCalleesWithMLTA p calledOperand functionType).2
        CallSet := s.CallSet.insert I
        Callees := s.Callees.insert I (s.tables.findCalleesWithMLTA p calledOperand functionType).1
        Callers := (s.tables.findCalleesWithMLTA p calledOperand functionType).1.map
          (fun Callee => (Callee, I)) ∪ s.Callers
        IndirectCallInsts := s.IndirectCallInsts ++ [I] } := by
  unfold resolveCall
  rw [hkind]
  exact if_pos hindirect

theorem resolveCall_direct (hkind : p.kind I = .call args calledOperand functionType)
    (hdirect : p.isIndirectCall calledOperand = false) :
    resolveCall p s I =
      { s with
        CallSet := s.CallSet.insert I
        Callees := s.Callees.insert I
          ((directCallee p s.tables calledOperand).toList ∪ s.Callees.get I)
        Callers := (directCallee p s.tables calledOperand).toList.map (fun CF => (CF, I)) ∪
          s.Callers } := by
  unfold resolveCall
  rw [hkind]
  exact if_neg (by simp [hdirect])

/-- An instruction is resolved when its callees are right and become callers of it. -/
theorem Resolved.add (hs : Resolved p done s) {s' : CallGraphPass} {FS : List Value}
    (hcall : p.kind I = .call args calledOperand functionType)
    (htables : ∃ m, s'.tables = (mapped p).withMatched m)
    (hget : ∀ CI ≠ I, s'.Callees.get CI = s.Callees.get CI)
    (hcallers : s'.Callers = FS.map (fun Callee => (Callee, I)) ∪ s.Callers)
    (hFS : ∀ G, G ∈ s'.Callees.get I → G ∈ FS ∨ G ∈ s.Callees.get I)
    (hadded : ∀ G ∈ FS, G ∈ s'.Callees.get I)
    (htyped : p.isIndirectCall calledOperand = true → ∀ G ∈ s'.Callees.get I,
      G ∈ (mapped p).signatureFuncs (p.signatureHash functionType))
    (hdirect : p.isIndirectCall calledOperand = false →
      s'.Callees.get I = (directCallee p (mapped p) calledOperand).toList) :
    Resolved p (done ++ [I]) s' where
  tables := htables
  typed CI args' calledOperand' functionType' hkind hindirect G hG := by
    by_cases hCI : CI = I
    · subst hCI
      obtain ⟨rfl, rfl, rfl⟩ := ValueKind.call.inj (hcall.symm.trans hkind)
      exact htyped hindirect G hG
    · exact hs.typed CI args' calledOperand' functionType' hkind hindirect G (hget CI hCI ▸ hG)
  direct CI args' calledOperand' functionType' hkind hdirect' := by
    by_cases hCI : CI = I
    · subst hCI
      obtain ⟨rfl, rfl, rfl⟩ := ValueKind.call.inj (hcall.symm.trans hkind)
      rw [hdirect hdirect', if_pos (List.mem_append_right _ (List.mem_singleton_self CI))]
    · rw [hget CI hCI, hs.direct CI args' calledOperand' functionType' hkind hdirect']
      simp [hCI]
  callers G CI hG := by
    rw [hcallers, mem_callers]
    by_cases hCI : CI = I
    · subst hCI
      rcases hFS G hG with hG | hG
      · exact .inl ⟨hG, rfl⟩
      · exact .inr (hs.callers G CI hG)
    · exact .inr (hs.callers G CI (hget CI hCI ▸ hG))
  callersDone G CI hG := by
    rw [hcallers, mem_callers] at hG
    rcases hG with ⟨-, rfl⟩ | hG
    · exact List.mem_append_right _ (List.mem_singleton_self CI)
    · exact List.mem_append_left _ (hs.callersDone G CI hG)
  callees hnodup G CI hG := by
    obtain ⟨hdone, -, hnew⟩ := List.nodup_append.mp hnodup
    rw [hcallers, mem_callers] at hG
    rcases hG with ⟨hG, rfl⟩ | hG
    · exact hadded G hG
    · have hCI : CI ≠ I := hnew CI (hs.callersDone G CI hG) I (List.mem_singleton_self I)
      rw [hget CI hCI]
      exact hs.callees hdone G CI hG

/-- **One instruction**: what holds of the calls that were resolved holds with one more. -/
theorem Resolved.step (hs : Resolved p done s) : Resolved p (done ++ [I]) (resolveCall p s I) := by
  by_cases hcall : ∃ args calledOperand functionType,
      p.kind I = .call args calledOperand functionType
  · obtain ⟨args, calledOperand, functionType, hkind⟩ := hcall
    obtain ⟨m, htables⟩ := hs.tables
    have hget : ∀ CI ≠ I, (resolveCall p s I).Callees.get CI = s.Callees.get CI :=
      fun CI hCI => resolveCall_get hCI
    cases hindirect : p.isIndirectCall calledOperand with
    | true =>
      rw [resolveCall_indirect hkind hindirect] at hget ⊢
      have hself : (s.Callees.insert I (s.tables.findCalleesWithMLTA p calledOperand
          functionType).1).get I = (s.tables.findCalleesWithMLTA p calledOperand functionType).1 :=
        KeyMap.insert_get_self
      have hmatched : ∃ m', (s.tables.findCalleesWithMLTA p calledOperand functionType).2 =
          s.tables.withMatched m' := findCallees_tables
      refine hs.add hkind ?_ hget rfl (fun G hG => .inl (hself ▸ hG)) (fun G hG => ?_)
        (fun _ G hG => ?_) fun h => absurd (h.symm.trans hindirect) Bool.false_ne_true
      · obtain ⟨m', hm'⟩ := hmatched
        exact ⟨m', by rw [hm', htables]; rfl⟩
      · rw [hself]
        exact hG
      · have hfound := findCallees_signature (hself ▸ hG)
        rw [htables] at hfound
        exact hfound
    | false =>
      rw [resolveCall_direct hkind hindirect] at hget ⊢
      have hcallee : directCallee p s.tables calledOperand =
          directCallee p (mapped p) calledOperand := by rw [htables]; rfl
      have hself : (s.Callees.insert I ((directCallee p s.tables calledOperand).toList ∪
          s.Callees.get I)).get I = (directCallee p (mapped p) calledOperand).toList := by
        rw [KeyMap.insert_get_self, hcallee, hs.direct I args calledOperand functionType hkind hindirect]
        cases directCallee p (mapped p) calledOperand with
        | none => split <;> rfl
        | some CF => split <;> simp
      refine hs.add hkind ⟨m, htables⟩ hget rfl (fun G hG => .inl ?_) (fun G hG => ?_)
        (fun h => absurd (h.symm.trans hindirect) (Bool.false_ne_true ∘ Eq.symm)) fun _ => hself
      · rw [hself] at hG
        exact hcallee ▸ hG
      · rw [hself]
        exact hcallee ▸ hG
  · have hpass : resolveCall p s I = s := by
      unfold resolveCall
      split
      · rename_i args calledOperand functionType hkind
        exact absurd ⟨args, calledOperand, functionType, hkind⟩ hcall
      · rfl
    rw [hpass]
    exact hs.pass fun args calledOperand functionType hkind =>
      hcall ⟨args, calledOperand, functionType, hkind⟩

/-! ## No function is lost -/

/-- The layers that the walks from the called values of the program meet. -/
def MetLayer (p : Program) (l : Ty × ℤ) : Prop :=
  ∃ F info I args calledOperand functionType, HasBody p F info ∧ I ∈ info.instructions ∧
    p.kind I = .call args calledOperand functionType ∧ p.isIndirectCall calledOperand = true ∧
    WalkLayer p (aliases p) (some calledOperand) l

/-- The indirect calls in `done` have every function of their type that flows to the layers that
count, and so will those that come after, whatever is kept for them. -/
structure KeepsTargets (p : Program) (done : List Value) (s : CallGraphPass) : Prop where
  cache : ∃ m, s.tables = (mapped p).withMatched m ∧ CacheSound p (mapped p) (MetLayer p) m
  targets : ∀ CI ∈ done, ∀ args calledOperand functionType,
    p.kind CI = .call args calledOperand functionType → p.isIndirectCall calledOperand = true →
    ∀ G ∈ (mapped p).signatureFuncs (p.signatureHash functionType),
      (∀ l, Counts p (mapped p) functionType (some calledOperand) l →
        (mapped p).Flows (p.hashidx l) G) → G ∈ s.Callees.get CI

theorem KeepsTargets.step (hapart : Apart p (MetLayer p)) (hs : KeepsTargets p done s)
    (hF : HasBody p F info) (hI : I ∈ info.instructions) :
    KeepsTargets p (done ++ [I]) (resolveCall p s I) := by
  obtain ⟨m, htables, hcache⟩ := hs.cache
  -- the calls that were resolved before have the callees they had
  have hbefore : ∀ CI ≠ I, ∀ args calledOperand functionType,
      p.kind CI = .call args calledOperand functionType → p.isIndirectCall calledOperand = true →
      CI ∈ done ++ [I] → ∀ G ∈ (mapped p).signatureFuncs (p.signatureHash functionType),
        (∀ l, Counts p (mapped p) functionType (some calledOperand) l →
          (mapped p).Flows (p.hashidx l) G) → G ∈ (resolveCall p s I).Callees.get CI := by
    intro CI hne args calledOperand functionType hkind hindirect hCI G hG hflows
    rw [resolveCall_get hne]
    have hdone : CI ∈ done := (List.mem_append.mp hCI).resolve_right fun h =>
      hne (List.mem_singleton.mp h)
    exact hs.targets CI hdone args calledOperand functionType hkind hindirect G hG hflows
  by_cases hcall : ∃ args calledOperand functionType,
      p.kind I = .call args calledOperand functionType ∧ p.isIndirectCall calledOperand = true
  · obtain ⟨args, calledOperand, functionType, hkind, hindirect⟩ := hcall
    obtain ⟨FS, m', hfound, hcache', hkeeps⟩ := @findCallees_keeps p (mapped p) (MetLayer p) m
      calledOperand functionType hapart hcache
      fun l hl => ⟨F, info, I, args, calledOperand, functionType, hF, hI, hkind, hindirect, hl⟩
    have hfound' : s.tables.findCalleesWithMLTA p calledOperand functionType =
        (FS, (mapped p).withMatched m') := by rw [htables, hfound]
    refine ⟨⟨m', ?_, hcache'⟩, ?_⟩
    · rw [resolveCall_indirect hkind hindirect, hfound']
    · intro CI hCI args' calledOperand' functionType' hkind' hindirect' G hG hflows
      by_cases hne : CI = I
      · subst hne
        obtain ⟨rfl, rfl, rfl⟩ := ValueKind.call.inj (hkind.symm.trans hkind')
        rw [resolveCall_indirect hkind hindirect, hfound', KeyMap.insert_get_self]
        exact hkeeps G hG hflows
      · exact hbefore CI hne args' calledOperand' functionType' hkind' hindirect' hCI G hG hflows
  · refine ⟨⟨m, ?_, hcache⟩, ?_⟩
    · rw [← htables]
      unfold resolveCall
      split
      · rename_i args calledOperand functionType hkind
        dsimp only
        rw [if_neg fun h => hcall ⟨args, calledOperand, functionType, hkind, h⟩]
      · rfl
    · intro CI hCI args calledOperand functionType hkind hindirect G hG hflows
      have hne : CI ≠ I := fun h => hcall ⟨args, calledOperand, functionType, h ▸ hkind, hindirect⟩
      exact hbefore CI hne args calledOperand functionType hkind hindirect hCI G hG hflows

/-! ## The second visit -/

/-- The instructions of a function with a body. -/
def bodyInstructions (p : Program) (F : Value) : List Value :=
  match p.asFunction F with
  | some info => if info.isDeclaration then [] else info.instructions
  | none => []

/-- All instructions, in the order in which they are gone through. -/
def instructions (p : Program) : List Value :=
  p.modules.flatMap fun M => M.functions.flatMap (bodyInstructions p)

theorem resolveFunction_eq :
    resolveFunction p s F = (bodyInstructions p F).foldl (resolveCall p) s := by
  unfold resolveFunction bodyInstructions
  cases p.asFunction F with
  | none => rfl
  | some info =>
    dsimp only
    cases info.isDeclaration <;> rfl

theorem doModulePass_eq : doModulePass p s M =
    (M.functions.flatMap (bodyInstructions p)).foldl (resolveCall p)
      { s with MIdx := s.MIdx + 1 } := by
  unfold doModulePass
  rw [List.foldl_flatMap]
  exact List.foldl_ext _ _ _ fun s F _ => resolveFunction_eq

theorem mem_bodyInstructions : I ∈ bodyInstructions p F ↔
    ∃ info, p.asFunction F = some info ∧ info.isDeclaration = false ∧ I ∈ info.instructions := by
  unfold bodyInstructions
  split
  · rename_i info hinfo
    rw [hinfo]
    cases hbody : info.isDeclaration <;> simp [hbody]
  · rename_i hnone
    simp [hnone]

theorem HasBody.mem_instructions (hF : HasBody p F info) (hI : I ∈ info.instructions) :
    I ∈ instructions p := by
  obtain ⟨⟨M, hM, hFM⟩, hinfo, hbody⟩ := hF
  exact List.mem_flatMap.mpr ⟨M, hM, List.mem_flatMap.mpr
    ⟨F, hFM, mem_bodyInstructions.mpr ⟨info, hinfo, hbody, hI⟩⟩⟩

/-- Resolving a call does not depend on how many modules were visited. -/
theorem resolveCall_withMIdx (k : ℕ) :
    resolveCall p { s with MIdx := k } I = { resolveCall p s I with MIdx := k } := by
  unfold resolveCall
  split
  · dsimp only
    split <;> rfl
  · rfl

theorem resolveCalls_withMIdx (Is : List Value) (k : ℕ) :
    Is.foldl (resolveCall p) { s with MIdx := k } =
      { Is.foldl (resolveCall p) s with MIdx := k } := by
  induction Is generalizing s with
  | nil => rfl
  | cons I Is ih => rw [List.foldl_cons, List.foldl_cons, resolveCall_withMIdx, ih]

/-- **The second visit** resolves the calls of all modules. -/
theorem doModulePasses_eq (Ms : List Module) : Ms.foldl (doModulePass p) s =
    { (Ms.flatMap fun M => M.functions.flatMap (bodyInstructions p)).foldl (resolveCall p) s with
      MIdx := s.MIdx + Ms.length } := by
  induction Ms generalizing s with
  | nil => rfl
  | cons M Ms ih =>
    let own := M.functions.flatMap (bodyInstructions p)
    have hown : doModulePass p s M =
        { own.foldl (resolveCall p) s with MIdx := s.MIdx + 1 } :=
      doModulePass_eq.trans (resolveCalls_withMIdx own _)
    have hcount : s.MIdx + (M :: Ms).length = s.MIdx + 1 + Ms.length := by
      rw [List.length_cons]
      omega
    rw [List.foldl_cons, ih, hown, resolveCalls_withMIdx (s := own.foldl (resolveCall p) s), hcount,
      List.flatMap_cons, List.foldl_append]

theorem Resolved.run {Is : List Value} (hs : Resolved p done s) :
    Resolved p (done ++ Is) (Is.foldl (resolveCall p) s) := by
  induction Is generalizing s done with
  | nil => exact (List.append_nil done).symm ▸ hs
  | cons I Is ih =>
    have hrest := ih (hs.step (I := I))
    rw [List.append_assoc, List.singleton_append] at hrest
    exact hrest

theorem KeepsTargets.run {Is : List Value} (hapart : Apart p (MetLayer p))
    (hIs : ∀ I ∈ Is, ∃ F info, HasBody p F info ∧ I ∈ info.instructions)
    (hs : KeepsTargets p done s) : KeepsTargets p (done ++ Is) (Is.foldl (resolveCall p) s) := by
  induction Is generalizing s done with
  | nil => exact (List.append_nil done).symm ▸ hs
  | cons I Is ih =>
    obtain ⟨F, info, hF, hI⟩ := hIs I List.mem_cons_self
    have hrest := ih (fun I' hI' => hIs I' (List.mem_cons_of_mem I hI')) (hs.step hapart hF hI)
    rw [List.append_assoc, List.singleton_append] at hrest
    exact hrest

/-- **The pass** resolves the calls one after the other, with the tables of the first visit. -/
theorem run_eq : run p =
    { (instructions p).foldl (resolveCall p) { tables := mapped p } with
      MIdx := p.modules.length + p.modules.length } := by
  unfold run instructions
  dsimp only
  rw [initialize_eq, doModulePasses_eq, doFinalizations_eq _ (by simp)]
  simp

/-- **The calls that are resolved** are all calls of functions with a body. -/
theorem run_resolved : Resolved p (instructions p) (run p) := by
  have hrun := @Resolved.run p _ _ (instructions p) Resolved.initial
  rw [run_eq]
  exact ⟨hrun.tables, hrun.typed, hrun.direct, hrun.callers, hrun.callersDone, hrun.callees⟩

/-- Nothing is kept for later calls before the calls are resolved. -/
theorem collect_matched : (collect p).MatchedFuncsMap = [] := by
  have hglobal : ∀ (s : MLTA) (GV : Value), s.MatchedFuncsMap = [] →
      (initializeGlobal p s GV).MatchedFuncsMap = [] :=
    fun s GV hs => initializeGlobal_noted.matched.trans hs
  have hsignature : ∀ (s : MLTA) (F : Value) info, s.MatchedFuncsMap = [] →
      (noteSignature p info F s).MatchedFuncsMap = [] := by
    intro s F info hs
    unfold noteSignature
    split <;> exact hs
  have hfunction : ∀ (s : MLTA) (M : Module) (F : Value), s.MatchedFuncsMap = [] →
      (initializeFunction p M s F).MatchedFuncsMap = [] := by
    intro s M F hs
    unfold initializeFunction
    split
    · exact hs
    · rename_i info _
      dsimp only
      split
      · exact hsignature s F info hs
      · unfold noteDefinition
        split <;> exact functionBody_noted.matched.trans (hsignature s F info hs)
  exact Folding.foldl_invariant (I := fun s : MLTA => s.MatchedFuncsMap = [])
    (fun s M _ hs => Folding.foldl_invariant (I := fun s : MLTA => s.MatchedFuncsMap = [])
      (fun s F _ hs => hfunction s M F hs)
      (Folding.foldl_invariant (I := fun s : MLTA => s.MatchedFuncsMap = [])
        (fun s GV _ hs => hglobal s GV hs) hs)) rfl

theorem run_keepsTargets (hapart : Apart p (MetLayer p)) :
    KeepsTargets p (instructions p) (run p) := by
  have hIs : ∀ I ∈ instructions p, ∃ F info, HasBody p F info ∧ I ∈ info.instructions := by
    intro I hI
    obtain ⟨M, hM, hI⟩ := List.mem_flatMap.mp hI
    obtain ⟨F, hF, hI⟩ := List.mem_flatMap.mp hI
    obtain ⟨info, hinfo, hbody, hI⟩ := mem_bodyInstructions.mp hI
    exact ⟨F, info, ⟨⟨M, hM, hF⟩, hinfo, hbody⟩, hI⟩
  have hinitial : KeepsTargets p [] { tables := mapped p } := by
    refine ⟨⟨[], ?_, fun k FS h => absurd h List.not_mem_nil⟩,
      fun CI hCI => absurd hCI List.not_mem_nil⟩
    exact congrArg (mapped p).withMatched (collect_matched (p := p))
  have hrun := hinitial.run hapart hIs
  rw [run_eq]
  exact ⟨hrun.cache, hrun.targets⟩

/-! ## No callee twice -/

/-- No call has a callee twice, and no set that is kept has a function twice. -/
structure CalleeSets (p : Program) (s : CallGraphPass) : Prop where
  tables : ∃ m, s.tables = (mapped p).withMatched m ∧ ∀ e ∈ m, e.2.Nodup
  callees : ∀ CI, (s.Callees.get CI).Nodup

theorem CalleeSets.step (hs : CalleeSets p s) : CalleeSets p (resolveCall p s I) := by
  obtain ⟨m, htables, hmatched⟩ := hs.tables
  have hcallees : ∀ {s' : CallGraphPass} {FS : List Value},
      s'.Callees = s.Callees.insert I FS → FS.Nodup → ∀ CI, (s'.Callees.get CI).Nodup := by
    intro s' FS hs' hFS CI
    rw [hs']
    by_cases hCI : CI = I
    · subst hCI
      rw [KeyMap.insert_get_self]
      exact hFS
    · rw [KeyMap.insert_get_of_ne hCI]
      exact hs.callees CI
  unfold resolveCall
  split
  · rename_i args calledOperand functionType hkind
    dsimp only
    split
    · obtain ⟨m', htables'⟩ := @findCallees_tables p s.tables calledOperand functionType
      obtain ⟨hFS, hmatched'⟩ := @findCallees_nodup p s.tables calledOperand functionType
        (by rw [htables]; exact List.nodup_dedup _) (by rw [htables]; exact List.nodup_dedup _)
        (by rw [htables]; exact hmatched)
      refine ⟨⟨m', ?_, ?_⟩, hcallees rfl hFS⟩
      · dsimp only
        rw [htables', htables]
        rfl
      · rw [htables'] at hmatched'
        exact hmatched'
    · exact ⟨hs.tables, hcallees rfl ((hs.callees I).union _)⟩
  · exact hs

theorem run_nodup (CI : Value) : ((run p).Callees.get CI).Nodup := by
  have hinitial : CalleeSets p { tables := mapped p } := by
    refine ⟨⟨[], ?_, fun e he => absurd he List.not_mem_nil⟩, fun _ => List.nodup_nil⟩
    exact congrArg (mapped p).withMatched (collect_matched (p := p))
  have hrun : CalleeSets p ((instructions p).foldl (resolveCall p) { tables := mapped p }) :=
    Folding.foldl_invariant (fun _ _ _ hs => hs.step) hinitial
  rw [run_eq]
  exact hrun.callees CI

/-- An instruction is gone through once. -/
theorem nodup_instructions (hp : WellScoped p) : (instructions p).Nodup := by
  unfold instructions
  rw [← List.flatMap_assoc]
  refine List.nodup_flatMap.mpr ⟨fun F _ => ?_, hp.functions.imp fun hne => ?_⟩
  · unfold bodyInstructions
    split
    · rename_i info hinfo
      split
      · exact List.nodup_nil
      · exact hp.once F info hinfo
    · exact List.nodup_nil
  · -- an instruction is in one function
    intro I hI hI'
    obtain ⟨info, hinfo, -, hI⟩ := mem_bodyInstructions.mp hI
    obtain ⟨info', hinfo', -, hI'⟩ := mem_bodyInstructions.mp hI'
    have hF := hp.instructions _ _ hinfo I hI
    have hG := hp.instructions _ _ hinfo' I hI'
    exact hne (Option.some.inj (hF.symm.trans hG))

/-! ## Functions and their types -/

theorem mem_signatureFuncs {t : MLTA} {h : Hash} :
    G ∈ t.signatureFuncs h ↔ (h, G) ∈ t.sigFuncsMap := by
  simp [signatureFuncs]

/-- A function of the program whose address is taken. -/
def AddressTaken (p : Program) (F : Value) (info : FunctionInfo) : Prop :=
  (∃ M ∈ p.modules, F ∈ M.functions) ∧ p.asFunction F = some info ∧ info.hasAddressTaken = true

/-- `G` is what `F` is called as: the definition of `F`. -/
def DefinedAs (p : Program) (F G : Value) : Prop := definition p (collect p) F = some G

theorem collect_signature (hp : WellScoped p) (hF : AddressTaken p F info) :
    (p.signatureHash info.functionType, F) ∈ (collect p).sigFuncsMap := by
  obtain ⟨⟨M, hM, hFM⟩, hinfo, haddress⟩ := hF
  obtain ⟨s, -, hextends⟩ := collect_function hp hM hFM
  refine hextends.sigs ?_
  have hsignature : (p.signatureHash info.functionType, F) ∈
      (noteSignature p info F s).sigFuncsMap := by
    unfold noteSignature
    rw [if_pos haddress]
    exact List.mem_insert_self
  unfold initializeFunction
  rw [hinfo]
  dsimp only
  split
  · exact hsignature
  · refine (noteDefinition_extends (G := F)).sigs ?_
    rw [functionBody_noted.sigs]
    exact hsignature

/-- What the signatures and the definitions are made of. -/
structure FromProgram (p : Program) (t : MLTA) : Prop where
  sigs : ∀ h F, (h, F) ∈ t.sigFuncsMap →
    ∃ info, AddressTaken p F info ∧ h = p.signatureHash info.functionType
  globals : ∀ x ∈ t.GlobalFuncMap, ∃ info, HasBody p x.2 info

theorem initializeFunction_fromProgram {t : MLTA} (ht : FromProgram p t) (hM : M ∈ p.modules)
    (hF : F ∈ M.functions) : FromProgram p (initializeFunction p M t F) := by
  have hsignature : ∀ info, p.asFunction F = some info →
      FromProgram p (noteSignature p info F t) := by
    intro info hinfo
    unfold noteSignature
    split
    · rename_i haddress
      refine ⟨fun h G hG => ?_, ht.globals⟩
      rcases List.mem_insert_iff.mp hG with heq | hG
      · obtain ⟨rfl, rfl⟩ := Prod.mk.inj heq
        exact ⟨info, ⟨⟨M, hM, hF⟩, hinfo, haddress⟩, rfl⟩
      · exact ht.sigs h G hG
    · exact ht
  unfold initializeFunction
  split
  · exact ht
  · rename_i info hinfo
    dsimp only
    split
    · exact hsignature info hinfo
    · rename_i hbody
      have hnotes : FromProgram p (((noteSignature p info F t).collectAliasStructPtr p M F info
          |>.typeConfineInFunction p info).typePropInFunction p info) := by
        refine ⟨fun h G hG => ?_, fun x hx => ?_⟩
        · rw [functionBody_noted.sigs] at hG
          exact (hsignature info hinfo).sigs h G hG
        · rw [functionBody_noted.globals] at hx
          exact (hsignature info hinfo).globals x hx
      unfold noteDefinition
      split
      · refine ⟨hnotes.sigs, fun x hx => ?_⟩
        rcases List.mem_cons.mp hx with rfl | hx
        · exact ⟨info, ⟨M, hM, hF⟩, hinfo, by simpa using hbody⟩
        · exact hnotes.globals x hx
      · exact hnotes

theorem collect_fromProgram : FromProgram p (collect p) := by
  have hempty : FromProgram p {} :=
    ⟨fun _ _ h => absurd h List.not_mem_nil, fun _ h => absurd h List.not_mem_nil⟩
  refine Folding.foldl_invariant (fun t M hM ht => ?_) hempty
  have hglobals : FromProgram p (M.globals.foldl (initializeGlobal p) t) := by
    have hnoted : Noted t (M.globals.foldl (initializeGlobal p) t) :=
      Noted.foldl fun _ _ _ => initializeGlobal_noted
    exact ⟨hnoted.sigs ▸ ht.sigs, hnoted.globals ▸ ht.globals⟩
  exact Folding.foldl_invariant (fun t F hF ht => initializeFunction_fromProgram ht hM hF) hglobals

/-- A definition has a body. -/
theorem DefinedAs.hasBody (h : DefinedAs p F G) (hF : ∃ M ∈ p.modules, F ∈ M.functions)
    (hinfo : p.asFunction F = some info) : ∃ infoG, HasBody p G infoG := by
  unfold DefinedAs definition at h
  rw [hinfo] at h
  dsimp only at h
  split at h
  · exact collect_fromProgram.globals _ (Association.mem_of_lookup h)
  · rename_i hbody
    cases h
    exact ⟨info, hF, hinfo, by simpa using hbody⟩

/-! ## What flows to a layer -/

/-- The program keeps a function with the definition `G` in the field, or in one that is not
known. -/
def KeepsAt (p : Program) (place : Hash × ℤ) (G : Value) : Prop :=
  ∃ F i, Keeps p (place.1, i) F ∧ DefinedAs p F G ∧ (place.2 = -1 ∨ i = place.2 ∨ i = -1)

/-- The program copies what `q` keeps to the field, or to one that is not known. -/
def ReadsFrom (p : Program) (place q : Hash × ℤ) : Prop :=
  Copies p place q ∨ Copies p (place.1, -1) q

/-- Stores and copies of the program bring `G` to a layer. -/
def FlowsTo (p : Program) (place : Hash × ℤ) (G : Value) : Prop :=
  ∃ q, Relation.ReflTransGen (ReadsFrom p) place q ∧ KeepsAt p q G

/-- **What flows to a layer is in the tables** the calls are resolved with. -/
theorem FlowsTo.flows (hp : WellScoped p) (h : FlowsTo p place G) : (mapped p).Flows place G := by
  obtain ⟨q, hreach, F, i, hkeeps, hdefined, hi⟩ := h
  refine ⟨q, ?_, i, ?_, hi⟩
  · refine Relation.ReflTransGen.mono (fun a b hab => mem_dependsOn.mpr ?_) place q hreach
    exact hab.imp (collect_copies hp) (collect_copies hp)
  · exact mem_mapDeclarations.mpr ⟨F, collect_keeps hp hkeeps, hdefined⟩

/-! ## A program with a table -/

/-- The function that allocates and calls. -/
def mainInfo : FunctionInfo where
  name := "main"
  functionType := 1
  guid := 0
  isDeclaration := false
  isIntrinsic := false
  hasAddressTaken := false
  hasExternalLinkage := true
  args := []
  instructions := [7, 8, 9, 10]

/-- A program with a table of two functions: `main` loads the second one, calls it and allocates. -/
def tableProgram : Program where
  typeKind
    | 1 => .function
    | 2 => .pointer 1
    | 3 => .struct (some "ops") true [2, 2]
    | 4 => .pointer 3
    | 5 => .pointer 2
    | _ => .other
  print t := ["i32", "void ()", "void ()*", "%ops", "%ops*", "void ()**"].getD t ""
  typeID t := t
  values :=
    [⟨.function mainInfo, 2, none⟩,
     ⟨.function ⟨"open", 1, 1, false, false, true, true, [], []⟩, 2, none⟩,
     ⟨.function ⟨"close", 1, 2, false, false, true, true, [], []⟩, 2, none⟩,
     ⟨.function ⟨"malloc", 1, 3, true, false, false, true, [], []⟩, 2, none⟩,
     ⟨.globalVariable "table" (some 5), 4, none⟩, ⟨.aggregate [1, 2], 3, none⟩,
     ⟨.constantInt 0, 0, none⟩, ⟨.gep 4 3 [6, 11], 5, some 0⟩, ⟨.load 7, 2, some 0⟩,
     ⟨.call [] 8 1, 0, some 0⟩, ⟨.call [] 3 1, 0, some 0⟩, ⟨.constantInt 1, 0, none⟩]
  modules := [⟨[4], [0, 1, 2, 3], 0, [3]⟩]
  str_hash s := BitVec.ofNat 64 (s.toList.foldl (fun h c => 31 * h + c.toNat) 7)
  stripPointerCasts v := v
  getGEPIndicesForOffset _ _ := []

/-- The table is the only layer of what `main` calls. -/
theorem tableProgram_layer {A : AliasMap} {l : Ty × ℤ} (h : WalkLayer tableProgram A (some 8) l) :
    l = (3, 1) := by
  have hfirst : nextLayers tableProgram A (some 8) = ([(3, 1)], some 4) := rfl
  have hsecond : nextLayers tableProgram A (some 4) = ([], none) := rfl
  rcases h with h | h
  · rw [hfirst] at h
    exact List.mem_singleton.mp h
  · rw [hfirst] at h
    rcases h with h | h
    · rw [hsecond] at h
      exact absurd h List.not_mem_nil
    · rw [hsecond] at h
      exact absurd h walkLayer_none

/-- The only indirect call of the program. -/
theorem tableProgram_indirect {I calledOperand functionType : Value} {args : List Value}
    (hkind : tableProgram.kind I = .call args calledOperand functionType)
    (hindirect : tableProgram.isIndirectCall calledOperand = true) : calledOperand = 8 := by
  have hI : I < 12 := Program.lt_of_kind (p := tableProgram) (by simp [hkind])
  interval_cases I
  all_goals first | cases hkind
  · rfl
  · exact absurd hindirect (by decide)

theorem tableProgram_apart : Apart tableProgram (MetLayer tableProgram) := by
  have hmet : ∀ l, MetLayer tableProgram l → l = (3, 1) := by
    rintro l ⟨F, info, I, args, calledOperand, functionType, -, -, hkind, hindirect, hwalk⟩
    obtain rfl := tableProgram_indirect hkind hindirect
    exact tableProgram_layer hwalk
  intro l l' hl hl' _
  rw [hmet l hl, hmet l' hl']

theorem tableProgram_flows {l : Ty × ℤ}
    (h : Counts tableProgram (mapped tableProgram) 1 (some 8) l) :
    FlowsTo tableProgram (tableProgram.hashidx l) 2 := by
  obtain rfl : l = (3, 1) := tableProgram_layer h.walkLayer
  have htable : tableProgram.kind 4 = .globalVariable "table" (some 5) := rfl
  have hmodule : (⟨[4], [0, 1, 2, 3], 0, [3]⟩ : Module) ∈ tableProgram.modules :=
    List.mem_cons_self
  refine ⟨_, .refl, 2, 1, ?_, rfl, .inr (.inl rfl)⟩
  exact Keeps.initializer (U := 5) (O := 2) (i := 1) hmodule List.mem_cons_self htable (by decide)
    rfl .refl (by decide) rfl rfl rfl (by decide)

/-! ## The callees -/

/-- **No target is missing**: an indirect call has every function of its type that the program
brings to each layer of the called value that counts, whatever other calls were resolved before. -/
theorem callees_sound (hp : WellScoped p) (hapart : Apart p (MetLayer p)) (hF : HasBody p F info)
    (hCI : CI ∈ info.instructions) (hkind : p.kind CI = .call args calledOperand functionType)
    (hindirect : p.isIndirectCall calledOperand = true) {infoH : FunctionInfo}
    (hH : AddressTaken p H infoH)
    (htype : p.signatureHash infoH.functionType = p.signatureHash functionType)
    (hG : DefinedAs p H G)
    (hflows : ∀ l, Counts p (mapped p) functionType (some calledOperand) l →
      FlowsTo p (p.hashidx l) G) :
    G ∈ (run p).Callees.get CI := by
  refine (run_keepsTargets hapart).targets CI (hF.mem_instructions hCI) args calledOperand
    functionType hkind hindirect G ?_ fun l hl => (hflows l hl).flows hp
  exact mem_signatureFuncs.mpr (mem_mapDeclarations.mpr
    ⟨H, htype ▸ collect_signature hp hH, hG⟩)

theorem callees_sound_table : 2 ∈ (run tableProgram).Callees.get 9 := by
  have hmain : HasBody tableProgram 0 mainInfo :=
    ⟨⟨_, List.mem_cons_self, List.mem_cons_self⟩, rfl, rfl⟩
  have hclose : AddressTaken tableProgram 2 ⟨"close", 1, 2, false, false, true, true, [], []⟩ :=
    ⟨⟨_, List.mem_cons_self, by decide⟩, rfl, rfl⟩
  exact callees_sound (by decide) tableProgram_apart hmain (by decide) rfl (by decide) hclose rfl rfl
    fun l hl => tableProgram_flows hl

/-- **Every target has the type of the call**: a callee of an indirect call is a function with a
body, and the definition of a function whose address is taken and whose type has the hash of the
type of the call. -/
theorem callees_typed (hkind : p.kind CI = .call args calledOperand functionType)
    (hindirect : p.isIndirectCall calledOperand = true) (hG : G ∈ (run p).Callees.get CI) :
    (∃ infoG, HasBody p G infoG) ∧ ∃ H infoH, AddressTaken p H infoH ∧ DefinedAs p H G ∧
      p.signatureHash infoH.functionType = p.signatureHash functionType := by
  have hmem := run_resolved.typed CI args calledOperand functionType hkind hindirect G hG
  obtain ⟨H, hH, hdefined⟩ := mem_mapDeclarations.mp (mem_signatureFuncs.mp hmem)
  obtain ⟨infoH, haddress, htype⟩ := collect_fromProgram.sigs _ _ hH
  exact ⟨DefinedAs.hasBody hdefined haddress.1 haddress.2.1, H, infoH, haddress, hdefined, htype.symm⟩

theorem callees_typed_table : (∃ infoG, HasBody tableProgram 2 infoG) ∧
    ∃ H infoH, AddressTaken tableProgram H infoH ∧ DefinedAs tableProgram H 2 ∧
      tableProgram.signatureHash infoH.functionType = tableProgram.signatureHash 1 := by
  have hkind : tableProgram.kind 9 = .call [] 8 1 := rfl
  exact callees_typed hkind (by decide) (by decide +kernel)

/-- **A direct call has one callee**: the definition of the function that it calls, or the function
itself where no module defines it. -/
theorem direct_callee (hF : HasBody p F info) (hCI : CI ∈ info.instructions)
    (hkind : p.kind CI = .call args calledOperand functionType)
    (hdirect : p.isIndirectCall calledOperand = false) {CF : FunctionInfo}
    (hCF : p.asFunction calledOperand = some CF) :
    (run p).Callees.get CI = [(definition p (collect p) calledOperand).getD calledOperand] := by
  have hcallee : directCallee p (mapped p) calledOperand =
      some ((definition p (collect p) calledOperand).getD calledOperand) := by
    unfold directCallee definition
    rw [hCF, Option.map_some]
    dsimp only
    cases CF.isDeclaration with
    | true => rfl
    | false => rfl
  rw [run_resolved.direct CI args calledOperand functionType hkind hdirect,
    if_pos (hF.mem_instructions hCI), hcallee]
  rfl

theorem direct_callee_table : (run tableProgram).Callees.get 10 = [3] := by
  have hmain : HasBody tableProgram 0 mainInfo :=
    ⟨⟨_, List.mem_cons_self, List.mem_cons_self⟩, rfl, rfl⟩
  have hkind : tableProgram.kind 10 = .call [] 3 1 := rfl
  have hmalloc : tableProgram.asFunction 3 =
      some ⟨"malloc", 1, 3, true, false, false, true, [], []⟩ := rfl
  exact direct_callee hmain (by decide) hkind (by decide) hmalloc

/-- **Callers and callees agree.** -/
theorem callers_iff (hp : WellScoped p) :
    (G, CI) ∈ (run p).Callers ↔ G ∈ (run p).Callees.get CI :=
  ⟨run_resolved.callees (nodup_instructions hp) G CI, run_resolved.callers G CI⟩

/-- The entry of the table for the indirect call, and the direct call of the heap function. -/
theorem callers_iff_table :
    (2, 9) ∈ (run tableProgram).Callers ∧ (3, 10) ∈ (run tableProgram).Callers ∧
      (3, 9) ∉ (run tableProgram).Callers := by
  have hscoped : WellScoped tableProgram := by decide
  exact ⟨(callers_iff hscoped).mpr (by decide +kernel), (callers_iff hscoped).mpr (by decide +kernel),
    fun hcaller => absurd ((callers_iff hscoped).mp hcaller) (by decide +kernel)⟩

end CallGraphPass

end Semalloc
