import Semalloc.Frontend.MLTA
import Semalloc.Library.Folding
import Semalloc.Library.Container

/-!
# Casts to struct pointers

The result of a call that a function casts once to a struct pointer is known as that struct. What is
known of the casts is kept by function, and the layers of a value depend on the casts of its own
function only.

## Main definitions

* `Agree`: two maps know a set of values as the same struct pointers
* `AliasCalls`: only results of calls are known as struct pointers

## Main results

* `getBaseTypeChain_congr`: the layers of a value depend on what is known of the values it is made of
* `collectAliasStructPtr_lookup`: a function leaves what is known of the other functions
-/

set_option autoImplicit false

namespace Semalloc

namespace MLTA

variable {p : Program} {A A' : AliasMap} {s : MLTA} {F G V I : Value} {info : FunctionInfo}
  {M : Module}

/-! ## Layers and casts -/

section Casts

variable {S : Value → Prop} {fuel : ℕ} {w : Program.Walk} {CV : Option Value}
  {Visited : List Value}

/-- The values of a set are made of values of the set. -/
def Closed (p : Program) (S : Value → Prop) : Prop := ∀ v, S v → ∀ u ∈ p.operands v, S u

/-- Two maps know the values of a set as the same struct pointers. -/
def Agree (p : Program) (S : Value → Prop) (A A' : AliasMap) : Prop :=
  ∀ v, S v → p.recoverBaseType A v = p.recoverBaseType A' v

theorem getGEPLayerTypes_congr (hA : Agree p S A A') {pointer ETy : ℕ} {indices : List Value}
    (hpointer : S pointer) :
    p.getGEPLayerTypes A V pointer ETy indices = p.getGEPLayerTypes A' V pointer ETy indices := by
  unfold Program.getGEPLayerTypes
  rw [hA pointer hpointer]

theorem nextLayerBaseType_congr (hS : Closed p S) (hA : Agree p S A A') (hV : S V) :
    p.nextLayerBaseType A fuel V w = p.nextLayerBaseType A' fuel V w := by
  induction fuel generalizing V w with
  | zero => rfl
  | succ fuel ih =>
    unfold Program.nextLayerBaseType
    split
    · rfl
    · have hop : ∀ u ∈ (p.kind V).operands, S u := hS V hV
      dsimp only
      split
      · rename_i pointer ETy indices hkind
        have hpointer : S pointer := hop pointer (hkind ▸ List.mem_cons_self)
        simp only [getGEPLayerTypes_congr hA hpointer]
      · rename_i operand hkind
        exact ih (hop operand (hkind ▸ List.mem_cons_self))
      · rename_i operand hkind
        exact ih (hop operand (hkind ▸ List.mem_cons_self))
      · rename_i condition operand falseValue hkind
        exact ih (hop operand (hkind ▸ List.mem_cons_of_mem _ List.mem_cons_self))
      · rename_i operand hkind
        exact ih (hop operand (hkind ▸ List.mem_cons_self))
      · rename_i incoming hkind
        have hincoming : ∀ u ∈ incoming, S u := fun u hu => hop u (hkind ▸ hu)
        exact List.foldl_ext _ _ _ fun x IV hIV => by rw [ih (hincoming IV hIV)]
      · rfl

/-- A walk through the values of a set stays in it. -/
theorem nextLayerBaseType_nextV (hS : Closed p S) (hV : S V) (hw : ∀ v ∈ w.NextV, S v) :
    ∀ v ∈ (p.nextLayerBaseType A fuel V w).2.NextV, S v := by
  induction fuel generalizing V w with
  | zero => exact hw
  | succ fuel ih =>
    unfold Program.nextLayerBaseType
    split
    · rintro v ⟨⟩
      exact hV
    · have hop : ∀ u ∈ (p.kind V).operands, S u := hS V hV
      have hsome : ∀ {u}, S u → ∀ v ∈ some u, S v := by
        rintro u hu v ⟨⟩
        exact hu
      dsimp only
      split
      · rename_i pointer ETy indices hkind
        intro v hv
        dsimp only at hv
        split at hv
        · cases hv
        · exact hsome (hop pointer (hkind ▸ List.mem_cons_self)) v hv
      · rename_i operand hkind
        have hu := hop operand (hkind ▸ List.mem_cons_self)
        exact ih hu (hsome hu)
      · rename_i operand hkind
        have hu := hop operand (hkind ▸ List.mem_cons_self)
        exact ih hu (hsome hu)
      · rename_i condition operand falseValue hkind
        have hu := hop operand (hkind ▸ List.mem_cons_of_mem _ List.mem_cons_self)
        exact ih hu (hsome hu)
      · rename_i operand hkind
        have hu := hop operand (hkind ▸ List.mem_cons_self)
        exact ih hu (hsome hu)
      · rename_i incoming hkind
        have hincoming : ∀ u ∈ incoming, S u := fun u hu => hop u (hkind ▸ hu)
        exact Folding.foldl_invariant (I := fun x : Bool × Program.Walk => ∀ v ∈ x.2.NextV, S v)
          (fun x IV hIV _ => ih (hincoming IV hIV) (hsome (hincoming IV hIV))) hw
      · rintro v ⟨⟩

theorem getBaseType_congr (hS : Closed p S) (hA : Agree p S A A') (hV : S V) :
    p.getBaseType A fuel V Visited = p.getBaseType A' fuel V Visited := by
  induction fuel generalizing V Visited with
  | zero => rfl
  | succ fuel ih =>
    have hown : p.ownBaseType A V = p.ownBaseType A' V := by
      unfold Program.ownBaseType
      rw [hA V hV]
    unfold Program.getBaseType
    rw [hown]
    split
    · rfl
    · have hop : ∀ u ∈ (p.kind V).operands, S u := hS V hV
      dsimp only
      split
      · rfl
      · split
        · rename_i operand hkind
          exact ih (hop operand (hkind ▸ List.mem_cons_self))
        · rename_i condition operand falseValue hkind
          exact ih (hop operand (hkind ▸ List.mem_cons_of_mem _ List.mem_cons_self))
        · rename_i operand hkind
          exact ih (hop operand (hkind ▸ List.mem_cons_self))
        · rename_i incoming hkind
          have hincoming : ∀ u ∈ incoming, S u := fun u hu => hop u (hkind ▸ hu)
          exact List.foldl_ext _ _ _ fun x IV hIV => by rw [ih (hincoming IV hIV)]
        · rfl

theorem walkChain_congr (hS : Closed p S) (hA : Agree p S A A') (hCV : ∀ v ∈ CV, S v)
    (hw : ∀ v ∈ w.NextV, S v) : p.walkChain A fuel CV w = p.walkChain A' fuel CV w := by
  induction fuel generalizing CV w with
  | zero => rfl
  | succ fuel ih =>
    cases CV with
    | none => rfl
    | some V =>
      have hV : S V := hCV V rfl
      unfold Program.walkChain
      rw [nextLayerBaseType_congr hS hA hV]
      have hnext : ∀ v ∈ (p.nextLayerBaseType A' p.walkFuel V w).2.NextV, S v :=
        nextLayerBaseType_nextV hS hV hw
      dsimp only
      split
      · exact ih hnext hnext
      · rfl

/-- **The layers of a value** depend on what is known of the values it is made of. -/
theorem getBaseTypeChain_congr (hS : Closed p S) (hA : Agree p S A A') (hV : S V) :
    p.getBaseTypeChain A V = p.getBaseTypeChain A' V := by
  have hwalk : p.walkChain A p.walkFuel (some V) {} = p.walkChain A' p.walkFuel (some V) {} := by
    refine walkChain_congr hS hA ?_ ?_
    · rintro v ⟨⟩
      exact hV
    · rintro v ⟨⟩
  unfold Program.getBaseTypeChain
  rw [hwalk, getBaseType_congr hS hA hV]

end Casts

/-! ## The casts of a function -/

/-- Only results of calls are known as struct pointers. -/
def AliasCalls (p : Program) (A : AliasMap) : Prop :=
  ∀ x ∈ A, ∃ args calledOperand functionType,
    p.kind x.1.2 = .call args calledOperand functionType

theorem collectCast_calls {x : AliasMap × List Value} (hx : AliasCalls p x.1) :
    AliasCalls p (collectCast p M F x I).1 := by
  unfold collectCast
  split
  · split
    · rename_i args calledOperand functionType hcall
      split
      · split
        · exact hx
        · rintro e he
          rcases List.mem_cons.mp he with rfl | he
          · exact ⟨args, calledOperand, functionType, hcall⟩
          · exact hx e he
      · exact hx
    · exact hx
  · exact hx

theorem collectCast_lookup {x : AliasMap × List Value} (hG : G ≠ F) (v : Value) :
    (collectCast p M F x I).1.lookup (G, v) = x.1.lookup (G, v) := by
  unfold collectCast
  split
  · split
    · split
      · split
        · rfl
        · exact Association.lookup_cons_of_ne fun h => hG (congrArg Prod.fst h)
      · rfl
    · rfl
  · rfl

/-- Collecting the casts of a function leaves what is known of the other functions. -/
theorem collectAliasStructPtr_lookup (hG : G ≠ F) (v : Value) :
    (s.collectAliasStructPtr p M F info).AliasStructPtrMap.lookup (G, v) =
      s.AliasStructPtrMap.lookup (G, v) := by
  unfold collectAliasStructPtr
  rw [Association.lookup_filter fun c => by simp [hG]]
  exact Folding.foldl_invariant
    (I := fun x : AliasMap × List Value => x.1.lookup (G, v) = s.AliasStructPtrMap.lookup (G, v))
    (fun x I _ hx => (collectCast_lookup hG v).trans hx) rfl

theorem collectAliasStructPtr_calls (hs : AliasCalls p s.AliasStructPtrMap) :
    AliasCalls p (s.collectAliasStructPtr p M F info).AliasStructPtrMap := by
  have hfold : AliasCalls p (info.instructions.foldl (collectCast p M F)
      (s.AliasStructPtrMap, [])).1 :=
    Folding.foldl_invariant (I := fun x : AliasMap × List Value => AliasCalls p x.1)
      (fun x I _ hx => collectCast_calls hx) hs
  exact fun x hx => hfold x (List.mem_of_mem_filter hx)

end MLTA

end Semalloc
