import Semalloc.Frontend.MLTA
import Semalloc.Library.Container
import Semalloc.Library.Folding

/-!
# Resolving an indirect call

A call starts with the functions of its type and keeps those that each layer of the called value may
hold. What was found for a layer is kept under the hash of the layer, and two sets are used again
without being cleared; both let functions through that the tables do not justify. A function that
the tables do put at every layer is never lost, whatever was resolved before.

## Main definitions

* `WalkLayer`: the layers that the walks from a value meet
* `Counts`: the layers that count, before the first that is capped or escaped
* `Flows`: the functions whose copies reach a layer
* `CacheSound`: what was kept has the functions of its layer

## Main results

* `findCallees_keeps`: a function that flows to every layer that counts is found
* `findCallees_signature`: what is found has the type of the call
* `resolveLoop_fuel`: the loop over the layers ends
* `findCallees_nodup`: no function is found twice
-/

set_option autoImplicit false

namespace Semalloc

namespace MLTA

open Relation

variable {p : Program} {A : AliasMap} {s s' T : MLTA} {place q : Hash × ℤ} {F G : Value}
  {l : Ty × ℤ} {x y : Resolving × MLTA} {TyList : List (Ty × ℤ)} {CV NextV : Option Value}
  {prev : Ty} {met : Ty × ℤ → Prop} {t : Resolving} {m : List (Hash × List Value)}

/-! ## Layers that count -/

/-- The layers that the walks from a value meet, one walk after the other. -/
inductive WalkLayer (p : Program) (A : AliasMap) : Option Value → Ty × ℤ → Prop
  | here {CV : Option Value} {l : Ty × ℤ} (h : l ∈ (nextLayers p A CV).1) : WalkLayer p A CV l
  | next {CV : Option Value} {l : Ty × ℤ} (h : WalkLayer p A (nextLayers p A CV).2 l) :
    WalkLayer p A CV l

theorem walkLayer_none : ¬ WalkLayer p A none l := by
  intro h
  generalize hCV : (none : Option Value) = CV at h
  induction h with
  | here h =>
    subst hCV
    exact absurd h List.not_mem_nil
  | next _ ih =>
    subst hCV
    exact ih rfl

/-- The analysis has lost track of a layer, or of all fields of its type. -/
def Escaped (p : Program) (s : MLTA) (l : Ty × ℤ) : Prop :=
  p.typeIdxHash l ∈ s.typeEscapeSet ∨ p.typeIdxHash (l.1, -1) ∈ s.typeEscapeSet

instance (p : Program) (s : MLTA) (l : Ty × ℤ) : Decidable (Escaped p s l) :=
  inferInstanceAs (Decidable (_ ∨ _))

/-- It is not known where the type of the layer goes on to. -/
def Capped (p : Program) (s : MLTA) (l : Ty × ℤ) : Prop := p.typeHash l.1 ∈ s.typeCapSet

instance (p : Program) (s : MLTA) (l : Ty × ℤ) : Decidable (Capped p s l) :=
  inferInstanceAs (Decidable (_ ∈ _))

/-- The layers up to the first that is capped, before the first that has escaped. -/
def countedLayers (p : Program) (s : MLTA) : List (Ty × ℤ) → List (Ty × ℤ)
  | [] => []
  | l :: TyList =>
    if Escaped p s l then []
    else if Capped p s l then [l]
    else l :: countedLayers p s TyList

/-- The layers that count for a value, after a layer of type `prev`. -/
inductive Counts (p : Program) (s : MLTA) : Ty → Option Value → Ty × ℤ → Prop
  | here {prev : Ty} {CV : Option Value} {l : Ty × ℤ} (hprev : p.typeHash prev ∉ s.typeCapSet)
    (h : l ∈ countedLayers p s (nextLayers p s.AliasStructPtrMap CV).1) : Counts p s prev CV l
  | next {prev : Ty} {CV : Option Value} {l last : Ty × ℤ}
    (hprev : p.typeHash prev ∉ s.typeCapSet)
    (hlast : (countedLayers p s (nextLayers p s.AliasStructPtrMap CV).1).getLast? = some last)
    (h : Counts p s last.1 (nextLayers p s.AliasStructPtrMap CV).2 l) : Counts p s prev CV l

theorem countedLayers_subset : countedLayers p s TyList ⊆ TyList := by
  induction TyList with
  | nil => exact List.Subset.refl _
  | cons l TyList ih =>
    unfold countedLayers
    split
    · exact List.nil_subset _
    · split
      · exact List.cons_subset.mpr ⟨List.mem_cons_self, List.nil_subset _⟩
      · exact List.cons_subset_cons l ih

/-- A layer that counts is met by the walks. -/
theorem Counts.walkLayer (h : Counts p s prev CV l) : WalkLayer p s.AliasStructPtrMap CV l := by
  induction h with
  | here _ h => exact .here (countedLayers_subset h)
  | next _ _ _ ih => exact .next ih

/-- `F` is kept at a layer whose contents reach the place. -/
def Flows (s : MLTA) (place : Hash × ℤ) (F : Value) : Prop :=
  ∃ q, ReflTransGen s.DependsOn place q ∧ s.KeptAt q F

/-! ## What was kept -/

/-- The tables with other functions kept for later calls. -/
def withMatched (s : MLTA) (m : List (Hash × List Value)) : MLTA := { s with MatchedFuncsMap := m }

/-- Whatever was kept belongs to a layer in `met` that has not escaped, and has all functions that
flow there. -/
def CacheSound (p : Program) (T : MLTA) (met : Ty × ℤ → Prop) (m : List (Hash × List Value)) :
    Prop :=
  ∀ k FS, (k, FS) ∈ m → ∃ l, met l ∧ p.typeIdxHash l = k ∧ ¬ Escaped p T l ∧
    ∀ G, T.Flows (p.hashidx l) G → G ∈ FS

/-- No two layers in `met` have the same hash, but for layers at the same place. -/
def Apart (p : Program) (met : Ty × ℤ → Prop) : Prop :=
  ∀ l l', met l → met l' → p.typeIdxHash l = p.typeIdxHash l' → p.hashidx l = p.hashidx l'

theorem escaped_of_hashidx {l' : Ty × ℤ} (h : p.hashidx l = p.hashidx l') :
    Escaped p T l ↔ Escaped p T l' := by
  obtain ⟨hhash, hidx⟩ := Prod.mk.inj h
  unfold Escaped Program.typeIdxHash
  rw [hhash, hidx]

/-- What the layers behind a layer keep is collected with it. -/
theorem mem_foldl_targets {order : List (Hash × ℤ)} {FS1 FS2 : List Value}
    (h : G ∈ FS1 ∨ ∃ q ∈ order, s.KeptAt q G) :
    G ∈ (order.foldl (fun y place => (s.getTargetsWithLayerType place y.2 ∪ y.1,
      s.getTargetsWithLayerType place y.2)) (FS1, FS2)).1 := by
  induction order generalizing FS1 FS2 with
  | nil =>
    rcases h with h | ⟨q, hq, -⟩
    · exact h
    · exact absurd hq List.not_mem_nil
  | cons place order ih =>
    rw [List.foldl_cons]
    refine ih ?_
    rcases h with h | ⟨q, hq, hkept⟩
    · exact .inl (List.mem_union_iff.mpr (.inr h))
    · rcases List.mem_cons.mp hq with rfl | hq
      · exact .inl (List.mem_union_iff.mpr (.inl hkept.mem_getTargets))
      · exact .inr ⟨q, hq, hkept⟩

/-- An escaped layer gives nothing. What is collected for another has all functions that flow there,
and only what is kept for later calls changes in the tables. -/
theorem collectTargets_spec (hapart : Apart p met) (hcache : CacheSound p T met m) (hl : met l) :
    (Escaped p T l ∧ collectTargets p l (t, T.withMatched m) = none) ∨
    (¬ Escaped p T l ∧ ∃ FS1 FS2 m', collectTargets p l (t, T.withMatched m) =
        some ({ t with FS1 := FS1, FS2 := FS2 }, T.withMatched m') ∧
      CacheSound p T met m' ∧ ∀ G, T.Flows (p.hashidx l) G → G ∈ FS1) := by
  unfold collectTargets
  cases hlookup : (T.withMatched m).MatchedFuncsMap.lookup (p.typeIdxHash l) with
  | some FS =>
    -- what was kept under the hash of the layer was collected for the same place
    obtain ⟨l', hl', hhash, hesc, hFS⟩ := hcache _ _ (Association.mem_of_lookup hlookup)
    have hplace := hapart l l' hl hl' hhash.symm
    exact .inr ⟨fun h => hesc ((escaped_of_hashidx hplace).mp h), FS, t.FS2, m, rfl, hcache,
      fun G hG => hFS G (hplace ▸ hG)⟩
  | none =>
    dsimp only
    split
    · rename_i hesc
      exact .inl ⟨.inl hesc, rfl⟩
    · rename_i hown
      split
      · rename_i hesc
        exact .inl ⟨.inr hesc, rfl⟩
      · rename_i hall
        have hesc : ¬ Escaped p T l := fun h => h.elim hown hall
        have hfound : ∀ G, T.Flows (p.hashidx l) G → G ∈ ((T.getDependentTypes
            (p.hashidx l)).foldl (fun y place =>
              (T.getTargetsWithLayerType place y.2 ∪ y.1, T.getTargetsWithLayerType place y.2))
            (T.getTargetsWithLayerType (p.hashidx l) t.FS1, t.FS2)).1 := by
          rintro G ⟨q, hreach, hkept⟩
          refine mem_foldl_targets ?_
          rcases reflTransGen_iff_eq_or_transGen.mp hreach with rfl | hreach
          · exact .inl hkept.mem_getTargets
          · exact .inr ⟨q, mem_getDependentTypes.mpr hreach, hkept⟩
        refine .inr ⟨hesc, _, _, _, rfl, ?_, hfound⟩
        intro k FS hmem
        rcases List.mem_cons.mp hmem with heq | hmem
        · obtain ⟨rfl, rfl⟩ := Prod.mk.inj heq
          exact ⟨l, hl, rfl, hesc, hfound⟩
        · exact hcache k FS hmem

/-! ## The layers of one walk -/

/-- What a loop over layers leaves: the tables but for the sets kept for later calls, a smaller set
of functions and no fewer layers done. -/
structure Narrows (x y : Resolving × MLTA) : Prop where
  tables : ∃ m, y.2 = x.2.withMatched m
  subset : ∀ F ∈ y.1.FS, F ∈ x.1.FS
  layers : x.1.LayerNo ≤ y.1.LayerNo

theorem Narrows.refl (x : Resolving × MLTA) : Narrows x x where
  tables := ⟨x.2.MatchedFuncsMap, rfl⟩
  subset _ h := h
  layers := le_refl _

theorem Narrows.trans {z : Resolving × MLTA} (h : Narrows x y) (h' : Narrows y z) :
    Narrows x z where
  tables := by
    obtain ⟨m, hm⟩ := h.tables
    obtain ⟨m', hm'⟩ := h'.tables
    exact ⟨m', by rw [hm', hm]; rfl⟩
  subset F hF := h.subset F (h'.subset F hF)
  layers := h.layers.trans h'.layers

/-- Collecting leaves the functions that are left and the tables. -/
theorem collectTargets_narrows (h : collectTargets p l x = some y) :
    Narrows x y ∧ y.1.FS = x.1.FS ∧ y.1.LayerNo = x.1.LayerNo := by
  unfold collectTargets at h
  split at h
  · cases h
    exact ⟨⟨⟨_, rfl⟩, fun _ h => h, le_refl _⟩, rfl, rfl⟩
  · split at h
    · cases h
    · split at h
      · cases h
      · cases h
        exact ⟨⟨⟨_, rfl⟩, fun _ h => h, le_refl _⟩, rfl, rfl⟩

theorem resolveLayers_narrows : Narrows x (resolveLayers p NextV TyList x) := by
  induction TyList generalizing x with
  | nil => exact .refl x
  | cons l TyList ih =>
    unfold resolveLayers
    split
    · exact .refl x
    · dsimp only
      split
      · exact ⟨⟨_, rfl⟩, fun _ h => h, Nat.le_succ _⟩
      · rename_i t s hcollect
        obtain ⟨hnarrow, hFS, hlayer⟩ := collectTargets_narrows hcollect
        -- what the layer does not have is taken out of the set
        have hstep : ∀ t' : Resolving, t'.FS = t.FS1.filter (· ∈ t.FS) → t'.LayerNo = t.LayerNo →
            Narrows x (t', s) := by
          intro t' hFS' hlayer'
          refine ⟨hnarrow.tables, fun F hF => ?_, ?_⟩
          · rw [hFS'] at hF
            exact hFS ▸ of_decide_eq_true (List.mem_filter.mp hF).2
          · rw [hlayer', hlayer]
            exact Nat.le_succ _
        split
        · exact hstep _ rfl rfl
        · refine .trans ?_ ih
          exact hstep _ rfl rfl

/-- A walk that found a layer is counted. -/
theorem resolveLayers_layerNo (hTyList : TyList ≠ []) (hlayer : x.1.LayerNo < maxTypeLayer) :
    x.1.LayerNo < (resolveLayers p NextV TyList x).1.LayerNo := by
  cases TyList with
  | nil => exact absurd rfl hTyList
  | cons l TyList =>
    unfold resolveLayers
    rw [if_neg (not_le.mpr hlayer)]
    dsimp only
    split
    · exact Nat.lt_succ_self _
    · rename_i t s hcollect
      obtain ⟨-, -, hlayer'⟩ := collectTargets_narrows hcollect
      have hlt : x.1.LayerNo < t.LayerNo := Nat.lt_of_lt_of_eq (Nat.lt_succ_self _) hlayer'.symm
      split
      · exact hlt
      · refine Nat.lt_of_lt_of_le ?_ resolveLayers_narrows.layers
        exact hlt

/-- Where the loop over the layers goes on from after a walk: from where it was when no layer counts,
and otherwise from behind the last one that does. -/
def GoesOn (p : Program) (T : MLTA) (NextV : Option Value) (TyList : List (Ty × ℤ))
    (t t' : Resolving) : Prop :=
  countedLayers p T TyList = [] ∧ t'.PrevLayerTy = t.PrevLayerTy ∧ t'.CV = t.CV ∨
    ∃ last, (countedLayers p T TyList).getLast? = some last ∧
      t'.PrevLayerTy = last.1 ∧ t'.CV = NextV

/-- **The layers of one walk**: a function that flows to all of them that count stays. -/
theorem resolveLayers_spec (hapart : Apart p met) (hcache : CacheSound p T met m)
    (hmet : ∀ l ∈ TyList, met l) :
    ∃ t' m', resolveLayers p NextV TyList (t, T.withMatched m) = (t', T.withMatched m') ∧
      CacheSound p T met m' ∧
      (t'.ContinueNextLayer = true → t'.LayerNo < maxTypeLayer →
        GoesOn p T NextV TyList t t') ∧
      ∀ G ∈ t.FS, (∀ l ∈ countedLayers p T TyList, T.Flows (p.hashidx l) G) → G ∈ t'.FS := by
  induction TyList generalizing t m with
  | nil => exact ⟨t, m, rfl, hcache, fun _ _ => .inl ⟨rfl, rfl, rfl⟩, fun _ hG _ => hG⟩
  | cons l TyList ih =>
    unfold resolveLayers
    split
    · rename_i hlayer
      exact ⟨t, m, rfl, hcache, fun _ h => absurd h (not_lt.mpr hlayer), fun _ hG _ => hG⟩
    · dsimp only
      rcases collectTargets_spec (t := { t with LayerNo := t.LayerNo + 1 }) hapart hcache
        (hmet l List.mem_cons_self) with ⟨hesc, hnone⟩ | ⟨hesc, FS1, FS2, m', hsome, hcache', hFS1⟩
      · rw [hnone]
        -- a layer that escaped ends the list, and the layers behind it do not count
        exact ⟨_, m, rfl, hcache, fun _ _ => .inl ⟨if_pos hesc, rfl, rfl⟩, fun _ hG _ => hG⟩
      · rw [hsome]
        -- a layer that did not escape counts, whether its type is capped or not
        have hcounted : l ∈ countedLayers p T (l :: TyList) := by
          unfold countedLayers
          rw [if_neg hesc]
          split
          · exact List.mem_singleton_self l
          · exact List.mem_cons_self
        have hkept : ∀ G ∈ t.FS,
            (∀ l' ∈ countedLayers p T (l :: TyList), T.Flows (p.hashidx l') G) →
              G ∈ FS1.filter (· ∈ t.FS) := fun G hG hflows =>
          List.mem_filter.mpr ⟨hFS1 G (hflows l hcounted), decide_eq_true hG⟩
        dsimp only
        split
        · exact ⟨_, m', rfl, hcache', fun h => absurd h Bool.false_ne_true, hkept⟩
        · rename_i hcap
          have hcons : countedLayers p T (l :: TyList) = l :: countedLayers p T TyList := by
            rw [countedLayers, if_neg hesc]
            exact if_neg hcap
          obtain ⟨t', m'', heq, hcache'', hon, hG'⟩ := @ih { t with
              LayerNo := t.LayerNo + 1, FS1 := FS1, FS2 := FS1.filter (· ∈ t.FS)
              FS := FS1.filter (· ∈ t.FS), CV := NextV, PrevLayerTy := l.1 } m' hcache'
            (fun l' hl' => hmet l' (List.mem_cons_of_mem l hl'))
          refine ⟨t', m'', heq, hcache'', fun hcontinue hlayer => .inr ?_, fun G hG hflows => ?_⟩
          · rw [hcons]
            rcases hon hcontinue hlayer with ⟨hnil, hprev, hCV⟩ | ⟨last, hlast, hprev, hCV⟩
            · exact ⟨l, by rw [hnil]; rfl, hprev, hCV⟩
            · exact ⟨last, by rw [List.getLast?_cons, hlast]; rfl, hprev, hCV⟩
          · exact hG' G (hkept G hG hflows) fun l' hl' =>
              hflows l' (hcons ▸ List.mem_cons_of_mem l hl')

/-! ## The loop over the layers -/

theorem resolveLoop_narrows {fuel : ℕ} : Narrows x (resolveLoop p fuel x) := by
  induction fuel generalizing x with
  | zero => exact .refl x
  | succ fuel ih =>
    unfold resolveLoop
    split
    · exact .refl x
    · dsimp only
      split
      · exact .refl x
      · exact resolveLayers_narrows.trans ih

/-- **The loop over the layers ends**: each turn counts a layer, so ten turns are as good as more. -/
theorem resolveLoop_fuel {fuel fuel' : ℕ} (h : maxTypeLayer < x.1.LayerNo + fuel)
    (h' : maxTypeLayer < x.1.LayerNo + fuel') : resolveLoop p fuel x = resolveLoop p fuel' x := by
  have hstop : ∀ {fuel}, maxTypeLayer ≤ x.1.LayerNo → resolveLoop p fuel x = x := by
    intro fuel hlayer
    cases fuel with
    | zero => rfl
    | succ fuel => exact if_pos (.inr (.inl hlayer))
  induction fuel generalizing fuel' x with
  | zero => rw [hstop (by omega), hstop (by omega)]
  | succ fuel ih =>
    cases fuel' with
    | zero => rw [hstop (by omega), hstop (by omega)]
    | succ fuel' =>
      unfold resolveLoop
      split
      · rfl
      · rename_i hgo
        have hlayer : x.1.LayerNo < maxTypeLayer := by
          simp only [not_or, not_le] at hgo
          exact hgo.2.1
        dsimp only
        split
        · rfl
        · rename_i hne
          have hlt : x.1.LayerNo < (resolveLayers p (nextLayers p x.2.AliasStructPtrMap x.1.CV).2
              (nextLayers p x.2.AliasStructPtrMap x.1.CV).1 x).1.LayerNo :=
            resolveLayers_layerNo (fun h => hne (List.isEmpty_iff.mpr h)) hlayer
          refine ih (by omega) (by omega) fun {fuel} hlayer => ?_
          cases fuel with
          | zero => rfl
          | succ fuel => exact if_pos (.inr (.inl hlayer))

/-- **The loop over the layers**: a function that flows to all layers that count stays. -/
theorem resolveLoop_spec {fuel : ℕ} (hapart : Apart p met) (hcache : CacheSound p T met m)
    (hmet : ∀ l, WalkLayer p T.AliasStructPtrMap t.CV l → met l) :
    ∃ t' m', resolveLoop p fuel (t, T.withMatched m) = (t', T.withMatched m') ∧
      CacheSound p T met m' ∧
      ∀ G ∈ t.FS, (∀ l, Counts p T t.PrevLayerTy t.CV l → T.Flows (p.hashidx l) G) →
        G ∈ t'.FS := by
  induction fuel generalizing t m with
  | zero => exact ⟨t, m, rfl, hcache, fun _ hG _ => hG⟩
  | succ fuel ih =>
    unfold resolveLoop
    split
    · exact ⟨t, m, rfl, hcache, fun _ hG _ => hG⟩
    · rename_i hgo
      simp only [not_or] at hgo
      obtain ⟨-, -, hprev⟩ := hgo
      dsimp only
      split
      · exact ⟨t, m, rfl, hcache, fun _ hG _ => hG⟩
      · obtain ⟨t', m', heq, hcache', hon, hG⟩ :=
          @resolveLayers_spec p T (nextLayers p T.AliasStructPtrMap t.CV).1
            (nextLayers p T.AliasStructPtrMap t.CV).2 met t m hapart hcache
            fun l hl => hmet l (.here hl)
        have hwalk : ∀ G ∈ t.FS, (∀ l, Counts p T t.PrevLayerTy t.CV l →
            T.Flows (p.hashidx l) G) → G ∈ t'.FS := fun G hmem hflows =>
          hG G hmem fun l hl => hflows l (.here hprev hl)
        -- the loop asks once more before it ends, so the last round changes nothing
        by_cases hend : t'.ContinueNextLayer = false ∨ maxTypeLayer ≤ t'.LayerNo
        · refine ⟨t', m', ?_, hcache', hwalk⟩
          have hstop : resolveLoop p fuel (t', T.withMatched m') = (t', T.withMatched m') := by
            cases fuel with
            | zero => rfl
            | succ fuel => exact if_pos (hend.elim .inl fun h => .inr (.inl h))
          rw [← hstop, ← heq]
          rfl
        · simp only [not_or, Bool.not_eq_false, not_le] at hend
          -- the layers behind the walk count for what came before it
          have hbehind : ∀ l, WalkLayer p T.AliasStructPtrMap t'.CV l →
              WalkLayer p T.AliasStructPtrMap t.CV l := by
            intro l hl
            rcases hon hend.1 hend.2 with ⟨-, -, hCV⟩ | ⟨last, -, -, hCV⟩
            · exact hCV ▸ hl
            · exact .next (hCV ▸ hl)
          have hcounts : ∀ l, Counts p T t'.PrevLayerTy t'.CV l →
              Counts p T t.PrevLayerTy t.CV l := by
            intro l hl
            rcases hon hend.1 hend.2 with ⟨-, hprev', hCV⟩ | ⟨last, hlast, hprev', hCV⟩
            · exact hprev' ▸ hCV ▸ hl
            · exact .next hprev hlast (hprev' ▸ hCV ▸ hl)
          obtain ⟨t'', m'', heq', hcache'', hG'⟩ := ih hcache' fun l hl => hmet l (hbehind l hl)
          refine ⟨t'', m'', by rw [← heq', ← heq]; rfl, hcache'', fun G hmem hflows => ?_⟩
          exact hG' G (hwalk G hmem hflows) fun l hl => hflows l (hcounts l hl)

/-! ## A call -/

variable {calledOperand : Value} {functionType : Ty}

theorem findCallees_tables :
    ∃ m, (s.findCalleesWithMLTA p calledOperand functionType).2 = s.withMatched m := by
  unfold findCalleesWithMLTA
  dsimp only
  split
  · exact ⟨s.MatchedFuncsMap, rfl⟩
  · exact resolveLoop_narrows.tables

/-- **What is found has the type of the call**, whatever was kept from other calls. -/
theorem findCallees_signature (hF : F ∈ (s.findCalleesWithMLTA p calledOperand functionType).1) :
    F ∈ s.signatureFuncs (p.signatureHash functionType) := by
  unfold findCalleesWithMLTA at hF
  dsimp only at hF
  split at hF
  · cases hF
  · exact resolveLoop_narrows.subset F hF

/-- **A function is never lost** that has the type of the call and flows to every layer that counts,
whatever was kept from other calls. -/
theorem findCallees_keeps (hapart : Apart p met) (hcache : CacheSound p T met m)
    (hmet : ∀ l, WalkLayer p T.AliasStructPtrMap (some calledOperand) l → met l) :
    ∃ FS m', (T.withMatched m).findCalleesWithMLTA p calledOperand functionType =
        (FS, T.withMatched m') ∧ CacheSound p T met m' ∧
      ∀ G ∈ T.signatureFuncs (p.signatureHash functionType),
        (∀ l, Counts p T functionType (some calledOperand) l → T.Flows (p.hashidx l) G) →
        G ∈ FS := by
  unfold findCalleesWithMLTA
  dsimp only
  split
  · rename_i hempty
    refine ⟨[], m, rfl, hcache, fun G hG _ => ?_⟩
    exact absurd hG (List.isEmpty_iff.mp hempty ▸ List.not_mem_nil)
  · obtain ⟨t', m', heq, hcache', hG⟩ := @resolveLoop_spec p T met {
        FS := T.signatureFuncs (p.signatureHash functionType), PrevLayerTy := functionType
        CV := some calledOperand } m maxTypeLayer hapart hcache hmet
    exact ⟨t'.FS, m', congrArg (fun x => (x.1.FS, x.2)) heq, hcache', hG⟩

/-! ## No function twice -/

/-- No set has a function twice. -/
structure Sets (x : Resolving × MLTA) : Prop where
  FS : x.1.FS.Nodup
  FS1 : x.1.FS1.Nodup
  funcs : x.2.typeIdxFuncsMap.Nodup
  matched : ∀ e ∈ x.2.MatchedFuncsMap, e.2.Nodup

/-- The entries of one key, without it. -/
theorem nodup_entries {κ : Type} [DecidableEq κ] {table : List (κ × Value)} {k : κ}
    (htable : table.Nodup) :
    (table.filterMap fun x => if x.1 = k then some x.2 else none).Nodup := by
  refine List.Nodup.filterMap (fun a a' F ha ha' => ?_) htable
  simp only [Option.mem_def, Option.ite_none_right_eq_some, Option.some.injEq] at ha ha'
  exact Prod.ext (ha.1.trans ha'.1.symm) (ha.2.trans ha'.2.symm)

theorem nodup_getTargets {FS : List Value} (hfuncs : s.typeIdxFuncsMap.Nodup) (hFS : FS.Nodup) :
    (s.getTargetsWithLayerType place FS).Nodup := by
  unfold getTargetsWithLayerType
  split
  · exact hFS.union _
  · exact (nodup_entries hfuncs).union _

theorem Sets.collectTargets (hx : Sets x) (h : collectTargets p l x = some y) : Sets y := by
  unfold MLTA.collectTargets at h
  split at h
  · rename_i FS hlookup
    cases h
    exact { hx with FS1 := hx.matched _ (Association.mem_of_lookup hlookup) }
  · split at h
    · cases h
    · split at h
      · cases h
      · cases h
        have hfound : ((x.2.getDependentTypes (p.hashidx l)).foldl (fun y place =>
            (x.2.getTargetsWithLayerType place y.2 ∪ y.1, x.2.getTargetsWithLayerType place y.2))
            (x.2.getTargetsWithLayerType (p.hashidx l) x.1.FS1, x.1.FS2)).1.Nodup :=
          Folding.foldl_invariant (I := fun y : List Value × List Value => y.1.Nodup)
            (fun y place _ hy => hy.union _) (nodup_getTargets hx.funcs hx.FS1)
        refine ⟨hx.FS, hfound, hx.funcs, fun e he => ?_⟩
        rcases List.mem_cons.mp he with rfl | he
        · exact hfound
        · exact hx.matched e he

theorem Sets.resolveLayers (hx : Sets x) : Sets (resolveLayers p NextV TyList x) := by
  induction TyList generalizing x with
  | nil => exact hx
  | cons l TyList ih =>
    unfold MLTA.resolveLayers
    split
    · exact hx
    · have hcount : Sets ({ x.1 with LayerNo := x.1.LayerNo + 1 }, x.2) := { hx with }
      dsimp only
      split
      · exact hcount
      · rename_i t s hcollect
        have hy : Sets (t, s) := hcount.collectTargets hcollect
        have hkept : (t.FS1.filter (· ∈ t.FS)).Nodup := hy.FS1.filter _
        split
        · exact { hy with FS := hkept }
        · exact ih { hy with FS := hkept }

theorem Sets.resolveLoop {fuel : ℕ} (hx : Sets x) : Sets (resolveLoop p fuel x) := by
  induction fuel generalizing x with
  | zero => exact hx
  | succ fuel ih =>
    unfold MLTA.resolveLoop
    split
    · exact hx
    · dsimp only
      split
      · exact hx
      · exact ih hx.resolveLayers

/-- **No function is found twice.** -/
theorem findCallees_nodup (hsigs : s.sigFuncsMap.Nodup) (hfuncs : s.typeIdxFuncsMap.Nodup)
    (hmatched : ∀ e ∈ s.MatchedFuncsMap, e.2.Nodup) :
    (s.findCalleesWithMLTA p calledOperand functionType).1.Nodup ∧
      ∀ e ∈ (s.findCalleesWithMLTA p calledOperand functionType).2.MatchedFuncsMap, e.2.Nodup := by
  unfold findCalleesWithMLTA
  dsimp only
  split
  · exact ⟨List.nodup_nil, hmatched⟩
  · have hsets : Sets (MLTA.resolveLoop p maxTypeLayer
        ({ FS := s.signatureFuncs (p.signatureHash functionType), PrevLayerTy := functionType
           CV := some calledOperand }, s)) :=
      Sets.resolveLoop ⟨nodup_entries hsigs, List.nodup_nil, hfuncs, hmatched⟩
    exact ⟨hsets.FS, hsets.matched⟩

end MLTA

end Semalloc
