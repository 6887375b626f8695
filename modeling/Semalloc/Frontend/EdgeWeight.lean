import Semalloc.Frontend.TopologicalSort
import Semalloc.Library.PathNumbering

/-!
# The edge weights number the call paths

`ComputeEdgeWeight` goes through the functions with the callees first. Each call gets the sum of
what the calls before it reserve, and a call reserves one more than the outbound number of its
callee, or one for a callee without final calls. As long as no sum overflows, the intervals of the
calls in a function do not overlap, so the weights number the paths of calls.

## Main definitions

* `weight`, `outbound`, `room`: the results as numbers
* `NoOverflow`: no accumulated weight reaches `2 ^ 32`

## Main results

* `computeEdgeWeight_numbered`: the calls in each function reserve disjoint intervals
* `context_encoding_injective`: different maximal call paths have different weights
-/

set_option autoImplicit false

namespace Semalloc

namespace InstrumentIRPass

open Multigraph

variable {s s' t : InstrumentIRPass} {f g : String} {p : ℕ}

def weight (s : InstrumentIRPass) (p : ℕ) : ℕ := (s.callPaths p).edgeWeight.toNat

/-- The number of a function in `ComprehensiveOutboundMap`. -/
def outbound (s : InstrumentIRPass) (f : String) : ℕ := (s.comprehensiveOutboundMap.get f).toNat

/-- What a call of a function reserves. -/
def room (s : InstrumentIRPass) (f : String) : ℕ := if s.outbound f ≠ 0 then s.outbound f + 1 else 1

/-- What the calls of each function reserve together stays below `2 ^ 32`. -/
def NoOverflow (s : InstrumentIRPass) : Prop :=
  ∀ f ∈ s.relevantAllFunctionSet,
    ((s.finalCalleeMap.get f).map fun p => s.room (s.callPaths p).callee).sum < 2 ^ 32

instance (s : InstrumentIRPass) : Decidable s.NoOverflow :=
  inferInstanceAs (Decidable (∀ f ∈ s.relevantAllFunctionSet, _ < _))

/-! ## What a step leaves alone -/

/-- Only weights, outbound numbers and the order may change. -/
structure Reweighs (s s' : InstrumentIRPass) : Prop where
  callPaths : ∀ p, s'.callPaths p = { s.callPaths p with edgeWeight := (s'.callPaths p).edgeWeight }
  relevant : s'.relevantAllFunctionSet = s.relevantAllFunctionSet
  callees : s'.finalCalleeMap = s.finalCalleeMap
  callers : s'.finalCallerMap = s.finalCallerMap
  cycles : s'.flippedIntraFunctionMap = s.flippedIntraFunctionMap

namespace Reweighs

theorem refl (s : InstrumentIRPass) : Reweighs s s := ⟨fun _ => rfl, rfl, rfl, rfl, rfl⟩

theorem trans (h : Reweighs s s') (h' : Reweighs s' t) : Reweighs s t where
  callPaths p := by rw [h'.callPaths p, h.callPaths p]
  relevant := h'.relevant.trans h.relevant
  callees := h'.callees.trans h.callees
  callers := h'.callers.trans h.callers
  cycles := h'.cycles.trans h.cycles

theorem callee_eq (h : Reweighs s s') (p : ℕ) : (s'.callPaths p).callee = (s.callPaths p).callee := by
  rw [h.callPaths p]

theorem caller_eq (h : Reweighs s s') (p : ℕ) : (s'.callPaths p).caller = (s.callPaths p).caller := by
  rw [h.callPaths p]

theorem pathType_eq (h : Reweighs s s') (p : ℕ) :
    (s'.callPaths p).pathType = (s.callPaths p).pathType := by
  rw [h.callPaths p]

theorem finalGraph_eq (h : Reweighs s s') : s'.finalGraph = s.finalGraph := by
  unfold finalGraph
  rw [h.callees, funext h.callee_eq]

end Reweighs

/-! ## The calls in one function -/

theorem setWeight_callPaths (w : BitVec 32) : (s.setWeight p w).callPaths =
    modifyAt s.callPaths p fun e => { e with edgeWeight := w } := rfl

theorem setWeight_reweighs (p : ℕ) (w : BitVec 32) : Reweighs s (s.setWeight p w) := by
  refine ⟨fun q => ?_, rfl, rfl, rfl, rfl⟩
  rw [setWeight_callPaths]
  by_cases hq : q = p
  · subst hq
    simp
  · rw [modifyAt_of_ne hq]

theorem assignWeights_reweighs (ps : List ℕ) (w : BitVec 32) :
    Reweighs s (s.assignWeights ps w).1 := by
  induction ps generalizing s w with
  | nil => exact .refl s
  | cons p ps ih => exact (setWeight_reweighs p w).trans (ih _)

theorem assignWeights_outbound (ps : List ℕ) (w : BitVec 32) :
    (s.assignWeights ps w).1.comprehensiveOutboundMap = s.comprehensiveOutboundMap := by
  induction ps generalizing s w with
  | nil => rfl
  | cons p ps ih => exact ih (s := s.setWeight p w) _

theorem assignWeights_of_not_mem {ps : List ℕ} {w : BitVec 32} (hp : p ∉ ps) :
    (s.assignWeights ps w).1.callPaths p = s.callPaths p := by
  induction ps generalizing s w with
  | nil => rfl
  | cons q ps ih =>
    obtain ⟨hpq, hp⟩ := List.ne_and_not_mem_of_not_mem_cons hp
    have hset : (s.setWeight q w).callPaths p = s.callPaths p := by
      rw [setWeight_callPaths, modifyAt_of_ne hpq]
    exact (ih (s := s.setWeight q w) hp).trans hset

/-- **The intervals of the calls in one function** follow each other from the accumulated weight
on. -/
theorem assignWeights_spec {ps : List ℕ} {w : BitVec 32} {room : String → ℕ} (hps : ps.Nodup)
    (hroom : ∀ p ∈ ps, (s.reservedWeight (s.callPaths p).callee).toNat =
      room (s.callPaths p).callee)
    (hfits : w.toNat + (ps.map fun p => room (s.callPaths p).callee).sum < 2 ^ 32) :
    (s.assignWeights ps w).2.toNat =
        w.toNat + (ps.map fun p => room (s.callPaths p).callee).sum ∧
      (∀ p ∈ ps, w.toNat ≤ (s.assignWeights ps w).1.weight p ∧
        (s.assignWeights ps w).1.weight p + room (s.callPaths p).callee ≤
          (s.assignWeights ps w).2.toNat) ∧
      ps.Pairwise fun p q => (s.assignWeights ps w).1.weight p + room (s.callPaths p).callee ≤
        (s.assignWeights ps w).1.weight q := by
  induction ps generalizing s w with
  | nil => exact ⟨rfl, fun _ hp => absurd hp List.not_mem_nil, .nil⟩
  | cons p ps ih =>
    obtain ⟨hp, hps⟩ := List.nodup_cons.mp hps
    rw [List.map_cons, List.sum_cons] at hfits ⊢
    let next := s.setWeight p w
    have hcallee : ∀ q, (next.callPaths q).callee = (s.callPaths q).callee :=
      (setWeight_reweighs p w).callee_eq
    let acc := w + s.reservedWeight (s.callPaths p).callee
    have hreserve : next.reservedWeight (next.callPaths p).callee =
        s.reservedWeight (s.callPaths p).callee := by
      rw [hcallee p]
      rfl
    have hacc : acc.toNat = w.toNat + room (s.callPaths p).callee := by
      rw [BitVec.toNat_add, hroom p List.mem_cons_self]
      exact Nat.mod_eq_of_lt (by omega)
    have hstep : s.assignWeights (p :: ps) w = next.assignWeights ps acc := by
      rw [assignWeights, hreserve]
    have hroom' : ∀ q ∈ ps, (next.reservedWeight (next.callPaths q).callee).toNat =
        room (next.callPaths q).callee := by
      intro q hq
      rw [hcallee q]
      exact hroom q (List.mem_cons_of_mem p hq)
    have hsum : (ps.map fun q => room (next.callPaths q).callee).sum =
        (ps.map fun q => room (s.callPaths q).callee).sum := by
      simp only [hcallee]
    obtain ⟨htotal, hbounds, hpair⟩ := ih hps hroom' (w := acc) (by rw [hsum]; omega)
    rw [hsum] at htotal
    simp only [hcallee] at hbounds hpair
    rw [← hstep] at htotal hbounds hpair
    -- the weight of the first call is not changed again
    have hweight : (s.assignWeights (p :: ps) w).1.weight p = w.toNat := by
      unfold weight
      rw [hstep, assignWeights_of_not_mem hp]
      simp [next, setWeight]
    refine ⟨by omega, ?_, ?_⟩
    · intro q hq
      rcases List.mem_cons.mp hq with rfl | hq
      · omega
      · have hq' := hbounds q hq
        omega
    · rw [List.pairwise_cons]
      refine ⟨fun q hq => ?_, hpair⟩
      have hq' := hbounds q hq
      omega

/-! ## All functions -/

theorem weighFunction_reweighs : Reweighs s (s.weighFunction f) :=
  have h := assignWeights_reweighs (s := s) (s.finalCalleeMap.get f) 0
  ⟨h.callPaths, h.relevant, h.callees, h.callers, h.cycles⟩

theorem weighFunctions_reweighs (order : List String) : Reweighs s (order.foldl weighFunction s) := by
  induction order generalizing s with
  | nil => exact .refl s
  | cons f order ih => exact weighFunction_reweighs.trans ih

theorem assignWeights_order (ps : List ℕ) (w : BitVec 32) :
    (s.assignWeights ps w).1.topologicalOrder = s.topologicalOrder := by
  induction ps generalizing s w with
  | nil => rfl
  | cons p ps ih => exact ih (s := s.setWeight p w) _

theorem weighFunctions_order (order : List String) :
    (order.foldl weighFunction s).topologicalOrder = s.topologicalOrder := by
  induction order generalizing s with
  | nil => rfl
  | cons f order ih =>
    rw [List.foldl_cons, ih]
    exact assignWeights_order _ _

/-- A function changes the weights of its own calls only. -/
theorem weighFunctions_callPaths {order : List String}
    (hp : ∀ f ∈ order, p ∉ s.finalCalleeMap.get f) :
    (order.foldl weighFunction s).callPaths p = s.callPaths p := by
  induction order generalizing s with
  | nil => rfl
  | cons f order ih =>
    rw [List.foldl_cons, ih]
    · exact assignWeights_of_not_mem (hp f List.mem_cons_self)
    · intro g hg
      rw [weighFunction_reweighs.callees]
      exact hp g (List.mem_cons_of_mem f hg)

theorem weighFunction_outbound : (s.weighFunction f).comprehensiveOutboundMap =
    s.comprehensiveOutboundMap.insert f (s.assignWeights (s.finalCalleeMap.get f) 0).2 := by
  unfold weighFunction
  dsimp only
  rw [assignWeights_outbound]

theorem weighFunctions_outbound_of_not_mem {order : List String} (hf : f ∉ order) :
    (order.foldl weighFunction s).outbound f = s.outbound f := by
  induction order generalizing s with
  | nil => rfl
  | cons g order ih =>
    obtain ⟨hfg, hf⟩ := List.ne_and_not_mem_of_not_mem_cons hf
    rw [List.foldl_cons, ih hf]
    unfold outbound
    rw [weighFunction_outbound, KeyMap.insert_get_of_ne hfg]

theorem mem_weighFunctions_keys {order : List String} (hf : f ∈ order) :
    f ∈ (order.foldl weighFunction s).comprehensiveOutboundMap.keys := by
  have hgrow : ∀ (order : List String) (s : InstrumentIRPass),
      f ∈ s.comprehensiveOutboundMap.keys →
        f ∈ (order.foldl weighFunction s).comprehensiveOutboundMap.keys := by
    intro order
    induction order with
    | nil => exact fun _ h => h
    | cons g order ih =>
      intro s h
      refine ih _ ?_
      rw [weighFunction_outbound, KeyMap.mem_insert_keys]
      exact .inr h
  induction order generalizing s with
  | nil => cases hf
  | cons g order ih =>
    rcases List.mem_cons.mp hf with rfl | hf
    · refine hgrow order _ ?_
      rw [weighFunction_outbound, KeyMap.mem_insert_keys]
      exact .inl rfl
    · exact ih hf

/-- **Every function reserves disjoint intervals for its calls**, and its outbound number bounds
them: its callees were weighed before it, and are not weighed again. -/
theorem weighFunctions_numbered {order : List String} (horder : order.Nodup)
    (hsorted : s.finalGraph.SourcesFirst order.reverse) (hnodup : ∀ f, (s.finalCalleeMap.get f).Nodup)
    (hcaller : ∀ f ∈ order, ∀ p ∈ s.finalCalleeMap.get f, (s.callPaths p).caller = f)
    (hf : f ∈ order)
    (hfits : ((s.finalCalleeMap.get f).map fun p =>
      (order.foldl weighFunction s).room (s.callPaths p).callee).sum < 2 ^ 32) :
    s.finalGraph.Numbered (order.foldl weighFunction s).weight
        (order.foldl weighFunction s).outbound (order.foldl weighFunction s).room f ∧
      (order.foldl weighFunction s).outbound f = ((s.finalCalleeMap.get f).map fun p =>
        (order.foldl weighFunction s).room (s.callPaths p).callee).sum := by
  obtain ⟨before, after, rfl⟩ := List.append_of_mem hf
  generalize hs' : (before ++ f :: after).foldl weighFunction s = s' at hfits ⊢
  rw [List.foldl_append, List.foldl_cons] at hs'
  let s₁ := before.foldl weighFunction s
  have hshape : Reweighs s s₁ := weighFunctions_reweighs before
  have hcallees : s₁.finalCalleeMap = s.finalCalleeMap := hshape.callees
  have happart := List.nodup_append.mp horder
  have hafter : f ∉ after := (List.nodup_cons.mp happart.2.1).1
  -- the callees of `f` come before it
  have hbefore : ∀ p ∈ s.finalCalleeMap.get f, (s.callPaths p).callee ∈ before := by
    intro p hp
    rw [List.reverse_append, List.reverse_cons, List.append_assoc] at hsorted
    exact List.mem_reverse.mp (hsorted.target_mem_of_append hp)
  have hroom : ∀ p ∈ s.finalCalleeMap.get f,
      s'.room (s.callPaths p).callee = s₁.room (s.callPaths p).callee := by
    intro p hp
    have hnot : (s.callPaths p).callee ∉ f :: after := fun hmem =>
      happart.2.2 _ (hbefore p hp) _ hmem rfl
    have hout : s'.outbound (s.callPaths p).callee = s₁.outbound (s.callPaths p).callee := by
      rw [← hs']
      exact weighFunctions_outbound_of_not_mem hnot
    unfold room
    rw [hout]
  have hreserve : ∀ p ∈ s₁.finalCalleeMap.get f,
      (s₁.reservedWeight (s₁.callPaths p).callee).toNat = s'.room (s₁.callPaths p).callee := by
    intro p hp
    rw [hcallees] at hp
    have hkey := mem_weighFunctions_keys (s := s) (hbefore p hp)
    have hmem : s'.room (s.callPaths p).callee ∈
        (s.finalCalleeMap.get f).map fun p => s'.room (s.callPaths p).callee :=
      List.mem_map_of_mem hp
    have hle := lt_of_le_of_lt (List.single_le_sum (fun _ _ => Nat.zero_le _) _ hmem) hfits
    rw [hshape.callee_eq, hroom p hp]
    rw [hroom p hp] at hle
    unfold reservedWeight
    unfold room outbound at hle ⊢
    by_cases hzero : s₁.comprehensiveOutboundMap.get (s.callPaths p).callee = 0
    · simp [hzero]
    · have hne : (s₁.comprehensiveOutboundMap.get (s.callPaths p).callee).toNat ≠ 0 :=
        fun h => hzero (BitVec.eq_of_toNat_eq h)
      rw [if_pos hne] at hle
      rw [if_pos hne, if_pos ⟨hkey, hzero⟩, BitVec.toNat_add]
      exact Nat.mod_eq_of_lt hle
  have hfits₁ : (0 : BitVec 32).toNat +
      ((s₁.finalCalleeMap.get f).map fun p => s'.room (s₁.callPaths p).callee).sum < 2 ^ 32 := by
    simp only [hcallees, hshape.callee_eq]
    exact (Nat.zero_add _).symm ▸ hfits
  obtain ⟨htotal, hbounds, hpair⟩ := assignWeights_spec (w := 0)
    (by rw [hcallees]; exact hnodup f) hreserve hfits₁
  have hzero : (0 : BitVec 32).toNat = 0 := rfl
  simp only [hcallees, hshape.callee_eq, hzero, Nat.zero_add] at htotal hbounds hpair
  -- the calls of `f` and its number are not changed after it
  have hweight : ∀ p ∈ s.finalCalleeMap.get f,
      (s₁.assignWeights (s.finalCalleeMap.get f) 0).1.weight p = s'.weight p := by
    intro p hp
    unfold weight
    rw [← hs', weighFunctions_callPaths]
    · change _ = ((s₁.assignWeights (s₁.finalCalleeMap.get f) 0).1.callPaths p).edgeWeight.toNat
      rw [hcallees]
    · intro g hg hmem
      rw [(weighFunction_reweighs (s := s₁) (f := f)).callees, hcallees] at hmem
      have hpf := hcaller f (List.mem_append_right _ List.mem_cons_self) p hp
      have hpg := hcaller g (List.mem_append_right _ (List.mem_cons_of_mem f hg)) p hmem
      exact hafter ((hpf.symm.trans hpg) ▸ hg)
  have hout : s'.outbound f = (s₁.assignWeights (s.finalCalleeMap.get f) 0).2.toNat := by
    rw [← hs', weighFunctions_outbound_of_not_mem hafter]
    unfold outbound
    rw [weighFunction_outbound, KeyMap.insert_get_self, hcallees]
  refine ⟨⟨?_, ?_⟩, hout.trans htotal⟩
  · refine hpair.imp_of_mem fun hp hq hle => ?_
    rw [hweight _ hp, hweight _ hq] at hle
    exact hle
  · intro p hp
    have hle := (hbounds p hp).2
    rw [hweight p hp, ← hout] at hle
    exact hle

/-- **`ComputeEdgeWeight` returns on an acyclic graph**, and its order lists the callees first. -/
theorem computeEdgeWeight_ok (hs : s.FinalMaps) (hc : s.Consistent)
    (hacyclic : s.finalGraph.Acyclic) : ∃ s', s.computeEdgeWeight = .ok s' := by
  obtain ⟨order, hsort⟩ := sortFunctions_complete hacyclic (hs.sorting hc) rfl hs.nonempty
  exact ⟨_, computeEdgeWeight_eq_ok.mpr ⟨hc, order, hsort, rfl⟩⟩

/-- What `ComputeEdgeWeight` leaves: an order with the callees first, and numbered calls. -/
theorem computeEdgeWeight_spec (hs : s.FinalMaps) (hok : s.computeEdgeWeight = .ok s') :
    Reweighs s s' ∧ s'.topologicalOrder.Perm s.relevantAllFunctionSet ∧
      s.finalGraph.SourcesFirst s'.topologicalOrder.reverse ∧
      (s'.NoOverflow → ∀ f, s.finalGraph.Numbered s'.weight s'.outbound s'.room f) := by
  obtain ⟨hc, order, hsort, rfl⟩ := computeEdgeWeight_eq_ok.mp hok
  obtain ⟨hsorted, hperm⟩ := sortFunctions_sound (hs.sorting hc) rfl hsort
  rw [hs.unsorted, List.nil_append] at hperm
  have hshape : Reweighs s (order.foldl weighFunction { s with topologicalOrder := order }) :=
    @Reweighs.trans _ { s with topologicalOrder := order } _ ⟨fun _ => rfl, rfl, rfl, rfl, rfl⟩
      (weighFunctions_reweighs order)
  have horder := weighFunctions_order (s := { s with topologicalOrder := order }) order
  refine ⟨hshape, horder ▸ hperm, horder ▸ hsorted, fun hfits f => ?_⟩
  by_cases hf : f ∈ s.relevantAllFunctionSet
  · refine (weighFunctions_numbered (s := { s with topologicalOrder := order })
      (hperm.nodup_iff.mpr hs.nodup) hsorted hs.calleesNodup ?_ (hperm.mem_iff.mpr hf) ?_).1
    · exact fun g hg p hp => (hc.callees g (hperm.mem_iff.mp hg) p hp).2
    · have hsum := hfits f (by rw [hshape.relevant]; exact hf)
      rw [hshape.callees] at hsum
      simp only [hshape.callee_eq] at hsum
      exact hsum
  · have hout : s.finalGraph.out f = [] := hs.calleesOutside f hf
    refine ⟨?_, ?_⟩
    · rw [hout]
      exact .nil
    · rw [hout]
      exact fun _ h => absurd h List.not_mem_nil

/-- **Context encoding is injective.** On an acyclic final call graph the weights are assigned, and
when none overflows, any two different maximal call paths from a function with final calls have
different sums, all of them below the outbound number of the function. -/
theorem context_encoding_injective (hs : s.FinalMaps) (hc : s.Consistent)
    (hacyclic : s.finalGraph.Acyclic) :
    ∃ s', s.computeEdgeWeight = .ok s' ∧ (s'.NoOverflow →
      ∀ f ∈ s.relevantAllFunctionSet, s.finalCalleeMap.get f ≠ [] →
        (∀ es g, s.finalGraph.Walk f es g → s.finalGraph.IsSink g →
          (es.map s'.weight).sum < s'.outbound f) ∧
        ∀ es es' g g', s.finalGraph.Walk f es g → s.finalGraph.Walk f es' g' →
          s.finalGraph.IsSink g → s.finalGraph.IsSink g' → es ≠ es' →
            (es.map s'.weight).sum ≠ (es'.map s'.weight).sum) := by
  obtain ⟨s', hok⟩ := computeEdgeWeight_ok hs hc hacyclic
  obtain ⟨-, -, -, hnum⟩ := computeEdgeWeight_spec hs hok
  have hroom : ∀ f, 0 < s'.room f ∧ s'.outbound f ≤ s'.room f := by
    intro f
    unfold room
    split <;> omega
  refine ⟨s', hok, fun hfits f _ hne => ⟨?_, ?_⟩⟩
  · intro es g hwalk hsink
    exact hwalk.sum_lt (hnum hfits) hroom hsink hne
  · intro es es' g g' hwalk hwalk' hsink hsink' hdiff hsum
    exact hdiff (hwalk.eq_of_sum_eq (hnum hfits) hroom hwalk' hsink hsink' hsum)

/-- `main` calls `left`, and `right` twice; `left` has two calls of `malloc`, `right` one. -/
def diamond : InstrumentIRPass where
  callPaths p := match p with
    | 0 => .new 0 "left" "main"
    | 1 => .new 1 "right" "main"
    | 2 => .new 2 "right" "main"
    | 3 => .new 3 "malloc" "left"
    | 4 => .new 4 "malloc" "left"
    | _ => .new 5 "malloc" "right"
  functionMap := .empty []
  relevantAllFunctionSet := ["left", "main", "malloc", "right"]
  finalCalleeMap := (((KeyMap.empty []).insert "left" [3, 4]).insert "main" [0, 1, 2]).insert
    "right" [5]
  finalCallerMap := (((KeyMap.empty []).insert "left" [0]).insert "malloc" [3, 4, 5]).insert
    "right" [1, 2]

theorem diamond_finalMaps : diamond.FinalMaps := by
  have houtside : diamond.finalCalleeMap.Outside [] ∧ diamond.finalCallerMap.Outside [] :=
    ⟨.insert (.insert (.insert fun _ _ => rfl)), .insert (.insert (.insert fun _ _ => rfl))⟩
  have hkeys : diamond.finalCalleeMap.keys ⊆ diamond.relevantAllFunctionSet ∧
      diamond.finalCallerMap.keys ⊆ diamond.relevantAllFunctionSet := by decide +kernel
  have hnodup : ∀ f ∈ diamond.relevantAllFunctionSet, (diamond.finalCalleeMap.get f).Nodup ∧
      (diamond.finalCallerMap.get f).Nodup := by decide +kernel
  have hout : ∀ f ∉ diamond.relevantAllFunctionSet, diamond.finalCalleeMap.get f = [] ∧
      diamond.finalCallerMap.get f = [] := fun f hf =>
    ⟨houtside.1 f fun h => hf (hkeys.1 h), houtside.2 f fun h => hf (hkeys.2 h)⟩
  refine ⟨by decide +kernel, by decide +kernel, fun f => ?_, fun f => ?_, fun f hf => (hout f hf).1,
    fun f hf => (hout f hf).2, rfl⟩
  all_goals
    by_cases hf : f ∈ diamond.relevantAllFunctionSet
  · exact (hnodup f hf).1
  · rw [(hout f hf).1]
    exact List.nodup_nil
  · exact (hnodup f hf).2
  · rw [(hout f hf).2]
    exact List.nodup_nil

theorem diamond_consistent : diamond.Consistent :=
  checks_iff.mp (by decide +kernel)

theorem diamond_acyclic : diamond.finalGraph.Acyclic := by
  have hsorted : diamond.finalGraph.SourcesFirst ["main", "left", "right", "malloc"] :=
    ⟨by decide +kernel, by decide +kernel, by decide +kernel, by decide +kernel, trivial⟩
  refine hsorted.acyclic_of_outside (by decide +kernel) fun f hf => ?_
  exact diamond_finalMaps.calleesOutside f fun h => hf (by revert h; simp [diamond]; tauto)

/-- The four paths from `main` get four numbers below the outbound number of `main`. -/
theorem context_encoding_injective_diamond : ∃ s', diamond.computeEdgeWeight = .ok s' ∧
    [[0, 3], [0, 4], [1, 5], [2, 5]].map (fun es => (es.map s'.weight).sum) = [0, 1, 3, 5] ∧
    s'.outbound "main" = 7 ∧ (∀ es g, diamond.finalGraph.Walk "main" es g →
      diamond.finalGraph.IsSink g → (es.map s'.weight).sum < 7) := by
  obtain ⟨s', hok, hall⟩ :=
    context_encoding_injective diamond_finalMaps diamond_consistent diamond_acyclic
  have hrun : diamond.computeEdgeWeight.toOption.map (fun s' => (decide s'.NoOverflow,
      [[0, 3], [0, 4], [1, 5], [2, 5]].map (fun es => (es.map s'.weight).sum),
      s'.outbound "main")) = some (true, [0, 1, 3, 5], 7) := by decide +kernel
  rw [hok] at hrun
  simp only [Except.toOption, Option.map_some, Option.some.injEq, Prod.mk.injEq] at hrun
  obtain ⟨hfits, hsums, hout⟩ := hrun
  obtain ⟨hlt, -⟩ := hall (of_decide_eq_true hfits) "main" (by decide +kernel) (by decide +kernel)
  exact ⟨s', hok, hsums, hout, fun es g hwalk hsink => hout ▸ hlt es g hwalk hsink⟩

end InstrumentIRPass

end Semalloc
