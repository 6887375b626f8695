import Semalloc.Frontend.EdgeWeight
import Semalloc.Frontend.TagWord
import Semalloc.Library.WalkNumbers

/-!
# The width of the context

The sum of the weights along a call path goes into 16 bits of the tag. Up to multiples of `2 ^ 32`,
and so of `2 ^ 16`, the weights are the numbers of call paths to the left, whether or not they
overflow. Nothing checks that they fit, and what the mask keeps of them tells at most `2 ^ 16` paths
apart.

## Main definitions

* `callPathsFrom`: the call paths out of a function
* `pathNumber`: how many call paths branch off to the left of a call path
* `contextField`: what the mask keeps of the sum of the weights

## Main results

* `computeEdgeWeight_weight`: the weights, without any assumption on their size
* `context_width_iff`: when the contexts of a function are different
-/

set_option autoImplicit false

namespace Semalloc

namespace InstrumentIRPass

open Multigraph

variable {s s' : InstrumentIRPass} {f g : String} {p : ℕ} {es : List ℕ}

/-! ## The weights in machine arithmetic -/

/-- A call reserves one more than the number of its callee, zero or not. -/
theorem reservedWeight_eq (hf : f ∈ s.comprehensiveOutboundMap.keys) :
    s.reservedWeight f = s.comprehensiveOutboundMap.get f + 1 := by
  unfold reservedWeight
  split
  · rfl
  · rename_i hnot
    have hzero : s.comprehensiveOutboundMap.get f = 0 := by
      by_contra hne
      exact hnot ⟨hf, hne⟩
    rw [hzero]
    rfl

/-- The weights of the calls in one function count up from the accumulated weight. -/
theorem assignWeights_ofNat {ps : List ℕ} {w : ℕ} {room : ℕ → ℕ} (hps : ps.Nodup)
    (hroom : ∀ p ∈ ps, s.reservedWeight (s.callPaths p).callee = BitVec.ofNat 32 (room p)) :
    (s.assignWeights ps (BitVec.ofNat 32 w)).2 = BitVec.ofNat 32 (w + (ps.map room).sum) ∧
      ∀ p ∈ ps, ((s.assignWeights ps (BitVec.ofNat 32 w)).1.callPaths p).edgeWeight =
        BitVec.ofNat 32 (w + ((ps.takeWhile (· ≠ p)).map room).sum) := by
  induction ps generalizing s w with
  | nil => exact ⟨rfl, fun _ hp => absurd hp List.not_mem_nil⟩
  | cons p ps ih =>
    obtain ⟨hp, hps⟩ := List.nodup_cons.mp hps
    let next := s.setWeight p (BitVec.ofNat 32 w)
    have hcallee : ∀ q, (next.callPaths q).callee = (s.callPaths q).callee :=
      (setWeight_reweighs p _).callee_eq
    have hreserve : ∀ q ∈ ps,
        next.reservedWeight (next.callPaths q).callee = BitVec.ofNat 32 (room q) := by
      intro q hq
      rw [hcallee q]
      exact hroom q (List.mem_cons_of_mem p hq)
    have hacc : BitVec.ofNat 32 w + next.reservedWeight (next.callPaths p).callee =
        BitVec.ofNat 32 (w + room p) := by
      rw [hcallee p, BitVec.ofNat_add]
      exact congrArg (BitVec.ofNat 32 w + ·) (hroom p List.mem_cons_self)
    have hstep : s.assignWeights (p :: ps) (BitVec.ofNat 32 w) =
        next.assignWeights ps (BitVec.ofNat 32 (w + room p)) := by
      rw [assignWeights, hacc]
    obtain ⟨htotal, hweights⟩ := ih hps hreserve (w := w + room p)
    rw [hstep]
    refine ⟨?_, fun q hq => ?_⟩
    · rw [htotal, List.map_cons, List.sum_cons, Nat.add_assoc]
    · rcases List.mem_cons.mp hq with rfl | hq
      · rw [assignWeights_of_not_mem hp]
        simp [next, setWeight]
      · have hpq : p ≠ q := fun h => hp (h ▸ hq)
        rw [hweights q hq]
        simp [hpq, Nat.add_assoc]

/-- **The numbers and weights of all functions**, in the order of the sort. -/
theorem weighFunctions_ofNat {order : List String} (count : String → ℕ) (horder : order.Nodup)
    (hsorted : s.finalGraph.SourcesFirst order.reverse)
    (hnodup : ∀ f, (s.finalCalleeMap.get f).Nodup)
    (hcaller : ∀ f ∈ order, ∀ p ∈ s.finalCalleeMap.get f, (s.callPaths p).caller = f)
    (hcount : ∀ f ∈ order, count f =
      ((s.finalCalleeMap.get f).map fun p => count (s.callPaths p).callee + 1).sum) :
    ∀ f ∈ order,
      (order.foldl weighFunction s).comprehensiveOutboundMap.get f = BitVec.ofNat 32 (count f) ∧
        ∀ p ∈ s.finalCalleeMap.get f, ((order.foldl weighFunction s).callPaths p).edgeWeight =
          BitVec.ofNat 32 (((s.finalCalleeMap.get f).takeWhile (· ≠ p)).map fun p =>
            count (s.callPaths p).callee + 1).sum := by
  induction order using List.reverseRecOn with
  | nil => exact fun _ hf => absurd hf List.not_mem_nil
  | append_singleton order x ih =>
    have hparts := List.nodup_append.mp horder
    have hx : x ∉ order := fun hmem => hparts.2.2 x hmem x (List.mem_singleton_self x) rfl
    rw [List.reverse_append, List.reverse_singleton, List.singleton_append] at hsorted
    have hbefore := ih hparts.1 hsorted.2
      (fun f hf => hcaller f (List.mem_append_left _ hf))
      (fun f hf => hcount f (List.mem_append_left _ hf))
    have hkeys : ∀ f ∈ order, f ∈ (order.foldl weighFunction s).comprehensiveOutboundMap.keys :=
      fun f hf => mem_weighFunctions_keys hf
    have hshape : Reweighs s (order.foldl weighFunction s) := weighFunctions_reweighs order
    rw [List.foldl_append, List.foldl_cons, List.foldl_nil]
    generalize order.foldl weighFunction s = s₁ at hbefore hkeys hshape ⊢
    -- the callees of `x` were weighed before
    have hroom : ∀ p ∈ s₁.finalCalleeMap.get x, s₁.reservedWeight (s₁.callPaths p).callee =
        BitVec.ofNat 32 (count (s.callPaths p).callee + 1) := by
      intro p hp
      rw [hshape.callees] at hp
      have hmem : (s.callPaths p).callee ∈ order := List.mem_reverse.mp (hsorted.1 p hp)
      rw [hshape.callee_eq, reservedWeight_eq (hkeys _ hmem), (hbefore _ hmem).1, BitVec.ofNat_add]
      rfl
    have hassign := assignWeights_ofNat (w := 0) (by rw [hshape.callees]; exact hnodup x) hroom
    simp only [Nat.zero_add, hshape.callees] at hassign
    have hcalls : (s₁.weighFunction x).callPaths =
        (s₁.assignWeights (s.finalCalleeMap.get x) (BitVec.ofNat 32 0)).1.callPaths := by
      rw [← hshape.callees]
      rfl
    intro f hf
    rw [weighFunction_outbound, hcalls, hshape.callees]
    rcases List.mem_append.mp hf with hf | hf
    · -- the calls and the number of an earlier function are kept
      have hfx : f ≠ x := fun h => hx (h ▸ hf)
      rw [KeyMap.insert_get_of_ne hfx]
      refine ⟨(hbefore f hf).1, fun p hp => ?_⟩
      have hpx : p ∉ s.finalCalleeMap.get x := by
        intro hmem
        have hpf := hcaller f (List.mem_append_left _ hf) p hp
        have hpx := hcaller x (List.mem_append_right _ (List.mem_singleton_self x)) p hmem
        exact hfx (hpf.symm.trans hpx)
      rw [assignWeights_of_not_mem hpx]
      exact (hbefore f hf).2 p hp
    · obtain rfl := List.mem_singleton.mp hf
      rw [KeyMap.insert_get_self]
      refine ⟨?_, hassign.2⟩
      rw [hcount f (List.mem_append_right _ hf)]
      exact hassign.1

/-! ## Call paths and their numbers -/

/-- The call paths out of a function that make a call; no call path makes more calls than there
are functions. -/
def callPathsFrom (s : InstrumentIRPass) (f : String) : List (List ℕ) :=
  s.finalGraph.walks s.relevantAllFunctionSet.length f

/-- How many call paths branch off to the left of a call path from `f`. -/
def pathNumber (s : InstrumentIRPass) (f : String) (es : List ℕ) : ℕ :=
  s.finalGraph.number s.relevantAllFunctionSet.length f es

/-- The call path leads from the function to one without final calls. -/
def MaximalPath (s : InstrumentIRPass) (f : String) (es : List ℕ) : Prop :=
  ∃ g, s.finalGraph.Walk f es g ∧ s.finalGraph.IsSink g

/-- What the mask keeps of the track after a call path. -/
def contextField (s : InstrumentIRPass) (es : List ℕ) : Word :=
  (BitVec.ofNat 64 (es.map s.weight).sum <<< csiOffset) &&& csiMask

/-- The mask keeps the sum of the weights modulo `2 ^ 16`. -/
theorem contextField_eq_iff {es es' : List ℕ} : s.contextField es = s.contextField es' ↔
    (es.map s.weight).sum % 2 ^ 16 = (es'.map s.weight).sum % 2 ^ 16 := by
  unfold contextField
  rw [← BitVec.toNat_inj, toNat_maskedTrack, toNat_maskedTrack, BitVec.toNat_ofNat,
    BitVec.toNat_ofNat]
  omega

/-- **The weights**, without any assumption on their size: the sum of the weights along a call path
is its number, up to multiples of `2 ^ 32`. -/
theorem computeEdgeWeight_weight (hs : s.FinalMaps) (hok : s.computeEdgeWeight = .ok s')
    (hwalk : s.finalGraph.Walk f es g) :
    (es.map s'.weight).sum % 2 ^ 32 = s.pathNumber f es % 2 ^ 32 := by
  obtain ⟨hc, order, hsort, rfl⟩ := computeEdgeWeight_eq_ok.mp hok
  obtain ⟨hsorted, hperm⟩ := sortFunctions_sound (hs.sorting hc) rfl hsort
  rw [hs.unsorted, List.nil_append] at hperm
  have hlen : order.reverse.length = s.relevantAllFunctionSet.length := by
    rw [List.length_reverse]
    exact hperm.length_eq
  have hweights := weighFunctions_ofNat (s := { s with topologicalOrder := order })
    (fun f => (s.callPathsFrom f).length) (hperm.nodup_iff.mpr hs.nodup) hsorted
    hs.calleesNodup (fun f hf p hp => (hc.callees f (hperm.mem_iff.mp hf) p hp).2) (by
      intro f hf
      unfold callPathsFrom
      rw [← hlen]
      exact hsorted.length_walks (List.mem_reverse.mpr hf))
  generalize order.foldl weighFunction { s with topologicalOrder := order } = s' at hweights
  unfold pathNumber
  induction hwalk with
  | nil v => rfl
  | @cons u v e es he _ ih =>
    have hu : u ∈ order := by
      refine hperm.mem_iff.mpr ?_
      by_contra hnot
      have hnone : s.finalGraph.out u = [] := hs.calleesOutside u hnot
      rw [hnone] at he
      cases he
    have hedge : s'.weight e = s.finalGraph.offset s.relevantAllFunctionSet.length u e % 2 ^ 32 := by
      unfold weight
      rw [(hweights u hu).2 e he, BitVec.toNat_ofNat]
      rfl
    rw [List.map_cons, List.sum_cons, Multigraph.number, hedge, Nat.mod_add_mod]
    exact Nat.ModEq.add_left _ ih

/-! ## Different contexts -/

/-- Different maximal call paths from the function have different contexts. -/
def DistinctContexts (s : InstrumentIRPass) (f : String) : Prop :=
  ∀ es es', s.MaximalPath f es → s.MaximalPath f es' → es ≠ es' →
    s.contextField es ≠ s.contextField es'

/-- Different maximal call paths from the function have numbers that differ modulo `2 ^ 16`. -/
def NumbersApart (s : InstrumentIRPass) (f : String) : Prop :=
  ∀ es es', s.MaximalPath f es → s.MaximalPath f es' → es ≠ es' →
    s.pathNumber f es % 2 ^ 16 ≠ s.pathNumber f es' % 2 ^ 16

/-- The contexts are the numbers modulo `2 ^ 16`. -/
theorem contextField_eq_iff_number (hs : s.FinalMaps) (hok : s.computeEdgeWeight = .ok s')
    {es es' : List ℕ} (hes : s.MaximalPath f es) (hes' : s.MaximalPath f es') :
    s'.contextField es = s'.contextField es' ↔
      s.pathNumber f es % 2 ^ 16 = s.pathNumber f es' % 2 ^ 16 := by
  obtain ⟨_, hwalk, -⟩ := hes
  obtain ⟨_, hwalk', -⟩ := hes'
  have hsum := computeEdgeWeight_weight hs hok hwalk
  have hsum' := computeEdgeWeight_weight hs hok hwalk'
  rw [contextField_eq_iff]
  omega

theorem distinctContexts_iff (hs : s.FinalMaps) (hok : s.computeEdgeWeight = .ok s') :
    s'.DistinctContexts f ↔ s.NumbersApart f := by
  have hgraph : s'.finalGraph = s.finalGraph := (computeEdgeWeight_spec hs hok).1.finalGraph_eq
  have hpath : ∀ es, s'.MaximalPath f es ↔ s.MaximalPath f es := by
    intro es
    unfold MaximalPath
    rw [hgraph]
  unfold DistinctContexts NumbersApart
  simp only [hpath]
  refine forall₂_congr fun es es' => forall₂_congr fun hes hes' => imp_congr_right fun _ => ?_
  exact not_congr (contextField_eq_iff_number hs hok hes hes')

/-- The order of the sort, backwards, for the numbers. -/
theorem exists_sourcesFirst (hs : s.FinalMaps) (hok : s.computeEdgeWeight = .ok s') :
    ∃ l, s.finalGraph.SourcesFirst l ∧ l.length = s.relevantAllFunctionSet.length ∧
      ∀ f ∈ s.relevantAllFunctionSet, f ∈ l := by
  obtain ⟨-, hperm, hsorted, -⟩ := computeEdgeWeight_spec hs hok
  refine ⟨_, hsorted, ?_, fun f hf => List.mem_reverse.mpr (hperm.mem_iff.mpr hf)⟩
  rw [List.length_reverse]
  exact hperm.length_eq

/-- With at most `2 ^ 16` call paths the numbers fit. -/
theorem numbersApart_of_length_le (hs : s.FinalMaps) (hok : s.computeEdgeWeight = .ok s')
    (hf : f ∈ s.relevantAllFunctionSet) (hle : (s.callPathsFrom f).length ≤ 2 ^ 16) :
    s.NumbersApart f := by
  obtain ⟨l, hl, hlen, hmem⟩ := exists_sourcesFirst hs hok
  have hlt : ∀ es, s.MaximalPath f es → s.pathNumber f es < 2 ^ 16 := by
    rintro es ⟨g, hwalk, hsink⟩
    by_cases hfSink : s.finalGraph.IsSink f
    · rw [hwalk.eq_nil_of_isSink hfSink]
      exact Nat.two_pow_pos 16
    · have hnumber := hl.number_lt (hmem f hf) hwalk hsink hfSink
      rw [hlen] at hnumber
      exact lt_of_lt_of_le hnumber hle
  intro es es' hes hes' hne heq
  rw [Nat.mod_eq_of_lt (hlt es hes), Nat.mod_eq_of_lt (hlt es' hes')] at heq
  obtain ⟨g, hwalk, hsink⟩ := hes
  obtain ⟨g', hwalk', hsink'⟩ := hes'
  unfold pathNumber at heq
  rw [← hlen] at heq
  exact hne (hl.eq_of_number_eq (hmem f hf) hwalk hwalk' hsink hsink' heq)

/-- **The width of the context.** The maximal call paths from each function have different contexts
exactly when their numbers differ modulo `2 ^ 16`. A function with at most `2 ^ 16` call paths has
different contexts, one with more than `2 ^ 16` maximal call paths has not. -/
theorem context_width_iff (hs : s.FinalMaps) (hok : s.computeEdgeWeight = .ok s') :
    ((∀ f ∈ s.relevantAllFunctionSet, s'.DistinctContexts f) ↔
        ∀ f ∈ s.relevantAllFunctionSet, s.NumbersApart f) ∧
      ∀ f ∈ s.relevantAllFunctionSet,
        ((s.callPathsFrom f).length ≤ 2 ^ 16 → s'.DistinctContexts f) ∧
          (s'.DistinctContexts f → {es | s.MaximalPath f es}.encard ≤ (2 ^ 16 : ℕ)) := by
  refine ⟨forall₂_congr fun f _ => distinctContexts_iff hs hok, fun f hf => ⟨?_, ?_⟩⟩
  · intro hle
    exact (distinctContexts_iff hs hok).mpr (numbersApart_of_length_le hs hok hf hle)
  · intro hdistinct
    have hapart := (distinctContexts_iff hs hok).mp hdistinct
    refine card_le_of_distinct (f := fun es => s.pathNumber f es % 2 ^ 16)
      (fun es _ => Nat.mod_lt _ (Nat.two_pow_pos 16)) ?_
    intro es hes es' hes' heq
    by_contra hne
    exact hapart es es' hes hes' hne heq

/-- The four call paths from `main` have different contexts. -/
theorem context_width_iff_diamond : ∃ s', diamond.computeEdgeWeight = .ok s' ∧
    (diamond.callPathsFrom "main").length = 7 ∧ s'.DistinctContexts "main" := by
  obtain ⟨s', hok⟩ := computeEdgeWeight_ok diamond_finalMaps diamond_consistent diamond_acyclic
  have hlen : (diamond.callPathsFrom "main").length = 7 := by decide +kernel
  have hwidth := context_width_iff diamond_finalMaps hok
  exact ⟨s', hok, hlen, (hwidth.2 "main" (by decide +kernel)).1 (by rw [hlen]; decide)⟩

/-- `main` calls `make` 256 times, and `make` calls `malloc` 256 times. -/
def manyCalls : InstrumentIRPass where
  callPaths p := if p < 256 then .new p "make" "main" else .new p "malloc" "make"
  functionMap := .empty []
  relevantAllFunctionSet := ["main", "make", "malloc"]
  finalCalleeMap := ((KeyMap.empty []).insert "main" (List.range 256)).insert "make"
    (List.range' 256 256)
  finalCallerMap := ((KeyMap.empty []).insert "make" (List.range 256)).insert "malloc"
    (List.range' 256 256)

theorem manyCalls_callees : manyCalls.finalCalleeMap.get f =
    if f = "make" then List.range' 256 256 else if f = "main" then List.range 256 else [] := by
  simp only [manyCalls, KeyMap.insert, KeyMap.empty, Function.update_apply]

theorem manyCalls_callers : manyCalls.finalCallerMap.get f =
    if f = "malloc" then List.range' 256 256 else if f = "make" then List.range 256 else [] := by
  simp only [manyCalls, KeyMap.insert, KeyMap.empty, Function.update_apply]

theorem mem_manyCalls_callees : p ∈ manyCalls.finalCalleeMap.get f ↔
    f = "main" ∧ p < 256 ∨ f = "make" ∧ 256 ≤ p ∧ p < 512 := by
  rw [manyCalls_callees]
  split_ifs with h h' <;> simp_all [List.mem_range'_1]

theorem mem_manyCalls_callers : p ∈ manyCalls.finalCallerMap.get f ↔
    f = "make" ∧ p < 256 ∨ f = "malloc" ∧ 256 ≤ p ∧ p < 512 := by
  rw [manyCalls_callers]
  split_ifs with h h' <;> simp_all [List.mem_range'_1]

theorem manyCalls_finalMaps : manyCalls.FinalMaps := by
  refine ⟨by decide +kernel, by decide +kernel, fun f => ?_, fun f => ?_, fun f hf => ?_,
    fun f hf => ?_, rfl⟩
  · rw [manyCalls_callees]
    split_ifs
    · exact List.nodup_range'
    · exact List.nodup_range
    · exact List.nodup_nil
  · rw [manyCalls_callers]
    split_ifs
    · exact List.nodup_range'
    · exact List.nodup_range
    · exact List.nodup_nil
  · simp only [manyCalls, List.mem_cons, List.not_mem_nil, or_false, not_or] at hf
    rw [manyCalls_callees, if_neg hf.2.1, if_neg hf.1]
  · simp only [manyCalls, List.mem_cons, List.not_mem_nil, or_false, not_or] at hf
    rw [manyCalls_callers, if_neg hf.2.2, if_neg hf.2.1]

theorem manyCalls_ends : (p < 256 → (manyCalls.callPaths p).caller = "main" ∧
      (manyCalls.callPaths p).callee = "make") ∧
    (256 ≤ p → (manyCalls.callPaths p).caller = "make" ∧
      (manyCalls.callPaths p).callee = "malloc") := by
  refine ⟨fun hp => ?_, fun hp => ?_⟩
  · simp [manyCalls, hp, CallPath.new]
  · simp [manyCalls, Nat.not_lt.mpr hp, CallPath.new]

theorem manyCalls_consistent : manyCalls.Consistent := by
  refine ⟨fun f _ p hp => ⟨List.not_mem_nil, ?_⟩, fun f _ p hp => ⟨List.not_mem_nil, ?_⟩,
    fun f _ p hp => ?_, fun f _ p hp => ?_⟩
  · rcases mem_manyCalls_callees.mp hp with ⟨rfl, hlt⟩ | ⟨rfl, hle, -⟩
    · exact (manyCalls_ends.1 hlt).1
    · exact (manyCalls_ends.2 hle).1
  · rcases mem_manyCalls_callers.mp hp with ⟨rfl, hlt⟩ | ⟨rfl, hle, -⟩
    · exact (manyCalls_ends.1 hlt).2
    · exact (manyCalls_ends.2 hle).2
  · refine mem_manyCalls_callers.mpr ?_
    rcases mem_manyCalls_callees.mp hp with ⟨rfl, hlt⟩ | ⟨rfl, hle⟩
    · exact .inl ⟨(manyCalls_ends.1 hlt).2, hlt⟩
    · exact .inr ⟨(manyCalls_ends.2 hle.1).2, hle⟩
  · refine mem_manyCalls_callees.mpr ?_
    rcases mem_manyCalls_callers.mp hp with ⟨rfl, hlt⟩ | ⟨rfl, hle⟩
    · exact .inl ⟨(manyCalls_ends.1 hlt).1, hlt⟩
    · exact .inr ⟨(manyCalls_ends.2 hle.1).1, hle⟩

theorem manyCalls_acyclic : manyCalls.finalGraph.Acyclic := by
  have hsorted : manyCalls.finalGraph.SourcesFirst ["main", "make", "malloc"] :=
    ⟨by decide +kernel, by decide +kernel, by decide +kernel, trivial⟩
  exact hsorted.acyclic_of_outside (by decide +kernel) manyCalls_finalMaps.calleesOutside

/-- The first call path of all and the second one through the last call of `make` have the same
context. -/
theorem context_width_exceeded : ¬ ∀ s s' : InstrumentIRPass, s.FinalMaps →
    s.finalGraph.Acyclic → s.computeEdgeWeight = .ok s' →
    ∀ f ∈ s.relevantAllFunctionSet, s'.DistinctContexts f := by
  intro hall
  obtain ⟨s', hok⟩ :=
    computeEdgeWeight_ok manyCalls_finalMaps manyCalls_consistent manyCalls_acyclic
  have hdistinct := hall manyCalls s' manyCalls_finalMaps manyCalls_acyclic hok "main"
    (by decide +kernel)
  have hapart := (distinctContexts_iff manyCalls_finalMaps hok).mp hdistinct
  have hsink : manyCalls.finalGraph.IsSink "malloc" := rfl
  have hfirst : manyCalls.MaximalPath "main" [0, 256] :=
    ⟨"malloc", .cons (by decide +kernel) (.cons (by decide +kernel) (.nil _)), hsink⟩
  have hlast : manyCalls.MaximalPath "main" [255, 257] :=
    ⟨"malloc", .cons (by decide +kernel) (.cons (by decide +kernel) (.nil _)), hsink⟩
  exact hapart [0, 256] [255, 257] hfirst hlast (by decide) (by decide +kernel)

end InstrumentIRPass

end Semalloc
