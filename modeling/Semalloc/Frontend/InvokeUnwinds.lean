import Semalloc.Frontend.DuplicatedFunction

/-!
# Blocks of their own for the recorded calls

`DuplicateInvokeUnwinds` goes through the recorded calls. Each round keeps what the rounds before
have achieved, and whether a block is a later predecessor of itself does not change for the calls to
come. So the loop either comes to its end, with the same executions, or stops at the first such
block.

## Main definitions

* `OwnLandingPad`: a call unwinds to a block with one predecessor
* `NoLaterSelfUnwind`: the block is no later predecessor of itself
* `ExecutionsPreserved`: every execution goes on alike

## Main results

* `duplicateInvokeUnwinds_iff`: when the pass keeps its promise
-/

set_option autoImplicit false

namespace Semalloc

namespace PostMLTAPass

open SSA

variable {f : Func} {invokeInst : ℕ}

/-- The call is one of the function. -/
def Recorded (f : Func) (invokeInst : ℕ) : Prop :=
  ∃ b ∈ f.blocks, invokeInst ∈ (f.block b).terminator.results

/-- The call unwinds to a block with exactly one predecessor. -/
def OwnLandingPad (f : Func) (invokeInst : ℕ) : Prop :=
  ∃ u, getUnwindDest f invokeInst = some u ∧ (f.predecessors u).length = 1

/-- The block that the call unwinds to does not unwind to itself, except as its first predecessor. -/
def NoLaterSelfUnwind (f : Func) (invokeInst : ℕ) : Prop :=
  ∀ d, getUnwindDest f invokeInst = some d → d ∉ (f.predecessors d).tail

/-- What one round of the loop leaves. -/
structure RoundDone (f : Func) (invokeInst : ℕ) (f' : Func) : Prop where
  wellFormed : f'.WellFormed
  simulates : ∃ σ β, Simulates f f' σ β
  ownLandingPad : OwnLandingPad f' invokeInst
  recorded : ∀ J, Recorded f J → Recorded f' J
  kept : ∀ J, Recorded f J → OwnLandingPad f J → OwnLandingPad f' J
  selfUnwind : ∀ J, Recorded f J → (NoLaterSelfUnwind f' J ↔ NoLaterSelfUnwind f J)

/-- A recorded call unwinds to a landing pad. -/
theorem Recorded.unwinds (hf : f.WellFormed) (h : Recorded f invokeInst) :
    ∃ b ∈ f.blocks, invokeInst ∈ (f.block b).terminator.results ∧
      ∃ d pad, (f.block b).terminator.unwindDest = some d ∧
        getUnwindDest f invokeInst = some d ∧ d ∈ f.blocks ∧
        (f.block d).landingPad = some pad ∧ b ∈ f.predecessors d := by
  obtain ⟨b, hb, hcall⟩ := h
  obtain ⟨d, hd⟩ : ∃ d, (f.block b).terminator.unwindDest = some d := by
    cases hterm : (f.block b).terminator with
    | br dest =>
      rw [hterm] at hcall
      cases hcall
    | switch op operands dests =>
      rw [hterm] at hcall
      cases hcall
    | invoke result op operands normalDest unwindDest => exact ⟨unwindDest, rfl⟩
  obtain ⟨pad, hpad⟩ := Option.ne_none_iff_exists'.mp (hf.unwinds b hb d hd)
  exact ⟨b, hb, hcall, d, pad, hd, (getUnwindDest_eq hf hb hcall).trans hd,
    hf.successors b hb d (Func.mem_successors.mpr (.inr hd)), hpad,
    (mem_predecessors hf hpad).mpr ⟨hb, hd⟩⟩

/-- A call that came to the split block has a block of its own; the others unwind as before. -/
theorem Duplicated.unwinds {f' : Func} {d J : ℕ} {pad : LandingPad} (hf : f.WellFormed)
    (hpad : (f.block d).landingPad = some pad) (hd : d ∈ f.blocks) (h : Duplicated f d pad f')
    (hpos : f.predecessors d ≠ []) (hJ : Recorded f J) :
    (getUnwindDest f J = some d ∧
        ∃ u l, getUnwindDest f' J = some u ∧ f'.predecessors u = [l]) ∨
      ∃ e ∈ f.blocks, e ≠ d ∧ getUnwindDest f J = some e ∧ getUnwindDest f' J = some e ∧
        f'.predecessors e = (f.predecessors e).map (moved f d) := by
  obtain ⟨c, hc, hresult, e, pad', hcall, hunwind, he, hpad', hpred⟩ := hJ.unwinds hf
  have hterm := (h.code hc).2
  have hafter : getUnwindDest f' J = some (redirected f d c e) := by
    rw [getUnwindDest_eq (h.wellFormed hf hpad hd hpos) (h.mem_moved hc)
      (by rw [hterm, results_redirect]; exact hresult), hterm, unwindDest_redirect, hcall,
      Option.map_some]
  by_cases hed : e = d
  · subst hed
    rw [redirected, if_pos rfl] at hafter
    exact .inl ⟨hunwind, _, _, hafter, h.predecessors_target hf hpad hd hpos hpred⟩
  · rw [redirected, if_neg hed] at hafter
    exact .inr ⟨e, he, hed, hunwind, hafter,
      h.predecessors_kept hf hpad hd hpos he hed hpad'⟩

/-- **One round**: the call gets a block of its own. -/
theorem duplicateUnwind_round (hf : f.WellFormed) (hcall : Recorded f invokeInst)
    (hself : NoLaterSelfUnwind f invokeInst) :
    ∃ f', duplicateUnwind f invokeInst = some f' ∧ RoundDone f invokeInst f' := by
  obtain ⟨b, hb, hresult, d, pad, -, hunwind, hd, hpad, hpred⟩ := hcall.unwinds hf
  by_cases hlen : (f.predecessors d).length = 1
  · refine ⟨f, ?_, hf, ⟨id, id, .refl hf⟩, ⟨d, hunwind, hlen⟩, fun _ h => h, fun _ _ h => h,
      fun _ _ => Iff.rfl⟩
    unfold duplicateUnwind
    rw [hunwind, Option.bind_eq_bind, Option.bind_some]
    exact if_pos hlen
  · obtain ⟨f', hrun, h⟩ := duplicateUnwind_spec hf hpad hd hunwind hlen (hself d hunwind)
    have hpos : f.predecessors d ≠ [] := List.ne_nil_of_mem hpred
    have hafter := fun J hJ => h.unwinds (J := J) hf hpad hd hpos hJ
    refine ⟨f', hrun, h.wellFormed hf hpad hd hpos, ⟨_, _, h.simulates hf hpad hd⟩, ?_, ?_, ?_, ?_⟩
    · rcases hafter invokeInst hcall with ⟨-, u, l, hu, hpreds⟩ | ⟨e, -, hed, he, -⟩
      · exact ⟨u, hu, by rw [hpreds]; rfl⟩
      · exact absurd (Option.some.inj (he.symm.trans hunwind)) hed
    · rintro J ⟨c, hc, hJ⟩
      refine ⟨moved f d c, h.mem_moved hc, ?_⟩
      rw [(h.code hc).2, results_redirect]
      exact hJ
    · rintro J hJ ⟨u, hu, hone⟩
      rcases hafter J hJ with ⟨-, u', l, hu', hpreds⟩ | ⟨e, -, -, he, he', hpreds⟩
      · exact ⟨u', hu', by rw [hpreds]; rfl⟩
      · obtain rfl := Option.some.inj (hu.symm.trans he)
        exact ⟨u, he', by rw [hpreds, List.length_map, hone]⟩
    · intro J hJ
      unfold NoLaterSelfUnwind
      rcases hafter J hJ with ⟨hu, u', l, hu', hpreds⟩ | ⟨e, hemem, hed, he, he', hpreds⟩
      · simp only [hu, hu', Option.some.injEq, forall_eq', hpreds, List.tail_cons,
          List.not_mem_nil, not_false_eq_true, true_iff]
        exact hself d hunwind
      · simp only [he, he', Option.some.injEq, forall_eq', hpreds,
          ← List.map_tail]
        refine not_congr ⟨fun hmem => ?_, fun hmem => ?_⟩
        · obtain ⟨x, hx, heq⟩ := List.mem_map.mp hmem
          have hxmem := Func.mem_blocks_of_mem_predecessors (List.mem_of_mem_tail hx)
          obtain rfl := moved_inj hf hxmem hemem (heq.trans (moved_of_ne hed).symm)
          exact hx
        · exact List.mem_map.mpr ⟨e, hmem, moved_of_ne hed⟩

/-- A block that unwinds to itself, not as its first predecessor, makes the pass follow a null
pointer. -/
theorem duplicateUnwind_crash (hf : f.WellFormed) (hcall : Recorded f invokeInst)
    (hself : ¬ NoLaterSelfUnwind f invokeInst) : duplicateUnwind f invokeInst = none := by
  obtain ⟨b, hb, hresult, d, pad, -, hunwind, hd, hpad, hpred⟩ := hcall.unwinds hf
  refine duplicateUnwind_none hf hpad hd hunwind (not_not.mp fun hnot => hself fun e he => ?_)
  rwa [← Option.some.inj (hunwind.symm.trans he)]

/-! ## All rounds -/

theorem duplicateInvokeUnwinds_cons (I : ℕ) (invokes : List ℕ) :
    duplicateInvokeUnwinds f (I :: invokes) =
      (duplicateUnwind f I).bind fun f => duplicateInvokeUnwinds f invokes :=
  List.foldlM_cons

/-- **The whole loop** when no later predecessor is in the way. -/
theorem duplicateInvokeUnwinds_spec {invokes : List ℕ} (hf : f.WellFormed)
    (hcalls : ∀ I ∈ invokes, Recorded f I) (hself : ∀ I ∈ invokes, NoLaterSelfUnwind f I) :
    ∃ f', duplicateInvokeUnwinds f invokes = some f' ∧ (∃ σ β, Simulates f f' σ β) ∧
      (∀ I ∈ invokes, OwnLandingPad f' I) ∧
      ∀ J, Recorded f J → OwnLandingPad f J → OwnLandingPad f' J := by
  induction invokes generalizing f with
  | nil =>
    exact ⟨f, rfl, ⟨id, id, .refl hf⟩, fun _ h => absurd h List.not_mem_nil, fun _ _ h => h⟩
  | cons I invokes ih =>
    have hI := hcalls I List.mem_cons_self
    obtain ⟨f₁, hround, hdone⟩ := duplicateUnwind_round hf hI (hself I List.mem_cons_self)
    obtain ⟨f', hrest, ⟨σ', β', hsim'⟩, hown, hkept⟩ := ih (f := f₁) hdone.wellFormed
      (fun J hJ => hdone.recorded J (hcalls J (List.mem_cons_of_mem I hJ)))
      fun J hJ => (hdone.selfUnwind J (hcalls J (List.mem_cons_of_mem I hJ))).mpr
        (hself J (List.mem_cons_of_mem I hJ))
    obtain ⟨σ, β, hsim⟩ := hdone.simulates
    refine ⟨f', ?_, ⟨_, _, hsim.trans hsim'⟩, fun J hJ => ?_, fun J hJ h => ?_⟩
    · rw [duplicateInvokeUnwinds_cons, hround, Option.bind_some]
      exact hrest
    · rcases List.mem_cons.mp hJ with rfl | hJ
      · exact hkept J (hdone.recorded J hI) hdone.ownLandingPad
      · exact hown J hJ
    · exact hkept J (hdone.recorded J hJ) (hdone.kept J hJ h)

/-- The loop stops at the first call whose block unwinds to itself later. -/
theorem duplicateInvokeUnwinds_crash {invokes : List ℕ} (hf : f.WellFormed)
    (hcalls : ∀ I ∈ invokes, Recorded f I) {I : ℕ} (hI : I ∈ invokes)
    (hself : ¬ NoLaterSelfUnwind f I) : duplicateInvokeUnwinds f invokes = none := by
  induction invokes generalizing f with
  | nil => cases hI
  | cons J invokes ih =>
    rw [duplicateInvokeUnwinds_cons]
    by_cases hJself : NoLaterSelfUnwind f J
    · obtain ⟨f₁, hround, hdone⟩ :=
        duplicateUnwind_round hf (hcalls J List.mem_cons_self) hJself
      rw [hround, Option.bind_some]
      have hmem : I ∈ invokes := (List.mem_cons.mp hI).resolve_left fun h => hself (h ▸ hJself)
      exact ih (f := f₁) hdone.wellFormed
        (fun K hK => hdone.recorded K (hcalls K (List.mem_cons_of_mem J hK))) hmem
        fun h => hself ((hdone.selfUnwind I (hcalls I hI)).mp h)
    · rw [duplicateUnwind_crash hf (hcalls J List.mem_cons_self) hJself, Option.bind_none]

/-- Every execution goes on alike in the new function: when the code of a block starts, the
φ-nodes, the landing pads and all other registers have their old values. -/
def ExecutionsPreserved (f f' : Func) : Prop :=
  ∃ σ β, Simulates f f' σ β ∧ ∀ (Val World : Type) (M : Machine Val World) (undefined : Val)
    (args : ℕ → Val) (w : World) (st : State Val World),
      StateTransition.Reaches (M.step f) (f.start undefined args w) st →
        ∃ st', Related f σ β st st' ∧
          StateTransition.Reaches (M.step f') (f'.start undefined args w) st'

/-- **Landing-pad duplication** gives each recorded call a block of its own and preserves all
executions, exactly if no block that one of the calls unwinds to is a later predecessor of itself. -/
theorem duplicateInvokeUnwinds_iff {invokes : List ℕ} (hf : f.WellFormed)
    (hcalls : ∀ I ∈ invokes, Recorded f I) :
    (∃ f', duplicateInvokeUnwinds f invokes = some f' ∧ (∀ I ∈ invokes, OwnLandingPad f' I) ∧
      ExecutionsPreserved f f') ↔ ∀ I ∈ invokes, NoLaterSelfUnwind f I := by
  constructor
  · rintro ⟨f', hrun, -⟩ I hI
    by_contra hself
    rw [duplicateInvokeUnwinds_crash hf hcalls hI hself] at hrun
    cases hrun
  · intro hself
    obtain ⟨f', hrun, ⟨σ, β, hsim⟩, hown, -⟩ := duplicateInvokeUnwinds_spec hf hcalls hself
    exact ⟨f', hrun, hown, σ, β, hsim, fun _ _ M undefined args w st hreach =>
      hsim.reaches hreach⟩

/-- Two calls that unwind to the same block, with a φ-node for how far the code came. -/
def sharedPad : Func where
  entry := 0
  params := []
  blocks := [0, 1, 2, 3]
  block b := [
    { phis := [], landingPad := none, body := [], terminator := .invoke 0 0 [] 1 2 },
    { phis := [], landingPad := none, body := [], terminator := .invoke 1 0 [.reg 0] 3 2 },
    { phis := [⟨2, [(0, .const 0), (1, .reg 0)]⟩]
      landingPad := some ⟨3, 0⟩
      body := [⟨4, 1, [.reg 2, .reg 3]⟩]
      terminator := .br 3 },
    { phis := [⟨5, [(1, .reg 1), (2, .reg 4)]⟩]
      landingPad := none
      body := []
      terminator := .switch 0 [.reg 5] [] }].getD b ⟨[], none, [], .br 0⟩
  nextBlock := 4
  nextReg := 6

/-- A call that is tried again when it throws: the block it unwinds to ends with the call. -/
def retried : Func where
  entry := 0
  params := []
  blocks := [0, 1, 2]
  block b := [
    { phis := [], landingPad := none, body := [], terminator := .invoke 0 0 [] 2 1 },
    { phis := [⟨1, [(0, .const 0), (1, .reg 3)]⟩]
      landingPad := some ⟨2, 0⟩
      body := [⟨3, 1, [.reg 1]⟩]
      terminator := .invoke 4 0 [] 2 1 },
    { phis := [], landingPad := none, body := [], terminator := .switch 0 [] [] }].getD b
      ⟨[], none, [], .br 0⟩
  nextBlock := 3
  nextReg := 5

/-- φ-nodes have a value for each predecessor, and for no other block. -/
theorem phis_of_forall {f : Func} (h : ∀ b ∈ f.blocks, ∀ p ∈ (f.block b).phis,
    (∀ l ∈ p.incoming.map Prod.fst, l ∈ f.blocks ∧ b ∈ (f.block l).terminator.successors) ∧
      ∀ l ∈ f.blocks, b ∈ (f.block l).terminator.successors → l ∈ p.incoming.map Prod.fst) :
    ∀ b ∈ f.blocks, ∀ p ∈ (f.block b).phis, ∀ l,
      l ∈ p.incoming.map Prod.fst ↔ l ∈ f.blocks ∧ b ∈ (f.block l).terminator.successors :=
  fun b hb p hp l => ⟨(h b hb p hp).1 l, fun hl => (h b hb p hp).2 l hl.1 hl.2⟩

theorem sharedPad_wellFormed : sharedPad.WellFormed where
  blocksNodup := by decide
  blocksLt := by decide
  entry := by decide
  entryPad := by decide
  successors := by decide
  branches := by decide
  unwinds := by decide
  phis := phis_of_forall (by decide)
  resultsNodup := by decide
  resultsApart := ⟨fun r => [0, 1, 2, 2, 2, 3].getD r 0, by decide⟩
  resultsLt := by decide
  usesLt := by decide
  paramsLt := by decide
  params := by decide

theorem retried_wellFormed : retried.WellFormed where
  blocksNodup := by decide
  blocksLt := by decide
  entry := by decide
  entryPad := by decide
  successors := by decide
  branches := by decide
  unwinds := by decide
  phis := phis_of_forall (by decide)
  resultsNodup := by decide
  resultsApart := ⟨fun r => [0, 1, 1, 1, 1].getD r 0, by decide⟩
  resultsLt := by decide
  usesLt := by decide
  paramsLt := by decide
  params := by decide

/-- Both calls get blocks of their own. -/
theorem duplicateInvokeUnwinds_iff_sharedPad :
    ∃ f', duplicateInvokeUnwinds sharedPad [0, 1] = some f' ∧
      (∀ I ∈ [0, 1], OwnLandingPad f' I) ∧ ExecutionsPreserved sharedPad f' := by
  refine (duplicateInvokeUnwinds_iff sharedPad_wellFormed (by unfold Recorded; decide)).mpr ?_
  intro I hI d hd
  have hdest : ∀ I ∈ [0, 1], getUnwindDest sharedPad I = some 2 := by decide
  obtain rfl := Option.some.inj ((hdest I hI).symm.trans hd)
  decide

/-- When the block is split, its call moves to the new block; the old one no longer ends with a
call. -/
theorem retried_crashes : retried.WellFormed ∧ (∀ I ∈ [0, 4], Recorded retried I) ∧
    ¬ ∃ f', duplicateInvokeUnwinds retried [0, 4] = some f' ∧
      (∀ I ∈ [0, 4], OwnLandingPad f' I) ∧ ExecutionsPreserved retried f' := by
  have hcalls : ∀ I ∈ [0, 4], Recorded retried I := by unfold Recorded; decide
  refine ⟨retried_wellFormed, hcalls, ?_⟩
  rintro ⟨f', hrun, -⟩
  have hself : ¬ NoLaterSelfUnwind retried 0 := fun h => h 1 (by decide) (by decide)
  rw [duplicateInvokeUnwinds_crash retried_wellFormed hcalls List.mem_cons_self hself] at hrun
  cases hrun

end PostMLTAPass

end Semalloc
