import Semalloc.Frontend.PathTrack

/-!
# The loop bit

The word that reaches a heap function should have the loop bit while `CSSLoopLayerTrack` is not zero,
and this should be while some active call took a loop edge. The branch in front of the heap call
compares the address of the counter with zero, and not its value, so the bit is always set. And the
code before a call counts a loop layer for the first entry with a mark of its instruction, whichever
function the call enters.

## Main definitions

* `accrued`: what a call that is over has added to a counter
* `heapWord`: the word that reaches a heap function
* `IsLoopEdge`, `CountedAsLoop`: calls that took a loop edge, and calls that the code counts as such
* `LoopFlagReflects`: the loop bit, the counter and the edges taken agree

## Main results

* `Instrumented.descent_accrued`: the counters at a heap call, whatever happened before
* `loop_flag_reflects_counter`: the heap calls at which the bit is right
-/

set_option autoImplicit false

namespace Semalloc

/-! ## The counters after any history -/

namespace Code

variable {stack : Word} {c : Code} {inst : Site → CallInst} {marks : List Mark} {s : Site}
  {o : Outcome} {v : Counter} {g : Globals}

/-- What the code that ran along a trace has added to a counter. An exception that comes through a
plain call leaves what was added before the call. -/
def accrued (inst : Site → CallInst) (marks : List Mark) (v : Counter) : Trace → Word
  | .done => 0
  | .enter b rest => accrued inst marks v rest -
    ((marks.filter fun m => returnsTo inst b m.site).map (Mark.boundAmount · v)).sum
  | .call s _ callee o rest =>
    (if inst s = .call ∧ o = .threw then amountOf marks s v else -others inst marks s o v) +
      accrued inst marks v callee + accrued inst marks v rest

/-- What the code around a call adds. -/
theorem Instrumented.changes_call (h : Instrumented inst marks c)
    (hmarks : (marks.map Mark.site).Nodup) :
    Emitted.changes v (c.before s) + Emitted.changes v (c.resume s o) =
      if inst s = .call ∧ o = .threw then amountOf marks s v else -others inst marks s o v := by
  split
  · rename_i hthrough
    rw [h.resume_through hthrough, h.changes_before, Emitted.changes_nil, add_zero]
  · rename_i hthrough
    exact h.changes_around hmarks (resumes_of_not_through hthrough)

/-- **What any trace adds** to a counter. -/
theorem Instrumented.execute_accrued (h : Instrumented inst marks c)
    (hmarks : (marks.map Mark.site).Nodup) (t : Trace) :
    (c.execute stack t g).counters v = g.counters v + accrued inst marks v t := by
  induction t generalizing g with
  | done => exact (add_zero _).symm
  | enter b rest ih =>
    change (c.execute stack rest _).counters v = _
    rw [ih, Emitted.runAll_counters, h.changes_head, accrued]
    ring
  | call s frame callee o rest ihCallee ihRest =>
    rw [execute_call, ihRest, Emitted.runAll_counters, ihCallee, Emitted.runAll_counters, accrued,
      ← h.changes_call hmarks]
    ring

/-- **The counters below active calls**: what the calls before them added, and what they add. -/
theorem Instrumented.descent_accrued (h : Instrumented inst marks c)
    (hmarks : (marks.map Mark.site).Nodup) (d : Descent) :
    (d.execute stack c g).counters v = g.counters v + ((d.befores.map (accrued inst marks v)).sum +
      (d.sites.map fun s => amountOf marks s v).sum) := by
  induction d generalizing g with
  | here => simp [Descent.execute, Descent.befores, Descent.sites]
  | within before s frame callee ih =>
    rw [Descent.execute, ih, Emitted.runAll_counters, h.execute_accrued hmarks, h.changes_before,
      Descent.befores, Descent.sites, List.map_cons, List.map_cons, List.sum_cons, List.sum_cons]
    ring

/-! ## Loop layers -/

/-- The code before the call counts a loop layer. -/
def CountsLayer (marks : List Mark) (s : Site) : Prop :=
  ∃ m ∈ marks, m.site = s ∧ m.pathType ≠ .markBranch

theorem amountOf_loopLayer (hmarks : (marks.map Mark.site).Nodup) (s : Site) :
    (amountOf marks s .loopLayer).toNat ≤ 2 ∧
      (amountOf marks s .loopLayer ≠ 0 ↔ CountsLayer marks s) := by
  unfold amountOf
  cases hm : markOf marks s with
  | none =>
    refine ⟨Nat.zero_le _, iff_of_false (fun h => h rfl) ?_⟩
    rintro ⟨m, hmem, rfl, -⟩
    have hsome : (markOf marks m.site).isSome :=
      List.find?_isSome.mpr ⟨m, hmem, decide_eq_true rfl⟩
    rw [hm] at hsome
    cases hsome
  | some m =>
    obtain ⟨hmem, rfl⟩ := mem_of_markOf hm
    have hloop : CountsLayer marks m.site ↔ m.pathType ≠ .markBranch := by
      refine ⟨?_, fun hp => ⟨m, hmem, rfl, hp⟩⟩
      rintro ⟨m', hmem', hsite, hp⟩
      rwa [← List.inj_on_of_nodup_map hmarks hmem' hmem hsite]
    rw [hloop]
    simp only [Option.map_some, Option.getD_some, Mark.amount]
    cases m.pathType <;> exact ⟨by decide, by decide⟩

/-- A sum of few layers is zero only if all of them are. -/
theorem sum_layers_ne_zero (hmarks : (marks.map Mark.site).Nodup) {sites : List Site}
    (hlength : sites.length < 2 ^ 62) :
    (sites.map fun s => amountOf marks s .loopLayer).sum ≠ 0 ↔
      ∃ s ∈ sites, CountsLayer marks s := by
  -- the sum does not wrap, so it is the sum of the numbers
  have hsum : ((sites.map fun s => amountOf marks s .loopLayer).sum).toNat =
        (sites.map fun s => (amountOf marks s .loopLayer).toNat).sum ∧
      (sites.map fun s => (amountOf marks s .loopLayer).toNat).sum ≤ 2 * sites.length := by
    induction sites with
    | nil => exact ⟨rfl, le_rfl⟩
    | cons s sites ih =>
      rw [List.length_cons] at hlength
      obtain ⟨hnat, hle⟩ := ih (Nat.lt_of_succ_lt hlength)
      have hone := (amountOf_loopLayer hmarks s).1
      simp only [List.map_cons, List.sum_cons, List.length_cons, BitVec.toNat_add, hnat]
      omega
  rw [ne_eq, ← BitVec.toNat_inj, hsum.1]
  change ¬ (sites.map fun s => (amountOf marks s .loopLayer).toNat).sum = 0 ↔ _
  rw [List.sum_eq_zero_iff]
  push Not
  constructor
  · rintro ⟨n, hn, hne⟩
    obtain ⟨s, hs, rfl⟩ := List.mem_map.mp hn
    refine ⟨s, hs, (amountOf_loopLayer hmarks s).2.mp fun hzero => hne ?_⟩
    rw [hzero]
    rfl
  · rintro ⟨s, hs, hloop⟩
    refine ⟨_, List.mem_map.mpr ⟨s, hs, rfl⟩, fun hzero => ?_⟩
    exact (amountOf_loopLayer hmarks s).2.mpr hloop (BitVec.eq_of_toNat_eq hzero)

/-! ## The word -/

/-- The word that reaches a heap function. The branch compares the address of `CSSLoopLayerTrack`
with zero. -/
def heapWord (address size : Word) (g : Globals) : Word :=
  tagWord size (g.counters .track) g.hash (address ≠ 0)

/-- The bit is always set. -/
theorem heapWord_loopBit {address size : Word} (haddress : address ≠ 0) (hsize : size ≤ maxSize) :
    heapWord address size g &&& loopBit ≠ 0 := by
  unfold heapWord tagWord
  rw [if_neg (BitVec.not_lt.mpr hsize), if_pos (decide_eq_true haddress)]
  intro hzero
  have hbit := congrArg (fun w : Word => w.getLsbD 62) hzero
  simp [loopBit] at hbit

end Code

namespace InstrumentIRPass

open Multigraph Code

variable {t : InstrumentIRPass} {inst : Site → CallInst} {p : ℕ}

/-- The call enters its callee through a loop edge: one of the types for which `doModulePass`
increments the loop layers. -/
def IsLoopEdge (t : InstrumentIRPass) (p : ℕ) : Prop :=
  (t.callPaths p).pathType = .markSimpleLoop ∨ (t.callPaths p).pathType = .markInbound ∨
    (t.callPaths p).pathType = .markOutbound

instance (t : InstrumentIRPass) : DecidablePred t.IsLoopEdge :=
  fun _ => inferInstanceAs (Decidable (_ ∨ _))

/-- The code before the call is that of a loop edge: of the first entry with a mark of the
instruction. -/
def CountedAsLoop (t : InstrumentIRPass) (p : ℕ) : Prop :=
  ∃ f, ∃ q ∈ t.firstMarked f (t.callPaths p).callInst, t.IsLoopEdge q

/-- What the calls that are over and the active calls have added to the loop layers. -/
def layers (t : InstrumentIRPass) (inst : Site → CallInst) (d : Descent) : Word :=
  (d.befores.map (accrued inst t.marks .loopLayer)).sum +
    (d.sites.map fun s => amountOf t.marks s .loopLayer).sum

/-- At the heap call that is made below the active calls, of which each took an edge of `es`, the
loop bit, the counter and the edges taken agree. -/
def LoopFlagReflects (t : InstrumentIRPass) (inst : Site → CallInst) (stack address size : Word)
    (g : Globals) (d : Descent) (es : List ℕ) : Prop :=
  let g' := d.execute stack (t.doModulePass (original inst)) g
  (heapWord address size g' &&& loopBit ≠ 0 ↔ g'.counters .loopLayer ≠ 0) ∧
    (g'.counters .loopLayer ≠ 0 ↔ ∃ p ∈ es, t.IsLoopEdge p)

/-- Pushing weights down makes no loop edge. -/
theorem Placed.countsLayer_iff (h : t.Placed) :
    CountsLayer t.marks (t.callPaths p).callInst ↔ t.CountedAsLoop p := by
  have htypes := (h.ordered.carryWeights_spec).2.2
  constructor
  · rintro ⟨m, hm, hsite, hbranch⟩
    obtain ⟨f, q, hq, hinner, rfl⟩ := h.mem_marks.mp hm
    rw [hsite] at hq
    obtain ⟨hmem, -, hcarried⟩ := mem_of_firstMarked hq
    refine ⟨f, q, hq, ?_⟩
    change (t.carryWeights.callPaths q).pathType ≠ _ at hbranch
    have hdefault := mt (htypes f q hmem).mp hcarried
    unfold IsInner at hinner
    rw [h.ordered.carryWeights_pathType hmem] at hbranch hinner hdefault
    unfold IsLoopEdge
    split at hbranch
    · exact absurd rfl hbranch
    · rename_i hsame
      rw [if_neg hsame] at hinner hdefault
      cases htype : (t.callPaths q).pathType <;> simp_all
  · rintro ⟨f, q, hq, hloop⟩
    obtain ⟨hmem, hinst, -⟩ := mem_of_firstMarked hq
    have hsame : (t.carryWeights.callPaths q).pathType = (t.callPaths q).pathType := by
      rw [h.ordered.carryWeights_pathType hmem, if_neg]
      rintro ⟨hdefault, -⟩
      rw [IsLoopEdge, hdefault] at hloop
      simp at hloop
    have hsite : (t.carryWeights.markFor q).site = (t.callPaths p).callInst :=
      (h.ordered.carryWeights_spec.1.callInst q).trans hinst
    refine ⟨t.carryWeights.markFor q, h.mem_marks.mpr ⟨f, q, hsite ▸ hq, ?_, rfl⟩, hsite, ?_⟩
    · rw [IsInner, hsame]
      rcases hloop with htype | htype | htype <;> simp [htype]
    · change (t.carryWeights.callPaths q).pathType ≠ _
      rw [hsame]
      rcases hloop with htype | htype | htype <;> simp [htype]

variable {callPaths : ℕ → CallPath} {functionMap : KeyMap String (List ℕ)}
  {kosaraju : List (String × String) → SCCResult}

/-- **The loop bit.** In every execution of the instrumented program, at a heap call of at most 32
bits, the bit, the counter and the edges taken agree exactly when some active call took a loop edge,
and what the calls that are over and the active calls have added to the layers is not zero. Where the
calls that are over have left nothing, the latter is so exactly when some active call is counted as
one of a loop edge. -/
theorem loop_flag_reflects_counter (hwf : WellFormed callPaths functionMap)
    (hsites : ∀ p ∈ (initial callPaths functionMap).paths,
      ∀ q ∈ (initial callPaths functionMap).paths,
        (callPaths p).callInst = (callPaths q).callInst → (callPaths p).caller = (callPaths q).caller)
    (inLoop : ℕ → Bool)
    (hr : (kosaraju (initial callPaths functionMap).doInitialization.markedEdges).Correct
      (initial callPaths functionMap).doInitialization.markedEdges)
    (inst : Site → CallInst) {address size : Word} (haddress : address ≠ 0)
    (hsize : size ≤ maxSize) :
    ∃ t, (initial callPaths functionMap).analyze inLoop kosaraju = .ok t ∧
      ∀ (stack : Word) (g : Globals) (d : Descent) (es : List ℕ), g.counters .loopLayer = 0 →
        d.sites = es.map (fun p => (t.callPaths p).callInst) →
        (t.LoopFlagReflects inst stack address size g d es ↔
          (∃ p ∈ es, t.IsLoopEdge p) ∧ t.layers inst d ≠ 0) ∧
        ((∀ b ∈ d.befores, accrued inst t.marks .loopLayer b = 0) → es.length < 2 ^ 62 →
          (t.LoopFlagReflects inst stack address size g d es ↔
            (∃ p ∈ es, t.IsLoopEdge p) ∧ ∃ p ∈ es, t.CountedAsLoop p)) := by
  obtain ⟨t, hok, hplaced⟩ := placed_of_analyze hwf hsites inLoop hr
  refine ⟨t, hok, fun stack g d es hstart hedges => ?_⟩
  have hmarks := hplaced.marks_nodup
  have hbit := heapWord_loopBit (g := d.execute stack (t.doModulePass (original inst)) g) haddress
    hsize
  have hcounter : (d.execute stack (t.doModulePass (original inst)) g).counters .loopLayer =
      t.layers inst d := by
    rw [(hplaced.instrumented inst).descent_accrued hmarks, hstart, zero_add, layers]
  have hiff : t.LoopFlagReflects inst stack address size g d es ↔
      (∃ p ∈ es, t.IsLoopEdge p) ∧ t.layers inst d ≠ 0 := by
    unfold LoopFlagReflects
    dsimp only
    rw [iff_true_left hbit, hcounter]
    exact ⟨fun ⟨hne, hloop⟩ => ⟨hloop.mp hne, hne⟩, fun ⟨hloop, hne⟩ => ⟨hne, iff_of_true hne hloop⟩⟩
  refine ⟨hiff, fun hsettled hlength => hiff.trans (and_congr_right fun _ => ?_)⟩
  have hzero : (d.befores.map (accrued inst t.marks .loopLayer)).sum = 0 := by
    rw [List.map_congr_left hsettled, List.map_const', List.sum_replicate, smul_zero]
  rw [layers, hzero, zero_add, sum_layers_ne_zero hmarks (by rwa [hedges, List.length_map]), hedges]
  simp only [List.mem_map, exists_exists_and_eq_and, hplaced.countsLayer_iff]

/-- `main` calls `fresh`, after another call of it returned, and `fresh` calls `malloc` in a loop. -/
theorem loop_flag_reflects_counter_sharedEntry :
    ∃ t, sharedEntry.analyze (fun i => i = 2) (fun _ => sharedEntryComponents) = .ok t ∧
      t.finalGraph.Walk "main" [0, 3] "malloc" ∧
      t.LoopFlagReflects (fun _ => .call) 0x1000 0x2000 24 ⟨fun _ => 0, 0, fun _ => 0⟩
        (.within (.call 1 64 .done .returned .done) 0 64 (.within .done 2 128 .here)) [0, 3] := by
  have hrun : (sharedEntry.analyze (fun i => i = 2) fun _ => sharedEntryComponents).toOption.map
      (fun t => decide (0 ∈ t.finalCalleeMap.get "main" ∧ (t.callPaths 0).callee = "fresh" ∧
        3 ∈ t.finalCalleeMap.get "fresh" ∧ (t.callPaths 3).callee = "malloc" ∧
        [0, 3].map (fun p => (t.callPaths p).callInst) = [0, 2] ∧ t.IsLoopEdge 3 ∧
        t.firstMarked "fresh" (t.callPaths 3).callInst = some 3)) = some true := by decide +kernel
  obtain ⟨t, hok, hall⟩ := @loop_flag_reflects_counter _ _ (fun _ => sharedEntryComponents)
    sharedEntry_wellFormed sharedEntry_hypotheses.2 (fun i => i = 2) sharedEntryComponents_correct
    (fun _ => .call) 0x2000 24 (by decide) (by decide)
  change sharedEntry.analyze _ _ = _ at hok
  rw [hok] at hrun
  simp only [Except.toOption, Option.map_some, Option.some.injEq] at hrun
  obtain ⟨hmain, hfresh, hcall, hmalloc, hinst, hloop, hfirst⟩ := of_decide_eq_true hrun
  have hsites : (Descent.within (.call 1 64 .done .returned .done) 0 64
      (.within .done 2 128 .here)).sites = [0, 3].map fun p => (t.callPaths p).callInst := hinst.symm
  refine ⟨t, hok, ?_, ((hall _ _ _ [0, 3] rfl hsites).2 ?_ (by decide)).mpr ?_⟩
  · refine .cons hmain ?_
    rw [show t.finalGraph.target 0 = "fresh" from hfresh]
    refine .cons hcall ?_
    rw [show t.finalGraph.target 3 = "malloc" from hmalloc]
    exact .nil _
  · intro b hb
    simp only [Descent.befores, List.mem_cons, List.not_mem_nil, or_false] at hb
    rcases hb with rfl | rfl
    · simp [accrued, others]
    · rfl
  · exact ⟨⟨3, by simp, hloop⟩, 3, by simp, "fresh", 3, hfirst, hloop⟩

/-- **The bit without a loop**: `main` calls `grow`, and `grow` calls `malloc`, not in a loop. The
word has the loop bit, while the counter is zero. -/
theorem loop_bit_always_set :
    ∃ t, sharedEntry.analyze (fun i => i = 2) (fun _ => sharedEntryComponents) = .ok t ∧
      t.finalGraph.Walk "main" [1, 4] "malloc" ∧
      (Descent.along [0, 3]).sites = [1, 4].map (fun p => (t.callPaths p).callInst) ∧
      ¬ t.IsLoopEdge 1 ∧ ¬ t.IsLoopEdge 4 ∧
      ¬ t.LoopFlagReflects (fun _ => .call) 0x1000 0x2000 24 ⟨fun _ => 0, 0, fun _ => 0⟩
        (.along [0, 3]) [1, 4] := by
  have hrun : (sharedEntry.analyze (fun i => i = 2) fun _ => sharedEntryComponents).toOption.map
      (fun t => (decide (1 ∈ t.finalCalleeMap.get "main" ∧ (t.callPaths 1).callee = "grow" ∧
          4 ∈ t.finalCalleeMap.get "grow" ∧ (t.callPaths 4).callee = "malloc" ∧
          [1, 4].map (fun p => (t.callPaths p).callInst) = [0, 3] ∧
          ¬ t.IsLoopEdge 1 ∧ ¬ t.IsLoopEdge 4),
        ((Descent.along [0, 3]).execute 0x1000 (t.doModulePass (original fun _ => .call))
          ⟨fun _ => 0, 0, fun _ => 0⟩).counters .loopLayer)) = some (true, 0) := by decide +kernel
  cases hok : sharedEntry.analyze (fun i => i = 2) fun _ => sharedEntryComponents with
  | error e =>
    rw [hok] at hrun
    cases hrun
  | ok t =>
    rw [hok] at hrun
    simp only [Except.toOption, Option.map_some, Option.some.injEq, Prod.mk.injEq] at hrun
    obtain ⟨hgraph, hcounter⟩ := hrun
    obtain ⟨hmain, hgrow, hcall, hmalloc, hinst, hbranch, hbranch'⟩ := of_decide_eq_true hgraph
    refine ⟨t, rfl, ?_, hinst.symm, hbranch, hbranch', fun hreflects => ?_⟩
    · refine .cons hmain ?_
      rw [show t.finalGraph.target 1 = "grow" from hgrow]
      refine .cons hcall ?_
      rw [show t.finalGraph.target 4 = "malloc" from hmalloc]
      exact .nil _
    · exact hreflects.1.mp (heapWord_loopBit (by decide) (by decide)) hcounter

end InstrumentIRPass

end Semalloc
