import Semalloc.Backend.Isolation
import Semalloc.Backend.Provenance
import Semalloc.Frontend.PathTrack

/-!
# Calling contexts never share memory

The compiler pass and the allocator together: the code before a heap call puts the track of the calls
taken in the word of the request, and the allocator serves the words with one context from one
individual pool for each thread and size class. Where the track counts the calls taken and the
numbers of the call paths fit in the field, the pools are those of the call paths, and memory that
was handed out for one call path is never handed out for another.

## Main definitions

* `TaggedAlong`: the words that reach a heap function at the end of a call path
* `Asks`: the requests of a program
* `ServedApart`: what overlaps a slot of an individual pool was served for the same call path
* `KeepsContextsApart`: memory is kept apart by call path in every run

## Main results

* `InstrumentIRPass.Flat.numbersApart`: call paths with different numbers
* `TaggedAlong.context`: the number of the call path is in the word
* `contexts_kept_apart`: in every run memory is kept apart by call path
-/

set_option autoImplicit false

namespace Semalloc

open Multigraph Code MemoryManager

/-! ## Numbers of call paths -/

namespace InstrumentIRPass

variable {t : InstrumentIRPass} {inst : Site → CallInst} {f g : String} {es es' : List ℕ} {w : Word}

/-- **Call paths with different numbers**, in a final call graph without nodes of cycles. -/
theorem Flat.numbersApart (h : t.Flat) (hle : (t.callPathsFrom f).length ≤ 2 ^ 16) :
    t.NumbersApart f := by
  have hlength : t.topologicalOrder.reverse.length = t.relevantAllFunctionSet.length := by
    rw [List.length_reverse]
    exact ((List.perm_ext_iff_of_nodup h.ordered.orderNodup h.nodup).mpr h.relevant).length_eq
  by_cases hf : f ∈ t.topologicalOrder
  · have hmem : f ∈ t.topologicalOrder.reverse := List.mem_reverse.mpr hf
    have hlt : ∀ es, t.MaximalPath f es → t.pathNumber f es < 2 ^ 16 := by
      rintro es ⟨g, hwalk, hsink⟩
      by_cases hfirst : t.finalGraph.IsSink f
      · rw [hwalk.eq_nil_of_isSink hfirst]
        exact Nat.two_pow_pos 16
      · have hnumber := h.ordered.sorted.number_lt hmem hwalk hsink hfirst
        rw [hlength] at hnumber
        exact lt_of_lt_of_le hnumber hle
    intro es es' hes hes' hne heq
    rw [Nat.mod_eq_of_lt (hlt es hes), Nat.mod_eq_of_lt (hlt es' hes')] at heq
    obtain ⟨g, hwalk, hsink⟩ := hes
    obtain ⟨g', hwalk', hsink'⟩ := hes'
    unfold pathNumber at heq
    rw [← hlength] at heq
    exact hne (h.ordered.sorted.eq_of_number_eq hmem hwalk hwalk' hsink hsink' heq)
  · -- a function that is not in the graph makes no calls
    have hsink : t.finalGraph.IsSink f := h.ordered.ordered f hf
    rintro es es' ⟨g, hwalk, -⟩ ⟨g', hwalk', -⟩ hne
    exact absurd ((hwalk.eq_nil_of_isSink hsink).trans (hwalk'.eq_nil_of_isSink hsink).symm) hne

/-! ## The words of the requests -/

/-- The words of at most 32 bits of size that reach a heap function when the calls `es` from `f` are
active. The track started at zero, and the calls that are over took back what they added. -/
inductive TaggedAlong (t : InstrumentIRPass) (inst : Site → CallInst) (f : String) (es : List ℕ) :
    Word → Prop
  | mk {stack size len : Word} {globals : Globals} {d : Descent} {g : String} {p : ℕ → Word}
    {loop : Bool} (hheap : g ∈ initialHeapFunctions) (hwalk : t.finalGraph.Walk f es g)
    (hsites : d.sites = es.map fun p => (t.callPaths p).callInst)
    (hsettled : TrackSettled inst t.marks d) (hstart : globals.counters .track = 0)
    (hsize : size.toNat < 2 ^ 32) : TaggedAlong t inst f es
      (tagWord size ((d.execute stack (t.doModulePass (original inst)) globals).counters .track)
        (cssHashFunction p len) loop)

/-- **The number of the call path is in the word**, up to multiples of `2 ^ 16`. -/
theorem TaggedAlong.context (h : t.Flat) (hagree : t.EntriesAgree) (hroot : t.finalCallerMap.get f = [])
    (hw : t.TaggedAlong inst f es w) :
    (getCSI w).toNat % 2 ^ 16 = t.pathNumber f es % 2 ^ 16 := by
  cases hw with
  | @mk stack size len globals d g p loop hheap hwalk hsites hsettled hstart hsize =>
    have hgain := (h.tracksPaths_iff inst).mpr hagree stack globals d f g es hroot hheap hwalk hsites
      hsettled
    rw [hstart, sub_zero, h.sum_weights hwalk] at hgain
    obtain ⟨hmod, hlt⟩ := toNat_cssHashFunction p len
    have hdecodes := decodes_tagWord
      ((d.execute stack (t.doModulePass (original inst)) globals).counters .track) hsize hmod hlt loop
    rw [hdecodes.context]
    have htrack := congrArg BitVec.toNat hgain
    rw [BitVec.toNat_setWidth, BitVec.toNat_ofNat] at htrack
    have hhash : (cssHashFunction p len >>> 32).toNat = (cssHashFunction p len).toNat / 2 ^ 32 := by
      rw [BitVec.toNat_ushiftRight, Nat.shiftRight_eq_div_pow]
    rw [hhash]
    omega

end InstrumentIRPass

/-! ## Runs -/

open InstrumentIRPass

/-- The event asks for memory, if it does, with a tagged word for the call path from `f`. -/
def Asks (t : InstrumentIRPass) (inst : Site → CallInst) (f : String) (e : Event) (es : List ℕ) : Prop :=
  ∀ w ∈ e.op.word, t.TaggedAlong inst f es w

/-- What overlaps an earlier slot of an individual pool comes from the same pool, and was served for
the same call path. -/
def ServedApart (later earlier : Served × List ℕ) : Prop :=
  ∀ k, earlier.1.Individual k → later.1.range.Overlaps earlier.1.range →
    later.1.origin = .pool k ∧ later.2 = earlier.2

section Runs

variable {t : InstrumentIRPass} {inst : Site → CallInst} {f : String} {os : Kernel}
  {s : Traced (List ℕ)}

/-- Each slot of an individual pool has the number of a call path in its context. -/
theorem label_of_context (h : t.Flat) (hagree : t.EntriesAgree) (hroot : t.finalCallerMap.get f = [])
    (hsinks : ∀ g ∈ initialHeapFunctions, t.finalCalleeMap.get g = [])
    (hr : Traced.Run .unshifted os (Asks t inst f) s) {r : Served} {es : List ℕ}
    (hmem : (r, es) ∈ s.history) {k : Compartment} {x : Word} (hk : r.origin = .pool k)
    (hx : k.context = some x) :
    t.MaximalPath f es ∧ x.toNat % 2 ^ 16 = t.pathNumber f es % 2 ^ 16 := by
  obtain ⟨e, hasks, hcontext⟩ := hr.servedFor r es hmem k x hk hx
  obtain ⟨w, hw, rfl⟩ := Option.map_eq_some_iff.mp hcontext
  have htagged := hasks w hw
  refine ⟨?_, htagged.context h hagree hroot⟩
  cases htagged with
  | mk hheap hwalk => exact ⟨_, hwalk, hsinks _ hheap⟩

/-- Memory is kept apart by call path. -/
theorem served_apart (h : t.Flat) (hagree : t.EntriesAgree) (hroot : t.finalCallerMap.get f = [])
    (hsinks : ∀ g ∈ initialHeapFunctions, t.finalCalleeMap.get g = [])
    (hapart : t.NumbersApart f) (hos : os.failure = .excluded)
    (hr : Traced.Run .unshifted os (Asks t inst f) s) : s.history.Pairwise ServedApart := by
  obtain ⟨g, hi, -⟩ := hr.config.sound hos
  have hisolated : s.config.heap.served.Pairwise Isolated :=
    hi.history.isolated.imp fun hrespects k hk hover => (hrespects k hk.1 hover).1
  rw [← hr.records, List.pairwise_map] at hisolated
  refine hisolated.imp_of_mem fun {later earlier} hlater hearlier hrespects k hk hover => ?_
  have horigin := hrespects k hk hover
  refine ⟨horigin, ?_⟩
  obtain ⟨x, hx⟩ := Option.ne_none_iff_exists'.mp hk.2
  obtain ⟨hpath, hnumber⟩ := label_of_context h hagree hroot hsinks hr hearlier hk.1 hx
  obtain ⟨hpath', hnumber'⟩ := label_of_context h hagree hroot hsinks hr hlater horigin hx
  by_contra hne
  exact hapart _ _ hpath' hpath hne (hnumber'.symm.trans hnumber)

end Runs

/-- In every run of the allocator by the instrumented program in which no request is shifted and `mmap`
does not fail, what overlaps a slot of an individual pool is served from the same pool and for the
same call path from a function without callers that has at most `2 ^ 16` call paths. -/
def KeepsContextsApart (t : InstrumentIRPass) (inst : Site → CallInst) : Prop :=
  ∀ f, t.finalCallerMap.get f = [] → (t.callPathsFrom f).length ≤ 2 ^ 16 →
    ∀ (os : Kernel) (s : Traced (List ℕ)), os.failure = .excluded →
      Traced.Run .unshifted os (Asks t inst f) s → s.history.Pairwise ServedApart

theorem InstrumentIRPass.Flat.keepsContextsApart {t : InstrumentIRPass} {inst : Site → CallInst}
    (h : t.Flat) (hagree : t.EntriesAgree)
    (hsinks : ∀ g ∈ initialHeapFunctions, t.finalCalleeMap.get g = []) :
    KeepsContextsApart t inst := fun _ hroot hle _ _ hos hrun =>
  served_apart h hagree hroot hsinks (h.numbersApart hle) hos hrun

/-! ## The pass and the allocator -/

variable {callPaths : ℕ → CallPath} {functionMap : KeyMap String (List ℕ)}
  {kosaraju : List (String × String) → SCCResult}

/-- **Calling contexts never share memory.** The call graph has no cycles of several functions, the
entries of each call agree, and the heap functions make no calls that count. Then memory is kept
apart by call path in every run of the instrumented program, whatever was freed in between. -/
theorem contexts_kept_apart (hwf : WellFormed callPaths functionMap)
    (hnew : ∀ p, (callPaths p).pathType = .default ∧ (callPaths p).callsHMF = false)
    (hsites : ∀ p ∈ (initial callPaths functionMap).paths,
      ∀ q ∈ (initial callPaths functionMap).paths,
        (callPaths p).callInst = (callPaths q).callInst →
          (callPaths p).caller = (callPaths q).caller)
    (inLoop : ℕ → Bool)
    (hr : (kosaraju (initial callPaths functionMap).doInitialization.markedEdges).Correct
      (initial callPaths functionMap).doInitialization.markedEdges)
    (hacyclic : ∀ f g, SameComponent
      (initial callPaths functionMap).doInitialization.markedEdges f g → f = g)
    (inst : Site → CallInst) :
    ∃ t, (initial callPaths functionMap).analyze inLoop kosaraju = .ok t ∧
      (t.EntriesAgree → (∀ g ∈ initialHeapFunctions, t.finalCalleeMap.get g = []) →
        KeepsContextsApart t inst) := by
  obtain ⟨t, hok, hflat⟩ := flat_of_analyze hwf hnew hsites inLoop hr hacyclic
  exact ⟨t, hok, hflat.keepsContextsApart⟩

/-- The requests of a program that calls `fresh` directly and `grow` through a pointer, where the
calls on the two paths have the numbers. A block of `grow` is released by another thread, and both
ask again. -/
def sharedEntryRequests (fresh grow : ℕ × ℕ) : List (Event × List ℕ) :=
  let viaFresh : Event × List ℕ := (⟨1, .malloc (tagWord 24 2 0 true)⟩, [fresh.1, fresh.2])
  let viaGrow : Event × List ℕ := (⟨1, .malloc (tagWord 24 4 0 true)⟩, [grow.1, grow.2])
  [viaGrow, viaGrow, viaGrow, viaFresh, viaFresh, viaFresh, (⟨2, .free 75116560⟩, []), viaFresh,
    viaGrow]

/-- Its calls, each with the function it is in and the function it calls. -/
def sharedEntryCalls (fresh grow : ℕ × ℕ) : List (ℕ × String × String) :=
  [(fresh.1, "main", "fresh"), (fresh.2, "fresh", "malloc"), (grow.1, "main", "grow"),
    (grow.2, "grow", "malloc")]

/-- The track when the calls are active. -/
def trackAlong (t : InstrumentIRPass) (ss : List Site) : Word :=
  ((Descent.along ss).execute 0 (t.doModulePass (original fun _ => .call))
    ⟨fun _ => 0, 0, fun _ => 0⟩).counters .track

/-- What the requests need of the analyzed program. -/
def sharedEntryChecks (t : InstrumentIRPass) (fresh grow : ℕ × ℕ) : Bool × Bool × Word × Word :=
  (decide (t.EntriesChecked ∧ t.finalCallerMap.get "main" = [] ∧
      (∀ g ∈ initialHeapFunctions, t.finalCalleeMap.get g = []) ∧
      (t.callPathsFrom "main").length ≤ 2 ^ 16),
    decide (∀ p ∈ sharedEntryCalls fresh grow, p.1 ∈ t.finalCalleeMap.get p.2.1 ∧
      (t.callPaths p.1).callee = p.2.2),
    trackAlong t ([fresh.1, fresh.2].map fun p => (t.callPaths p).callInst),
    trackAlong t ([grow.1, grow.2].map fun p => (t.callPaths p).callInst))

/-- The addresses that the requests get, with their call paths. -/
def sharedEntryServed (fresh grow : ℕ × ℕ) : List (ℕ × List ℕ) :=
  let viaFresh := [fresh.1, fresh.2]
  let viaGrow := [grow.1, grow.2]
  [(75116560, viaGrow), (2222600256, viaFresh), (2222600208, viaFresh), (47319765152, viaFresh),
    (47319765104, viaFresh), (75116560, viaGrow), (47319765056, viaGrow), (47319765008, viaGrow)]

/-- The requests are a run of the analyzed program. -/
theorem sharedEntry_run {t : InstrumentIRPass} {fresh grow : ℕ × ℕ}
    (hchecks : sharedEntryChecks t fresh grow = (true, true, 2, 4))
    (htrace : (Traced.run .unshifted (bumpKernel 0 .excluded)
      (sharedEntryRequests fresh grow)).map (fun s => s.history.map fun x => (x.1.ptr, x.2)) =
        some (sharedEntryServed fresh grow)) :
    t.EntriesChecked ∧ t.finalCallerMap.get "main" = [] ∧
      (∀ g ∈ initialHeapFunctions, t.finalCalleeMap.get g = []) ∧
      (t.callPathsFrom "main").length ≤ 2 ^ 16 ∧
      ∃ s, Traced.Run .unshifted (bumpKernel 0 .excluded) (Asks t (fun _ => .call) "main") s ∧
        s.history.map (fun x => (x.1.ptr, x.2)) = sharedEntryServed fresh grow := by
  simp only [sharedEntryChecks, Prod.mk.injEq] at hchecks
  obtain ⟨hchecked, hgraph, hfresh, hgrow⟩ := hchecks
  obtain ⟨hentries, hroot, hsinks, hle⟩ := of_decide_eq_true hchecked
  refine ⟨hentries, hroot, hsinks, hle, ?_⟩
  have hcalls := of_decide_eq_true hgraph
  have hwalk : ∀ p q f, (p, "main", f) ∈ sharedEntryCalls fresh grow →
      (q, f, "malloc") ∈ sharedEntryCalls fresh grow →
        t.finalGraph.Walk "main" [p, q] "malloc" := by
    intro p q f hp hq
    obtain ⟨hmem, hcallee⟩ := hcalls _ hp
    obtain ⟨hmem', hcallee'⟩ := hcalls _ hq
    refine .cons hmem ?_
    rw [show t.finalGraph.target p = f from hcallee]
    refine .cons hmem' ?_
    rw [show t.finalGraph.target q = "malloc" from hcallee']
    exact .nil _
  have htagged : ∀ es v, t.finalGraph.Walk "main" es "malloc" →
      trackAlong t (es.map fun p => (t.callPaths p).callInst) = v →
        t.TaggedAlong (fun _ => .call) "main" es (tagWord 24 v 0 true) := by
    rintro es _ hes rfl
    have hsettled : TrackSettled (fun _ => .call) t.marks
        (.along (es.map fun p => (t.callPaths p).callInst)) := by
      intro before hbefore
      rw [Descent.eq_done_of_mem_befores hbefore]
      exact ⟨trivial, trivial⟩
    have hhash : (0 : Word) = cssHashFunction (fun _ => 0) 0 := by decide
    rw [hhash]
    exact .mk (by decide) hes (Descent.along_sites _) hsettled rfl (by decide)
  have hasks : ∀ e ∈ sharedEntryRequests fresh grow, Asks t (fun _ => .call) "main" e.1 e.2 := by
    have hfresh := htagged _ 2 (hwalk fresh.1 fresh.2 "fresh" (by simp [sharedEntryCalls])
      (by simp [sharedEntryCalls])) hfresh
    have hgrow := htagged _ 4 (hwalk grow.1 grow.2 "grow" (by simp [sharedEntryCalls])
      (by simp [sharedEntryCalls])) hgrow
    intro e he w hw
    simp only [sharedEntryRequests, List.mem_cons, List.not_mem_nil, or_false] at he
    rcases he with rfl | rfl | rfl | rfl | rfl | rfl | rfl | rfl | rfl
    all_goals cases hw
    · exact hgrow
    · exact hgrow
    · exact hgrow
    · exact hfresh
    · exact hfresh
    · exact hfresh
    · exact hfresh
    · exact hgrow
  obtain ⟨s, hs, hhistory⟩ := Option.map_eq_some_iff.mp htrace
  exact ⟨s, .of_run hasks hs, hhistory⟩

theorem contexts_kept_apart_sharedEntry : ∃ s : Traced (List ℕ),
    s.history.map (fun x => (x.1.ptr, x.2)) = sharedEntryServed (2, 3) (1, 4) ∧
      s.history.Pairwise ServedApart := by
  have hacyclic := sharedEntryComponents_correct.eq_of_sameComponent (by decide +kernel)
  obtain ⟨hnew, hsites⟩ := sharedEntry_hypotheses
  obtain ⟨t, hok, hkept⟩ := @contexts_kept_apart _ _ (fun _ => sharedEntryComponents)
    sharedEntry_wellFormed hnew hsites (fun i => i = 2) sharedEntryComponents_correct hacyclic
    fun _ => .call
  obtain ⟨t', hok', hflat⟩ := @flat_of_analyze _ _ (fun _ => sharedEntryComponents)
    sharedEntry_wellFormed hnew hsites (fun i => i = 2) sharedEntryComponents_correct hacyclic
  obtain rfl : t = t' := Except.ok.inj (hok.symm.trans hok')
  have hchecks : (sharedEntry.analyze (fun i => i = 2) fun _ => sharedEntryComponents).toOption.map
      (fun t => sharedEntryChecks t (2, 3) (1, 4)) = some (true, true, 2, 4) := by decide +kernel
  change sharedEntry.analyze _ _ = _ at hok
  rw [hok, Except.toOption, Option.map_some, Option.some.injEq] at hchecks
  obtain ⟨hentries, hroot, hsinks, hle, s, hrun, hhistory⟩ := sharedEntry_run hchecks
    (by decide +kernel)
  have hagree := hflat.entriesAgree_of_checked hentries
  exact ⟨s, hhistory, hkept hagree hsinks "main" hroot hle _ s rfl hrun⟩

end Semalloc
