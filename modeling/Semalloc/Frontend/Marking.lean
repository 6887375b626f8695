import Semalloc.Frontend.MarkedCalls

/-!
# Which functions are marked

The marking starts from the functions that call a heap function, in the order of their names, and
searches for all functions that reach one of them. It also records the heap functions that they
call, but stops recording at a function that a search has visited: so a heap function may be
missed.

## Main definitions

* `ReachesHeap`: some calls lead from the function to a call of a heap function
* `Recorded`: the calls of a heap function that are recorded

## Main results

* `mem_functionMarkSet`: which functions are marked
* `marking_exact`: the marking is exact when every heap function that is called is recorded
-/

set_option autoImplicit false

namespace Semalloc

namespace InstrumentIRPass

open Relation

variable {s t : InstrumentIRPass} {f g h : String} {p q : ℕ}

/-- Some call leads from one function to the other. -/
def Calls (s : InstrumentIRPass) (f g : String) : Prop :=
  ∃ p ∈ s.paths, (s.callPaths p).caller = f ∧ (s.callPaths p).callee = g

/-- The heap functions that a function calls, once for each call, in the order of the calls. -/
def heapCallees (s : InstrumentIRPass) (f : String) : List String :=
  (s.paths.filter fun p => (s.callPaths p).caller = f ∧
    (s.callPaths p).callee ∈ initialHeapFunctions).map fun p => (s.callPaths p).callee

/-- The function calls a heap function. -/
def CallsHeap (s : InstrumentIRPass) (f : String) : Prop := s.heapCallees f ≠ []

/-- Some calls lead from the function to one that calls a heap function. -/
def ReachesHeap (s : InstrumentIRPass) (f : String) : Prop :=
  ∃ g, ReflTransGen s.Calls f g ∧ s.CallsHeap g

/-- The function `f` reaches an earlier caller of heap functions, so a search has visited it when
its turn comes. -/
def VisitedBefore (s : InstrumentIRPass) (f : String) : Prop :=
  ∃ g < f, s.CallsHeap g ∧ TransGen s.Calls f g

/-- A heap call of `f` is recorded: the first one always, the second one if `f` was not visited
before its turn, and the others if the search from `f` does not visit `f` either. -/
def Recorded (s : InstrumentIRPass) (f h : String) : Prop :=
  h ∈ (s.heapCallees f).take 1 ∨
    ¬ s.VisitedBefore f ∧ (h ∈ (s.heapCallees f).take 2 ∨
      ¬ TransGen s.Calls f f ∧ h ∈ s.heapCallees f)

theorem mem_heapCallees : h ∈ s.heapCallees f ↔ s.Calls f h ∧ h ∈ initialHeapFunctions := by
  unfold heapCallees Calls
  rw [List.mem_map]
  constructor
  · rintro ⟨p, hp, rfl⟩
    obtain ⟨hp, hends⟩ := List.mem_filter.mp hp
    obtain ⟨hcaller, hheap⟩ := of_decide_eq_true hends
    exact ⟨⟨p, hp, hcaller, rfl⟩, hheap⟩
  · rintro ⟨⟨p, hp, rfl, rfl⟩, hheap⟩
    exact ⟨p, List.mem_filter.mpr ⟨hp, decide_eq_true ⟨rfl, hheap⟩⟩, rfl⟩

theorem Recorded.mem_heapCallees (hrecorded : s.Recorded f h) : h ∈ s.heapCallees f := by
  rcases hrecorded with hmem | ⟨-, hmem | ⟨-, hmem⟩⟩
  · exact List.mem_of_mem_take hmem
  · exact List.mem_of_mem_take hmem
  · exact hmem

/-! ## The heap calls -/

/-- The state after the heap calls `fs` are marked. -/
structure HeapMarked (fs : List String) (s t : InstrumentIRPass) : Prop where
  functionMap : t.functionMap = s.functionMap
  callPaths : ∀ p, t.callPaths p = { s.callPaths p with callsHMF := (t.callPaths p).callsHMF }
  callsHMF : ∀ p ∈ s.paths, (t.callPaths p).callsHMF = true ↔
    (s.callPaths p).callsHMF = true ∨ (s.callPaths p).callee ∈ fs
  sorted : s.functionMarkSet.Pairwise (· < ·) → t.functionMarkSet.Pairwise (· < ·)
  marks : ∀ f, f ∈ t.functionMarkSet ↔ f ∈ s.functionMarkSet ∨
    ∃ p ∈ s.paths, (s.callPaths p).caller = f ∧ (s.callPaths p).callee ∈ fs

theorem markHeapFunction_heapMarked (hs : s.CallGraph) (f : String) :
    HeapMarked [f] s (s.markHeapFunction f) := by
  have hlisted : ∀ p ∈ s.paths, (p ∈ s.functionMap.get f ↔ (s.callPaths p).callee = f) := by
    intro p hp
    constructor
    · exact hs.wellFormed.callee f p
    · rintro rfl
      exact hs.wellFormed.mem_paths.mp hp
  unfold markHeapFunction
  split
  · refine ⟨rfl, fun p => ?_, fun p hp => ?_, pairwise_insertKeys, fun g => ?_⟩
    · have hkeep := modifyAll_invariant (m := s.callPaths) (l := s.functionMap.get f)
        (g := fun _ e => { e with callsHMF := true })
        (fun e => ({ e with callsHMF := true } : CallPath)) (fun _ _ => rfl) p
      dsimp only at hkeep ⊢
      generalize modifyAll s.callPaths (s.functionMap.get f) _ p = e at hkeep ⊢
      cases e
      simp only [CallPath.mk.injEq] at hkeep ⊢
      tauto
    · dsimp only
      by_cases hcallee : (s.callPaths p).callee = f
      · rw [modifyAll_of_mem (hs.wellFormed.nodup f) ((hlisted p hp).mpr hcallee)]
        simp [hcallee]
      · rw [modifyAll_of_not_mem (mt (hlisted p hp).mp hcallee)]
        simp [hcallee]
    · rw [mem_insertKeys, or_comm]
      refine or_congr_right ?_
      unfold callersOf
      rw [List.mem_map]
      constructor
      · rintro ⟨p, hp, rfl⟩
        exact ⟨p, hs.wellFormed.mem_paths_of_mem hp, rfl, by simp [hs.wellFormed.callee f p hp]⟩
      · rintro ⟨p, hp, rfl, hcallee⟩
        exact ⟨p, (hlisted p hp).mpr (List.mem_singleton.mp hcallee), rfl⟩
  · rename_i hkey
    have hnone : ∀ p ∈ s.paths, (s.callPaths p).callee ≠ f := by
      rintro p hp rfl
      have hmem := (hlisted p hp).mpr rfl
      rw [hs.wellFormed.outside _ hkey] at hmem
      cases hmem
    refine ⟨rfl, fun p => rfl, fun p hp => ?_, id, fun g => ?_⟩
    · simp [hnone p hp]
    · constructor
      · exact Or.inl
      · rintro (hg | ⟨p, hp, -, hcallee⟩)
        · exact hg
        · exact absurd (List.mem_singleton.mp hcallee) (hnone p hp)

theorem HeapMarked.paths_eq {fs : List String} (h : HeapMarked fs s t) : t.paths = s.paths := by
  unfold paths
  rw [h.functionMap]

theorem HeapMarked.callee_eq {fs : List String} (h : HeapMarked fs s t) (p : ℕ) :
    (t.callPaths p).callee = (s.callPaths p).callee := by
  rw [h.callPaths p]

theorem HeapMarked.caller_eq {fs : List String} (h : HeapMarked fs s t) (p : ℕ) :
    (t.callPaths p).caller = (s.callPaths p).caller := by
  rw [h.callPaths p]

theorem heapMarked_fold (fs : List String) (hs : s.CallGraph) :
    HeapMarked fs s (fs.foldl markHeapFunction s) := by
  induction fs generalizing s with
  | nil => exact ⟨rfl, fun _ => rfl, fun p _ => by simp, id, fun f => by simp⟩
  | cons f fs ih =>
    have hfirst := markHeapFunction_heapMarked hs f
    have hrest := ih (markHeapFunction_callGraph hs f)
    refine ⟨hrest.functionMap.trans hfirst.functionMap, fun p => ?_, fun p hp => ?_,
      fun h => hrest.sorted (hfirst.sorted h), fun g => ?_⟩
    · have hp := hrest.callPaths p
      rw [hfirst.callPaths p] at hp
      exact hp
    · rw [List.foldl_cons, hrest.callsHMF p (hfirst.paths_eq ▸ hp), hfirst.callsHMF p hp,
        hfirst.callee_eq]
      simp only [List.mem_cons, List.not_mem_nil, or_false, or_assoc]
    · rw [List.foldl_cons, hrest.marks g, hfirst.marks g, hfirst.paths_eq, or_assoc]
      refine or_congr_right ?_
      simp only [hfirst.callee_eq, hfirst.caller_eq, List.mem_cons]
      constructor
      · rintro (⟨p, hp, hg, hf⟩ | ⟨p, hp, hg, hf⟩)
        · exact ⟨p, hp, hg, .inl (by simpa using hf)⟩
        · exact ⟨p, hp, hg, .inr hf⟩
      · rintro ⟨p, hp, hg, hf | hf⟩
        · exact .inl ⟨p, hp, hg, by simpa using hf⟩
        · exact .inr ⟨p, hp, hg, hf⟩

/-! ## The search from one function -/

/-- The heap functions called by the calls `ps`. -/
def heapCalls (s : InstrumentIRPass) (ps : List ℕ) : List String :=
  (ps.filter fun p => (s.callPaths p).callsHMF = true).map fun p => (s.callPaths p).callee

/-- A search that visited a function visited its callers. -/
def ClosedUp (s : InstrumentIRPass) (r : Search String) : Prop :=
  ∀ x ∈ r.visited, ∀ y ∈ s.callersOf x, y ∈ r.visited

/-- The search from the callers of a function. -/
def searchUp (s : InstrumentIRPass) (f : String) (r : Search String) : Search String :=
  Search.finish s.functionMap.keys s.callersOf (fun _ => true) { r with queue := s.callersOf f }

theorem CallGraph.mem_callersOf_iff (hs : s.CallGraph) : f ∈ s.callersOf g ↔ s.Calls f g := by
  unfold callersOf
  rw [List.mem_map]
  constructor
  · rintro ⟨p, hp, rfl⟩
    exact ⟨p, hs.wellFormed.mem_paths_of_mem hp, rfl, hs.wellFormed.callee g p hp⟩
  · rintro ⟨p, hp, rfl, rfl⟩
    exact ⟨p, hs.wellFormed.mem_paths.mp hp, rfl⟩

/-- **The search from the callers of `f`** visits all functions that reach `f`. -/
theorem CallGraph.searchUp_spec (hs : s.CallGraph) {r : Search String} (hr : s.ClosedUp r)
    (f : String) :
    (∀ x, x ∈ (s.searchUp f r).visited ↔ x ∈ r.visited ∨ TransGen s.Calls x f) ∧
      (∀ x, x ∈ (s.searchUp f r).found ↔ x ∈ r.found ∨ TransGen s.Calls x f ∧ x ∉ r.visited) ∧
      s.ClosedUp (s.searchUp f r) := by
  have houtside : ∀ y ∉ s.functionMap.keys, s.callersOf y = [] := by
    intro y hy
    unfold callersOf
    rw [hs.wellFormed.outside y hy]
    rfl
  have hvisited : ∀ x, x ∈ (s.searchUp f r).visited ↔ x ∈ r.visited ∨ TransGen s.Calls x f := by
    intro x
    unfold searchUp
    rw [Search.mem_finish_visited_of_closed (s := { r with queue := s.callersOf f }) houtside
      hs.wellFormed.keysNodup hr]
    refine or_congr_right ?_
    dsimp only
    have hswap : ∀ a b, ReflTransGen (fun x y => y ∈ s.callersOf x) a b ↔
        ReflTransGen s.Calls b a := by
      intro a b
      rw [← reflTransGen_swap]
      have hrel : Function.swap (fun x y => y ∈ s.callersOf x) = s.Calls := by
        funext a b
        exact propext hs.mem_callersOf_iff
      rw [hrel]
    constructor
    · rintro ⟨q, hq, hreach⟩
      exact TransGen.tail' ((hswap q x).mp hreach) (hs.mem_callersOf_iff.mp hq)
    · intro hreach
      obtain ⟨q, hreach, hq⟩ := TransGen.tail'_iff.mp hreach
      exact ⟨q, hs.mem_callersOf_iff.mpr hq, (hswap q x).mpr hreach⟩
  refine ⟨hvisited, fun x => ?_, fun x hx y hy => ?_⟩
  · have hx := hvisited x
    unfold searchUp at hx ⊢
    rw [Search.mem_finish_found_iff, hx]
    tauto
  · rw [hvisited] at hx ⊢
    rcases hx with hx | hx
    · exact .inl (hr x hx y hy)
    · exact .inr (.head (hs.mem_callersOf_iff.mp hy) hx)

theorem markCallersOf_nil {r : Search String} : s.markCallersOf f [] r = r := rfl

/-- One call in the loop. -/
theorem markCallersOf_cons {ps : List ℕ} {r : Search String} : s.markCallersOf f (p :: ps) r =
    if (s.callPaths p).callsHMF = false then s.markCallersOf f ps r
    else if f ∈ r.visited then { r with found := insertKey (s.callPaths p).callee r.found }
    else s.markCallersOf f ps
      (s.searchUp f { r with found := insertKey (s.callPaths p).callee r.found }) := rfl

theorem heapCalls_cons {ps : List ℕ} : s.heapCalls (p :: ps) =
    if (s.callPaths p).callsHMF = false then s.heapCalls ps
    else (s.callPaths p).callee :: s.heapCalls ps := by
  unfold heapCalls
  rw [List.filter_cons]
  cases (s.callPaths p).callsHMF <;> rfl

/-- A function that was visited records its first heap call. -/
theorem markCallersOf_of_visited {ps : List ℕ} {r : Search String} (hf : f ∈ r.visited) :
    (s.markCallersOf f ps r).visited = r.visited ∧
      ∀ x, x ∈ (s.markCallersOf f ps r).found ↔ x ∈ r.found ∨ x ∈ (s.heapCalls ps).take 1 := by
  induction ps with
  | nil => exact ⟨rfl, fun x => by simp [markCallersOf_nil, heapCalls]⟩
  | cons p ps ih =>
    rw [markCallersOf_cons, heapCalls_cons]
    by_cases hp : (s.callPaths p).callsHMF = false
    · rw [if_pos hp, if_pos hp]
      exact ih
    · rw [if_neg hp, if_neg hp, if_pos hf]
      refine ⟨rfl, fun x => ?_⟩
      rw [mem_insertKey, List.take_succ_cons, List.take_zero, List.mem_singleton, or_comm]

/-- After a search, a function that was not visited records all its heap calls. -/
theorem CallGraph.markCallersOf_of_searched (hs : s.CallGraph) {ps : List ℕ} {r : Search String}
    (hr : s.ClosedUp r) (hf : f ∉ r.visited) (hall : ∀ x, TransGen s.Calls x f → x ∈ r.visited) :
    (∀ x, x ∈ (s.markCallersOf f ps r).visited ↔ x ∈ r.visited) ∧
      ∀ x, x ∈ (s.markCallersOf f ps r).found ↔ x ∈ r.found ∨ x ∈ s.heapCalls ps := by
  induction ps generalizing r with
  | nil => exact ⟨fun _ => Iff.rfl, fun x => by simp [markCallersOf_nil, heapCalls]⟩
  | cons p ps ih =>
    rw [markCallersOf_cons, heapCalls_cons]
    by_cases hp : (s.callPaths p).callsHMF = false
    · rw [if_pos hp, if_pos hp]
      exact ih hr hf hall
    · rw [if_neg hp, if_neg hp, if_neg hf]
      obtain ⟨hvisited, hfound, hclosed⟩ := hs.searchUp_spec
        (r := { r with found := insertKey (s.callPaths p).callee r.found }) hr f
      have hsame : ∀ x, x ∈ (s.searchUp f { r with
          found := insertKey (s.callPaths p).callee r.found }).visited ↔ x ∈ r.visited := by
        intro x
        rw [hvisited]
        constructor
        · rintro (hx | hx)
          · exact hx
          · exact hall x hx
        · exact Or.inl
      obtain ⟨hvisited', hfound'⟩ := ih hclosed (mt (hsame f).mp hf)
        fun x hx => (hsame x).mpr (hall x hx)
      refine ⟨fun x => (hvisited' x).trans (hsame x), fun x => ?_⟩
      rw [hfound', hfound, mem_insertKey, List.mem_cons]
      constructor
      · rintro (((hx | hx) | ⟨hx, hnew⟩) | hx)
        · exact .inr (.inl hx)
        · exact .inl hx
        · exact absurd (hall x hx) hnew
        · exact .inr (.inr hx)
      · rintro (hx | hx | hx)
        · exact .inl (.inl (.inr hx))
        · exact .inl (.inl (.inl hx))
        · exact .inr hx

/-- A function that was not visited searches at its first heap call. -/
theorem CallGraph.markCallersOf_of_not_visited (hs : s.CallGraph) {ps : List ℕ} {r : Search String}
    (hr : s.ClosedUp r) (hf : f ∉ r.visited) (hheap : s.heapCalls ps ≠ []) :
    (∀ x, x ∈ (s.markCallersOf f ps r).visited ↔ x ∈ r.visited ∨ TransGen s.Calls x f) ∧
      ∀ x, x ∈ (s.markCallersOf f ps r).found ↔ x ∈ r.found ∨
        (TransGen s.Calls x f ∧ x ∉ r.visited) ∨ x ∈ (s.heapCalls ps).take 2 ∨
          ¬ TransGen s.Calls f f ∧ x ∈ s.heapCalls ps := by
  induction ps with
  | nil => exact absurd rfl hheap
  | cons p ps ih =>
    rw [heapCalls_cons] at hheap
    rw [markCallersOf_cons, heapCalls_cons]
    by_cases hp : (s.callPaths p).callsHMF = false
    · rw [if_pos hp] at hheap
      rw [if_pos hp, if_pos hp]
      exact ih hheap
    · rw [if_neg hp, if_neg hp, if_neg hf]
      obtain ⟨hvisited, hfound, hclosed⟩ := hs.searchUp_spec
        (r := { r with found := insertKey (s.callPaths p).callee r.found }) hr f
      -- the second heap call finds the function visited when the function reaches itself
      by_cases hself : TransGen s.Calls f f
      · obtain ⟨hvisited', hfound'⟩ :=
          @markCallersOf_of_visited s f ps _ ((hvisited f).mpr (.inr hself))
        refine ⟨fun x => by rw [hvisited', hvisited], fun x => ?_⟩
        rw [hfound', hfound, mem_insertKey, List.take_succ_cons, List.mem_cons]
        tauto
      · have hnot : f ∉ (s.searchUp f { r with
            found := insertKey (s.callPaths p).callee r.found }).visited := by
          rw [hvisited]
          rintro (hmem | hmem)
          · exact hf hmem
          · exact hself hmem
        obtain ⟨hvisited', hfound'⟩ := @CallGraph.markCallersOf_of_searched s f hs ps _ hclosed
          hnot fun x hx => (hvisited x).mpr (.inr hx)
        refine ⟨fun x => (hvisited' x).trans (hvisited x), fun x => ?_⟩
        rw [hfound', hfound, mem_insertKey, List.take_succ_cons, List.mem_cons, List.mem_cons]
        have htake : x ∈ (s.heapCalls ps).take 1 → x ∈ s.heapCalls ps := List.mem_of_mem_take
        tauto

/-! ## The loop over the callers of heap functions -/

/-- The state before `markOnlyRelevantFunctions`: the heap calls are marked, and their callers, in
order. -/
structure CallersMarked (s : InstrumentIRPass) : Prop where
  callGraph : s.CallGraph
  heapCalls : ∀ p ∈ s.paths, (s.callPaths p).callsHMF = true ↔
    (s.callPaths p).callee ∈ initialHeapFunctions
  sorted : s.functionMarkSet.Pairwise (· < ·)
  marks : ∀ f, f ∈ s.functionMarkSet ↔ s.CallsHeap f

/-- What is visited and found once the functions of `done` were taken. -/
structure MarkedUpTo (s : InstrumentIRPass) (done : List String) (r : Search String) : Prop where
  visited : ∀ x, x ∈ r.visited ↔ ∃ g ∈ done, TransGen s.Calls x g
  found : ∀ x, x ∈ r.found ↔ x ∈ s.functionMarkSet ∨ (∃ g ∈ done, TransGen s.Calls x g) ∨
    ∃ g ∈ done, s.Recorded g x

theorem CallersMarked.heapCalls_eq (hs : s.CallersMarked) (f : String) :
    InstrumentIRPass.heapCalls s (s.flippedFunctionMap.get f) = s.heapCallees f := by
  unfold InstrumentIRPass.heapCalls heapCallees
  rw [hs.callGraph.flipped f, List.filter_filter]
  congr 1
  refine List.filter_congr fun p hp => ?_
  rw [← Bool.decide_and]
  refine decide_eq_decide.mpr ?_
  rw [hs.heapCalls p hp, and_comm]

/-- One function is taken. -/
theorem MarkedUpTo.take (hs : s.CallersMarked) {done rest : List String} {r : Search String}
    (hr : s.MarkedUpTo done r) (hsplit : done ++ f :: rest = s.functionMarkSet) :
    s.MarkedUpTo (done ++ [f]) (s.markCallersOf f (s.flippedFunctionMap.get f) r) := by
  have hmark : s.CallsHeap f := (hs.marks f).mp (hsplit ▸ by simp)
  have hclosed : s.ClosedUp r := by
    intro x hx y hy
    obtain ⟨g, hg, hreach⟩ := (hr.visited x).mp hx
    exact (hr.visited y).mpr ⟨g, hg, .head (hs.callGraph.mem_callersOf_iff.mp hy) hreach⟩
  -- the functions taken so far are the earlier ones
  have hbefore : f ∈ r.visited ↔ s.VisitedBefore f := by
    have hsorted := hs.sorted
    rw [← hsplit, List.pairwise_append] at hsorted
    rw [hr.visited]
    constructor
    · rintro ⟨g, hg, hreach⟩
      exact ⟨g, hsorted.2.2 g hg f List.mem_cons_self, (hs.marks g).mp (hsplit ▸ by simp [hg]), hreach⟩
    · rintro ⟨g, hlt, hheap, hreach⟩
      refine ⟨g, ?_, hreach⟩
      have hmem := (hs.marks g).mpr hheap
      rw [← hsplit, List.mem_append, List.mem_cons] at hmem
      rcases hmem with hg | rfl | hg
      · exact hg
      · exact absurd hlt (lt_irrefl g)
      · exact absurd hlt (lt_asymm ((List.pairwise_cons.mp hsorted.2.1).1 g hg))
  have hsnoc : ∀ P : String → Prop, (∃ g ∈ done ++ [f], P g) ↔ (∃ g ∈ done, P g) ∨ P f := by
    intro P
    simp only [List.mem_append, List.mem_singleton]
    constructor
    · rintro ⟨g, hg | rfl, hP⟩
      · exact .inl ⟨g, hg, hP⟩
      · exact .inr hP
    · rintro (⟨g, hg, hP⟩ | hP)
      · exact ⟨g, .inl hg, hP⟩
      · exact ⟨f, .inr rfl, hP⟩
  by_cases hf : f ∈ r.visited
  · obtain ⟨hvisited, hfound⟩ := @markCallersOf_of_visited s f (s.flippedFunctionMap.get f) r hf
    rw [hs.heapCalls_eq] at hfound
    obtain ⟨g, hg, hreach⟩ := (hr.visited f).mp hf
    refine ⟨fun x => ?_, fun x => ?_⟩
    · rw [hvisited, hr.visited, hsnoc]
      constructor
      · exact Or.inl
      · rintro (hx | hx)
        · exact hx
        · exact ⟨g, hg, hx.trans hreach⟩
    · have hrecorded : s.Recorded f x ↔ x ∈ (s.heapCallees f).take 1 := by
        unfold Recorded
        rw [← hbefore]
        tauto
      have hnew : TransGen s.Calls x f → ∃ g ∈ done, TransGen s.Calls x g :=
        fun hx => ⟨g, hg, hx.trans hreach⟩
      rw [hfound, hr.found, hsnoc, hsnoc, hrecorded]
      generalize (∃ g ∈ done, TransGen s.Calls x g) = visited at hnew ⊢
      generalize (∃ g ∈ done, s.Recorded g x) = recorded
      tauto
  · have hheap : InstrumentIRPass.heapCalls s (s.flippedFunctionMap.get f) ≠ [] := by
      rw [hs.heapCalls_eq]
      exact hmark
    obtain ⟨hvisited, hfound⟩ := hs.callGraph.markCallersOf_of_not_visited hclosed hf hheap
    rw [hs.heapCalls_eq] at hfound
    refine ⟨fun x => ?_, fun x => ?_⟩
    · rw [hvisited, hr.visited, hsnoc]
    · have hrecorded : s.Recorded f x ↔ x ∈ (s.heapCallees f).take 2 ∨
          ¬ TransGen s.Calls f f ∧ x ∈ s.heapCallees f := by
        have htake : x ∈ (s.heapCallees f).take 1 → x ∈ (s.heapCallees f).take 2 :=
          fun hx => (List.take_subset_take_left _ (by omega)) hx
        unfold Recorded
        rw [← hbefore]
        tauto
      rw [hfound, hr.found, hsnoc, hsnoc, hrecorded, hr.visited]
      generalize (∃ g ∈ done, TransGen s.Calls x g) = visited
      generalize (∃ g ∈ done, s.Recorded g x) = recorded
      tauto

theorem MarkedUpTo.fold (hs : s.CallersMarked) {done rest : List String} {r : Search String}
    (hr : s.MarkedUpTo done r) (hsplit : done ++ rest = s.functionMarkSet) :
    s.MarkedUpTo s.functionMarkSet
      (rest.foldl (fun r f => s.markCallersOf f (s.flippedFunctionMap.get f) r) r) := by
  induction rest generalizing done r with
  | nil =>
    rw [List.append_nil] at hsplit
    exact hsplit ▸ hr
  | cons f rest ih => exact ih (hr.take hs hsplit) (by rwa [List.append_assoc])

theorem reachesHeap_iff : s.ReachesHeap f ↔ s.CallsHeap f ∨
    ∃ g, s.CallsHeap g ∧ TransGen s.Calls f g := by
  unfold ReachesHeap
  constructor
  · rintro ⟨g, hreach, hg⟩
    rcases reflTransGen_iff_eq_or_transGen.mp hreach with rfl | hreach
    · exact .inl hg
    · exact .inr ⟨g, hg, hreach⟩
  · rintro (hf | ⟨g, hg, hreach⟩)
    · exact ⟨f, .refl, hf⟩
    · exact ⟨g, hreach.to_reflTransGen, hg⟩

/-- **What `markOnlyRelevantFunctions` marks.** -/
theorem CallersMarked.mem_markOnlyRelevantFunctions (hs : s.CallersMarked) :
    f ∈ s.markOnlyRelevantFunctions.functionMarkSet ↔
      s.ReachesHeap f ∨ ∃ g, s.Recorded g f := by
  have hstart : s.MarkedUpTo []
      { queue := [], visited := [], found := s.functionMarkSet } :=
    ⟨fun x => by simp, fun x => by simp⟩
  have hend := hstart.fold hs (List.nil_append _)
  have hrecorded : (∃ g ∈ s.functionMarkSet, s.Recorded g f) ↔ ∃ g, s.Recorded g f := by
    constructor
    · rintro ⟨g, -, hg⟩
      exact ⟨g, hg⟩
    · rintro ⟨g, hg⟩
      refine ⟨g, (hs.marks g).mpr fun hnil => ?_, hg⟩
      unfold Recorded at hg
      rw [hnil] at hg
      simp at hg
  have hreach : (∃ g ∈ s.functionMarkSet, TransGen s.Calls f g) ↔
      ∃ g, s.CallsHeap g ∧ TransGen s.Calls f g :=
    exists_congr fun g => and_congr_left fun _ => hs.marks g
  unfold markOnlyRelevantFunctions
  rw [mem_insertKeys, hend.found, hrecorded, hreach, hs.marks, reachesHeap_iff]
  generalize (∃ g, s.CallsHeap g ∧ TransGen s.Calls f g) = reached
  generalize (∃ g, s.Recorded g f) = recorded
  tauto

/-! ## `doInitialization` -/

variable {callPaths : ℕ → CallPath} {functionMap : KeyMap String (List ℕ)}

/-- The heap calls are marked for a call graph without marks. -/
theorem heapMarked_callersMarked (hwf : WellFormed callPaths functionMap)
    (hnew : ∀ p, (callPaths p).callsHMF = false) :
    (initialHeapFunctions.foldl markHeapFunction
      (initial callPaths functionMap).flipFunctionMap).CallersMarked := by
  have hflip := flipFunctionMap_callGraph hwf
  have h := heapMarked_fold initialHeapFunctions hflip
  have hgraph : (initialHeapFunctions.foldl markHeapFunction
      (initial callPaths functionMap).flipFunctionMap).CallGraph := by
    have hfold : ∀ (fs : List String) (s : InstrumentIRPass), s.CallGraph →
        (fs.foldl markHeapFunction s).CallGraph := by
      intro fs
      induction fs with
      | nil => exact fun _ hs => hs
      | cons f fs ih => exact fun s hs => ih _ (markHeapFunction_callGraph hs f)
    exact hfold _ _ hflip
  generalize initialHeapFunctions.foldl markHeapFunction
    (initial callPaths functionMap).flipFunctionMap = t at h hgraph ⊢
  refine ⟨hgraph, fun p hp => ?_, h.sorted List.Pairwise.nil, fun f => ?_⟩
  · rw [h.callsHMF p (h.paths_eq ▸ hp), h.callee_eq]
    have hp' : ((initial callPaths functionMap).flipFunctionMap.callPaths p).callsHMF = false :=
      hnew p
    rw [hp']
    simp
  · rw [h.marks f]
    unfold CallsHeap heapCallees
    rw [ne_eq, List.map_eq_nil_iff, List.filter_eq_nil_iff, h.paths_eq]
    simp only [h.caller_eq, h.callee_eq, decide_eq_true_eq]
    push Not
    constructor
    · rintro (hf | ⟨p, hp, hcaller, hcallee⟩)
      · cases hf
      · exact ⟨p, hp, hcaller, hcallee⟩
    · rintro ⟨p, hp, hcaller, hcallee⟩
      exact .inr ⟨p, hp, hcaller, hcallee⟩

/-- **Which functions are marked** by `doInitialization`. -/
theorem mem_functionMarkSet (hwf : WellFormed callPaths functionMap)
    (hnew : ∀ p, (callPaths p).callsHMF = false) :
    f ∈ (initial callPaths functionMap).doInitialization.functionMarkSet ↔
      (initial callPaths functionMap).ReachesHeap f ∨
        ∃ g, (initial callPaths functionMap).Recorded g f := by
  have hmarked := (heapMarked_callersMarked hwf hnew).mem_markOnlyRelevantFunctions (f := f)
  have h := heapMarked_fold initialHeapFunctions (flipFunctionMap_callGraph hwf)
  unfold doInitialization
  generalize initialHeapFunctions.foldl markHeapFunction
    (initial callPaths functionMap).flipFunctionMap = t at h hmarked ⊢
  -- marking the heap calls leaves the calls as they are
  have hpaths : t.paths = (initial callPaths functionMap).paths := h.paths_eq
  have hcallee : ∀ p, (t.callPaths p).callee = (callPaths p).callee := h.callee_eq
  have hcaller : ∀ p, (t.callPaths p).caller = (callPaths p).caller := h.caller_eq
  have hcalls : t.Calls = (initial callPaths functionMap).Calls := by
    funext x y
    unfold Calls
    simp only [hpaths, hcallee, hcaller]
    rfl
  have hheap : t.heapCallees = (initial callPaths functionMap).heapCallees := by
    funext x
    unfold heapCallees
    simp only [hpaths, hcallee, hcaller]
    rfl
  unfold ReachesHeap Recorded VisitedBefore CallsHeap at hmarked ⊢
  rw [hmarked, hcalls, hheap]

/-- **Exact marking.** The marked functions are those that reach a call of a heap function and the
heap functions that are called, exactly when every heap function that is called reaches a heap call
itself or is recorded at one of its callers. -/
theorem marking_exact (hwf : WellFormed callPaths functionMap)
    (hnew : ∀ p, (callPaths p).callsHMF = false) :
    let s := initial callPaths functionMap
    (∀ f, f ∈ s.doInitialization.functionMarkSet ↔ s.ReachesHeap f ∨
        f ∈ initialHeapFunctions ∧ ∃ p ∈ s.paths, (s.callPaths p).callee = f) ↔
      ∀ f ∈ initialHeapFunctions, (∃ p ∈ s.paths, (s.callPaths p).callee = f) →
        s.ReachesHeap f ∨ ∃ g, s.Recorded g f := by
  intro s
  have hmarked : ∀ f, f ∈ s.doInitialization.functionMarkSet ↔
      s.ReachesHeap f ∨ ∃ g, s.Recorded g f := fun f => mem_functionMarkSet hwf hnew
  have hrecorded : ∀ f g, s.Recorded g f →
      f ∈ initialHeapFunctions ∧ ∃ p ∈ s.paths, (s.callPaths p).callee = f := by
    intro f g hg
    obtain ⟨⟨p, hp, -, hcallee⟩, hheap⟩ := mem_heapCallees.mp hg.mem_heapCallees
    exact ⟨hheap, p, hp, hcallee⟩
  constructor
  · intro hexact f hf hcalled
    exact (hmarked f).mp ((hexact f).mpr (.inr ⟨hf, hcalled⟩))
  · intro hall f
    rw [hmarked]
    constructor
    · rintro (hf | ⟨g, hg⟩)
      · exact .inl hf
      · exact .inr (hrecorded f g hg)
    · rintro (hf | ⟨hf, hcalled⟩)
      · exact .inl hf
      · exact hall f hf hcalled

/-- `main` calls `grow` and logs; each heap function is the first that its caller calls. -/
def growAndLog : InstrumentIRPass :=
  callGraph ["fresh", "grow", "log", "main", "malloc", "realloc"]
    [(0, "fresh", "malloc"), (1, "grow", "realloc"), (2, "main", "grow"), (3, "main", "log")]

theorem growAndLog_wellFormed : WellFormed growAndLog.callPaths growAndLog.functionMap :=
  callGraph_wellFormed (by decide +kernel) (by decide +kernel)

/-- All functions but `log` are marked. -/
theorem marking_exact_growAndLog :
    let s := growAndLog
    (∀ f, f ∈ s.doInitialization.functionMarkSet ↔ s.ReachesHeap f ∨
        f ∈ initialHeapFunctions ∧ ∃ p ∈ s.paths, (s.callPaths p).callee = f) ∧
      s.doInitialization.functionMarkSet = ["fresh", "grow", "main", "malloc", "realloc"] := by
  intro s
  refine ⟨(marking_exact growAndLog_wellFormed fun _ => rfl).mpr ?_, by decide +kernel⟩
  have hfirst : ∀ p ∈ s.paths, (s.callPaths p).callee ∈ initialHeapFunctions →
      (s.callPaths p).callee ∈ (s.heapCallees (s.callPaths p).caller).take 1 := by decide +kernel
  rintro f hf ⟨p, hp, rfl⟩
  exact .inr ⟨_, .inl (hfirst p hp hf)⟩

/-- `grow` calls `fresh`, and after `malloc` also `realloc`. -/
def missedHeapFunction : InstrumentIRPass :=
  callGraph ["fresh", "grow", "malloc", "realloc"]
    [(0, "fresh", "malloc"), (1, "grow", "fresh"), (2, "grow", "malloc"), (3, "grow", "realloc")]

theorem missedHeapFunction_wellFormed :
    WellFormed missedHeapFunction.callPaths missedHeapFunction.functionMap :=
  callGraph_wellFormed (by decide +kernel) (by decide +kernel)

/-- The search from `fresh` has visited `grow`, so the loop stops there after `malloc`. -/
theorem realloc_not_marked : ¬ ∀ (callPaths : ℕ → CallPath) (functionMap : KeyMap String (List ℕ)),
    WellFormed callPaths functionMap → (∀ p, (callPaths p).callsHMF = false) →
    let s := initial callPaths functionMap
    ∀ f, f ∈ s.doInitialization.functionMarkSet ↔ s.ReachesHeap f ∨
      f ∈ initialHeapFunctions ∧ ∃ p ∈ s.paths, (s.callPaths p).callee = f := by
  intro hall
  have hexact := (hall _ _ missedHeapFunction_wellFormed (fun _ => rfl) "realloc").mpr
    (.inr ⟨by decide, 3, by decide +kernel, by decide +kernel⟩)
  have hmissed : "realloc" ∉ missedHeapFunction.doInitialization.functionMarkSet := by
    decide +kernel
  exact hmissed hexact

end InstrumentIRPass

end Semalloc
