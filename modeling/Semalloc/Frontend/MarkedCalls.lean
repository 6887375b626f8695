import Semalloc.Frontend.InstrumentIR

/-!
# The marked call graph

Before cycles are contracted, the pass flips the call graph and finds the functions that reach a
heap function. The flipped map lists every call path under its caller, as the first map does under
its callee, and only functions of the program are marked.

## Main definitions

* `paths`: the call paths of the program
* `CallGraph`: the two maps list the call paths, and functions are marked

## Main results

* `doInitialization_callGraph`: `doInitialization` leaves such a graph
* `search_callers_queue`, `search_callees_queue`: the searches end
-/

set_option autoImplicit false

namespace Semalloc

namespace InstrumentIRPass

variable {s t : InstrumentIRPass} {f g : String} {p q : ℕ}

/-- The call paths of the program. -/
def paths (s : InstrumentIRPass) : List ℕ := s.functionMap.values.flatten

/-- The two maps list the call paths under their callees and under their callers, and the marked
functions are functions of the program. -/
structure CallGraph (s : InstrumentIRPass) : Prop where
  wellFormed : WellFormed s.callPaths s.functionMap
  flippedNodup : s.flippedFunctionMap.keys.Nodup
  flippedOutside : s.flippedFunctionMap.Outside []
  flipped : ∀ f, s.flippedFunctionMap.get f = s.paths.filter fun p => (s.callPaths p).caller = f
  marksNodup : s.functionMarkSet.Nodup
  marks : ∀ f ∈ s.functionMarkSet, f ∈ s.functionMap.keys

theorem WellFormed.mem_paths (hs : WellFormed s.callPaths s.functionMap) :
    p ∈ s.paths ↔ p ∈ s.functionMap.get (s.callPaths p).callee := by
  unfold paths KeyMap.values
  rw [List.mem_flatten]
  constructor
  · rintro ⟨l, hl, hp⟩
    obtain ⟨f, -, rfl⟩ := List.mem_map.mp hl
    rwa [hs.callee f p hp]
  · intro hp
    refine ⟨_, List.mem_map_of_mem ?_, hp⟩
    by_contra hkey
    rw [hs.outside _ hkey] at hp
    cases hp

theorem WellFormed.mem_paths_of_mem (hs : WellFormed s.callPaths s.functionMap)
    (hp : p ∈ s.functionMap.get f) : p ∈ s.paths := by
  rw [hs.mem_paths, hs.callee f p hp]
  exact hp

/-- No call path is listed twice. -/
theorem WellFormed.paths_nodup (hs : WellFormed s.callPaths s.functionMap) : s.paths.Nodup := by
  unfold paths KeyMap.values
  rw [← List.flatMap_def, List.nodup_flatMap]
  refine ⟨fun f _ => hs.nodup f, hs.keysNodup.imp fun hne => ?_⟩
  intro p hp hq
  exact hne ((hs.callee _ p hp).symm.trans (hs.callee _ p hq))

/-- Marks leave the graph as it is. -/
theorem WellFormed.congr (hs : WellFormed s.callPaths s.functionMap)
    (hmap : t.functionMap = s.functionMap)
    (hcallee : ∀ p, (t.callPaths p).callee = (s.callPaths p).callee)
    (hcaller : ∀ p, (t.callPaths p).caller = (s.callPaths p).caller) :
    WellFormed t.callPaths t.functionMap := by
  rw [hmap]
  refine { hs with callee := ?_, caller := ?_ }
  · intro f p hp
    rw [hcallee]
    exact hs.callee f p hp
  · intro f p hp
    rw [hcaller]
    exact hs.caller f p hp

/-! ## The flipped map -/

theorem pushPath_get (m : KeyMap String (List ℕ)) (hm : m.Outside []) :
    (pushPath m f p).get g = if g = f then m.get g ++ [p] else m.get g := by
  unfold pushPath
  by_cases hg : g = f
  · subst hg
    rw [if_pos rfl, KeyMap.insert_get_self]
    split
    · rfl
    · rename_i hkey
      rw [hm g hkey]
  · rw [if_neg hg, KeyMap.insert_get_of_ne hg]

/-- What a loop of insertions collects. -/
theorem foldl_pushPath (caller : ℕ → String) (ps : List ℕ) {m : KeyMap String (List ℕ)}
    (hm : m.Outside []) (hkeys : m.keys.Nodup) :
    (ps.foldl (fun m p => pushPath m (caller p) p) m).Outside [] ∧
      (ps.foldl (fun m p => pushPath m (caller p) p) m).keys.Nodup ∧
      ∀ f, (ps.foldl (fun m p => pushPath m (caller p) p) m).get f =
        m.get f ++ ps.filter fun p => caller p = f := by
  induction ps generalizing m with
  | nil => exact ⟨hm, hkeys, fun f => by simp⟩
  | cons p ps ih =>
    have hstep : (pushPath m (caller p) p).Outside [] := hm.insert
    obtain ⟨hout, hnodup, hget⟩ := ih hstep (KeyMap.nodup_insert_keys hkeys)
    refine ⟨hout, hnodup, fun f => ?_⟩
    rw [List.foldl_cons, hget f, pushPath_get m hm, List.filter_cons]
    by_cases hf : f = caller p
    · simp [hf]
    · simp [hf, Ne.symm hf]

theorem flipFunctionMap_callGraph {callPaths : ℕ → CallPath} {functionMap : KeyMap String (List ℕ)}
    (h : WellFormed callPaths functionMap) : (initial callPaths functionMap).flipFunctionMap.CallGraph := by
  obtain ⟨hout, hnodup, hget⟩ := foldl_pushPath (fun p => (callPaths p).caller)
    (initial callPaths functionMap).paths (m := .empty []) (fun _ _ => rfl) List.nodup_nil
  exact {
    wellFormed := h
    flippedNodup := hnodup
    flippedOutside := hout
    flipped := hget
    marksNodup := List.nodup_nil
    marks := fun f hf => absurd hf List.not_mem_nil }

namespace CallGraph

/-! ## Marks -/

theorem mem_flipped (hs : s.CallGraph) :
    p ∈ s.flippedFunctionMap.get f ↔ p ∈ s.paths ∧ (s.callPaths p).caller = f := by
  rw [hs.flipped f, List.mem_filter, decide_eq_true_eq]

theorem flipped_nodup (hs : s.CallGraph) (f : String) : (s.flippedFunctionMap.get f).Nodup := by
  rw [hs.flipped f]
  exact hs.wellFormed.paths_nodup.filter _

/-- Changes of marks, and of path types, keep the graph. -/
theorem congr (hs : s.CallGraph) (hmap : t.functionMap = s.functionMap)
    (hflipped : t.flippedFunctionMap = s.flippedFunctionMap)
    (hcallee : ∀ p, (t.callPaths p).callee = (s.callPaths p).callee)
    (hcaller : ∀ p, (t.callPaths p).caller = (s.callPaths p).caller)
    (hnodup : t.functionMarkSet.Nodup) (hmarks : ∀ f ∈ t.functionMarkSet, f ∈ s.functionMap.keys) :
    t.CallGraph where
  wellFormed := hs.wellFormed.congr hmap hcallee hcaller
  flippedNodup := hflipped ▸ hs.flippedNodup
  flippedOutside := hflipped ▸ hs.flippedOutside
  flipped f := by
    unfold paths
    rw [hflipped, hmap, hs.flipped f]
    simp only [hcaller]
    rfl
  marksNodup := hnodup
  marks f hf := hmap ▸ hmarks f hf

theorem mem_callersOf (hs : s.CallGraph) (hf : f ∈ s.callersOf g) : f ∈ s.functionMap.keys := by
  obtain ⟨p, hp, rfl⟩ := List.mem_map.mp hf
  exact hs.wellFormed.caller g p hp

end CallGraph

theorem markHeapFunction_callGraph (hs : s.CallGraph) (f : String) :
    (s.markHeapFunction f).CallGraph := by
  unfold markHeapFunction
  split
  · refine hs.congr rfl rfl ?_ ?_ (nodup_insertKeys hs.marksNodup) ?_
    · intro p
      apply modifyAll_invariant CallPath.callee
      exact fun _ _ => rfl
    · intro p
      apply modifyAll_invariant CallPath.caller
      exact fun _ _ => rfl
    · intro g hg
      rcases mem_insertKeys.mp hg with hg | hg
      · exact hs.mem_callersOf hg
      · exact hs.marks g hg
  · exact hs

/-! ## Searches -/

/-- **A search among the callers ends.** -/
theorem search_callers_queue (hkeys : s.functionMap.keys.Nodup) (hout : s.functionMap.Outside [])
    {wanted : String → Bool} {r : Search String} :
    (Search.finish s.functionMap.keys s.callersOf wanted r).queue = [] := by
  refine Search.finish_queue (fun f hf => ?_) hkeys
  unfold callersOf
  rw [hout f hf]
  rfl

/-- **A search among the callees ends.** -/
theorem search_callees_queue (hkeys : s.flippedFunctionMap.keys.Nodup)
    (hout : s.flippedFunctionMap.Outside []) {wanted : String → Bool} {r : Search String} :
    (Search.finish s.flippedFunctionMap.keys s.calleesOf wanted r).queue = [] := by
  refine Search.finish_queue (fun f hf => ?_) hkeys
  unfold calleesOf
  rw [hout f hf]
  rfl

/-- Only functions of the program are found from the callers of a function. -/
theorem CallGraph.markCallersOf_found (hs : s.CallGraph) {ps : List ℕ}
    (hps : ∀ p ∈ ps, p ∈ s.paths) {r : Search String}
    (hr : r.found.Nodup ∧ ∀ g ∈ r.found, g ∈ s.functionMap.keys) :
    (s.markCallersOf f ps r).found.Nodup ∧
      ∀ g ∈ (s.markCallersOf f ps r).found, g ∈ s.functionMap.keys := by
  induction ps generalizing r with
  | nil => exact hr
  | cons p ps ih =>
    have hrest : ∀ q ∈ ps, q ∈ s.paths := fun q hq => hps q (List.mem_cons_of_mem p hq)
    have hcallee : (s.callPaths p).callee ∈ s.functionMap.keys := by
      have hlisted := hs.wellFormed.mem_paths.mp (hps p List.mem_cons_self)
      by_contra hkey
      rw [hs.wellFormed.outside _ hkey] at hlisted
      cases hlisted
    have hinsert : (insertKey (s.callPaths p).callee r.found).Nodup ∧
        ∀ g ∈ insertKey (s.callPaths p).callee r.found, g ∈ s.functionMap.keys := by
      refine ⟨nodup_insertKey hr.1, fun g hg => ?_⟩
      rcases mem_insertKey.mp hg with rfl | hg
      · exact hcallee
      · exact hr.2 g hg
    unfold markCallersOf
    split
    · exact ih hrest hr
    · dsimp only
      split
      · exact hinsert
      · refine ih hrest ⟨Search.nodup_finish_found hinsert.1, ?_⟩
        refine Search.finish_found_induction ?_ ?_ hinsert.2
        · exact fun g hg => hs.mem_callersOf hg
        · exact fun g h hh => hs.mem_callersOf hh

theorem markOnlyRelevantFunctions_callGraph (hs : s.CallGraph) :
    s.markOnlyRelevantFunctions.CallGraph := by
  have hfold : ∀ (fs : List String) (r : Search String),
      (r.found.Nodup ∧ ∀ g ∈ r.found, g ∈ s.functionMap.keys) →
        ∀ g ∈ (fs.foldl (fun r f => s.markCallersOf f (s.flippedFunctionMap.get f) r) r).found,
          g ∈ s.functionMap.keys := by
    intro fs
    induction fs with
    | nil => exact fun r hr => hr.2
    | cons f fs ih =>
      intro r hr
      refine ih _ (hs.markCallersOf_found ?_ hr)
      exact fun p hp => (hs.mem_flipped.mp hp).1
  unfold markOnlyRelevantFunctions
  refine hs.congr rfl rfl (fun _ => rfl) (fun _ => rfl) (nodup_insertKeys hs.marksNodup) ?_
  intro g hg
  rcases mem_insertKeys.mp hg with hg | hg
  · exact hfold _ _ ⟨hs.marksNodup, hs.marks⟩ g hg
  · exact hs.marks g hg

/-- **After `doInitialization`** the maps list the call paths under both ends. -/
theorem doInitialization_callGraph {callPaths : ℕ → CallPath} {functionMap : KeyMap String (List ℕ)}
    (h : WellFormed callPaths functionMap) :
    (initial callPaths functionMap).doInitialization.CallGraph := by
  refine markOnlyRelevantFunctions_callGraph ?_
  have hfold : ∀ (fs : List String) (s : InstrumentIRPass), s.CallGraph →
      (fs.foldl markHeapFunction s).CallGraph := by
    intro fs
    induction fs with
    | nil => exact fun _ hs => hs
    | cons f fs ih => exact fun s hs => ih _ (markHeapFunction_callGraph hs f)
  exact hfold _ _ (flipFunctionMap_callGraph h)

/-- `doInitialization` marks heap calls, and no more. -/
theorem doInitialization_callPaths (s : InstrumentIRPass) (p : ℕ) :
    (s.doInitialization.callPaths p).pathType = (s.callPaths p).pathType ∧
      (s.doInitialization.callPaths p).callee = (s.callPaths p).callee ∧
      (s.doInitialization.callPaths p).caller = (s.callPaths p).caller ∧
      (s.doInitialization.callPaths p).callInst = (s.callPaths p).callInst ∧
      s.doInitialization.functionMap = s.functionMap := by
  have hfold : ∀ (fs : List String) (s : InstrumentIRPass),
      ((fs.foldl markHeapFunction s).callPaths p).pathType = (s.callPaths p).pathType ∧
        ((fs.foldl markHeapFunction s).callPaths p).callee = (s.callPaths p).callee ∧
        ((fs.foldl markHeapFunction s).callPaths p).caller = (s.callPaths p).caller ∧
        ((fs.foldl markHeapFunction s).callPaths p).callInst = (s.callPaths p).callInst ∧
        (fs.foldl markHeapFunction s).functionMap = s.functionMap := by
    intro fs
    induction fs with
    | nil => exact fun s => ⟨rfl, rfl, rfl, rfl, rfl⟩
    | cons f fs ih =>
      intro s
      obtain ⟨htype, hcallee, hcaller, hinst, hmap⟩ := ih (s.markHeapFunction f)
      rw [List.foldl_cons, htype, hcallee, hcaller, hinst, hmap]
      unfold markHeapFunction
      split
      · refine ⟨?_, ?_, ?_, ?_, rfl⟩
        · apply modifyAll_invariant CallPath.pathType
          exact fun _ _ => rfl
        · apply modifyAll_invariant CallPath.callee
          exact fun _ _ => rfl
        · apply modifyAll_invariant CallPath.caller
          exact fun _ _ => rfl
        · apply modifyAll_invariant CallPath.callInst
          exact fun _ _ => rfl
      · exact ⟨rfl, rfl, rfl, rfl, rfl⟩
  have h := hfold initialHeapFunctions s.flipFunctionMap
  unfold doInitialization markOnlyRelevantFunctions
  dsimp only
  generalize initialHeapFunctions.foldl markHeapFunction s.flipFunctionMap = s' at h ⊢
  exact h

end InstrumentIRPass

end Semalloc
