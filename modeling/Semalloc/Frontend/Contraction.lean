import Semalloc.Frontend.Cycles

/-!
# Contracting the cycles

`instrIsInaLoop` renames the ends of the calls in and of the functions of cycles to the names of the
cycles, in two passes over shared objects, and moves the calls to the nodes of the cycles. The first
pass asks only whether the callee is in some cycle: a call from one cycle to another is renamed as if
it stayed inside the first.

## Main definitions

* `contractedPath`: what the two passes make of a call path
* `contractMap`: what moving the calls makes of a map

## Main results

* `markCycleCalls_callPaths`: the two passes, call by call
* `contractMap_get`: a node has the calls of its functions, and these have none
-/

set_option autoImplicit false

namespace Semalloc

namespace InstrumentIRPass

variable {s t : InstrumentIRPass} {r : SCCResult} {f g name : String} {p q : ℕ}

/-! ## Renaming -/

/-- The call path after both passes, for a callee that is called `n` times. -/
def contractedPath (intra : KeyMap String String) (n : ℕ) (e : CallPath) : CallPath :=
  if e.caller ∈ intra.keys then
    if e.callee ∈ intra.keys then
      { e with
        pathType := if n > 1 then .markInnerBranch else .markSimpleInner
        callee := intra.get e.caller
        caller := intra.get e.caller }
    else { e with pathType := .markOutbound, caller := intra.get e.caller }
  else if e.callee ∈ intra.keys then
    { e with pathType := .markInbound, callee := intra.get e.callee }
  else e

/-- **The two passes**, call by call. The pass over the callees never meets a caller in a cycle that
was not renamed. -/
theorem markCycleCalls_callPaths (hs : s.CallGraph) (hkeys : s.flippedIntraFunctionMap.keys.Nodup)
    (hp : p ∈ s.paths) : s.markCycleCalls.callPaths p =
      contractedPath s.flippedIntraFunctionMap (s.functionMap.get (s.callPaths p).callee).length
        (s.callPaths p) := by
  unfold markCycleCalls
  dsimp only
  generalize hintra : s.flippedIntraFunctionMap = intra at hkeys ⊢
  rw [foldl_modifyAll intra.keys s.flippedFunctionMap.get (g := fun _ e => markOutbound intra e) _
      fun _ _ _ _ => rfl,
    foldl_modifyAll intra.keys s.functionMap.get
      (g := fun q e => markInbound intra (s.functionMap.get (s.callPaths q).callee).length e) _
      fun f _ q hq => by rw [hs.wellFormed.callee f q hq]]
  -- which pass meets the call
  have hout : (intra.keys.flatMap s.flippedFunctionMap.get).Nodup := by
    rw [List.nodup_flatMap]
    refine ⟨fun f _ => hs.flipped_nodup f, hkeys.imp fun hne => ?_⟩
    intro q hq hq'
    exact hne ((hs.mem_flipped.mp hq).2.symm.trans (hs.mem_flipped.mp hq').2)
  have hin : (intra.keys.flatMap s.functionMap.get).Nodup := by
    rw [List.nodup_flatMap]
    refine ⟨fun f _ => hs.wellFormed.nodup f, hkeys.imp fun hne => ?_⟩
    intro q hq hq'
    exact hne ((hs.wellFormed.callee _ q hq).symm.trans (hs.wellFormed.callee _ q hq'))
  have hmemOut : p ∈ intra.keys.flatMap s.flippedFunctionMap.get ↔
      (s.callPaths p).caller ∈ intra.keys := by
    rw [List.mem_flatMap]
    constructor
    · rintro ⟨f, hf, hmem⟩
      rwa [(hs.mem_flipped.mp hmem).2]
    · exact fun hf => ⟨_, hf, hs.mem_flipped.mpr ⟨hp, rfl⟩⟩
  have hmemIn : p ∈ intra.keys.flatMap s.functionMap.get ↔ (s.callPaths p).callee ∈ intra.keys := by
    rw [List.mem_flatMap]
    constructor
    · rintro ⟨f, hf, hmem⟩
      rwa [hs.wellFormed.callee f p hmem]
    · exact fun hf => ⟨_, hf, hs.wellFormed.mem_paths.mp hp⟩
  unfold contractedPath
  by_cases hcaller : (s.callPaths p).caller ∈ intra.keys
  · have hfirst := modifyAll_of_mem (m := s.callPaths) (g := fun _ e => markOutbound intra e) hout
      (hmemOut.mpr hcaller)
    by_cases hcallee : (s.callPaths p).callee ∈ intra.keys
    · rw [modifyAll_of_mem hin (hmemIn.mpr hcallee), hfirst, if_pos hcaller, if_pos hcallee]
      unfold markOutbound
      rw [if_pos hcallee]
      simp [markInbound]
    · rw [modifyAll_of_not_mem (mt hmemIn.mp hcallee), hfirst, if_pos hcaller, if_neg hcallee]
      unfold markOutbound
      rw [if_neg hcallee]
  · have hfirst := modifyAll_of_not_mem (m := s.callPaths) (g := fun _ e => markOutbound intra e)
      (mt hmemOut.mp hcaller)
    by_cases hcallee : (s.callPaths p).callee ∈ intra.keys
    · have hne : (s.callPaths p).caller ≠ (s.callPaths p).callee := fun h => hcaller (h ▸ hcallee)
      rw [modifyAll_of_mem hin (hmemIn.mpr hcallee), hfirst, if_neg hcaller, if_pos hcallee]
      unfold markInbound
      rw [if_neg hne, if_neg hcaller]
    · rw [modifyAll_of_not_mem (mt hmemIn.mp hcallee), hfirst, if_neg hcaller, if_neg hcallee]

/-! ## Moving calls -/

section Moving

variable {m : KeyMap String (List ℕ)} {fs names : List String} {members : String → List String}

theorem moveCalls_outside (hm : m.Outside []) : (moveCalls name m f).Outside [] := hm.insert.insert

/-- The calls of several functions are moved to one node. -/
theorem foldl_moveCalls_get (hname : name ∉ fs) (hfs : fs.Nodup) :
    (fs.foldl (moveCalls name) m).get g =
      if g ∈ fs then [] else if g = name then m.get name ++ fs.flatMap m.get else m.get g := by
  induction fs generalizing m with
  | nil => by_cases hg : g = name <;> simp [hg]
  | cons f fs ih =>
    obtain ⟨hnf, hname⟩ := List.ne_and_not_mem_of_not_mem_cons hname
    obtain ⟨hf, hfs⟩ := List.nodup_cons.mp hfs
    have hget : ∀ h, (moveCalls name m f).get h =
        if h = f then [] else if h = name then m.get name ++ m.get f else m.get h := by
      intro h
      unfold moveCalls
      by_cases hhf : h = f
      · subst hhf
        simp
      · rw [KeyMap.insert_get_of_ne hhf, if_neg hhf]
        by_cases hhn : h = name
        · subst hhn
          simp
        · rw [KeyMap.insert_get_of_ne hhn, if_neg hhn]
    have hrest : fs.flatMap (moveCalls name m f).get = fs.flatMap m.get := by
      simp only [List.flatMap_def]
      congr 1
      refine List.map_congr_left fun h hh => ?_
      have hhf : h ≠ f := by
        rintro rfl
        exact hf hh
      have hhn : h ≠ name := by
        rintro rfl
        exact hname hh
      rw [hget, if_neg hhf, if_neg hhn]
    rw [List.foldl_cons, ih hname hfs, hrest, hget g, hget name, if_neg hnf, if_pos rfl]
    by_cases hgf : g = f
    · subst hgf
      have hgn : g ≠ name := Ne.symm hnf
      simp [hgn]
    · by_cases hgn : g = name
      · simp [hgn, hnf, hname]
      · simp [hgf, hgn]

theorem createEntry_get (hm : m.Outside []) : (createEntry m name).get = m.get := by
  unfold createEntry
  split
  · rfl
  · rename_i hkey
    funext f
    by_cases hf : f = name
    · subst hf
      rw [KeyMap.insert_get_self, hm f hkey]
    · exact KeyMap.insert_get_of_ne hf

theorem createEntry_outside (hm : m.Outside []) : (createEntry m name).Outside [] := by
  unfold createEntry
  split
  · exact hm
  · exact hm.insert

/-- Contract the cycles `names` in one map. -/
def contractMap (members : String → List String) (m : KeyMap String (List ℕ)) (names : List String) :
    KeyMap String (List ℕ) :=
  names.foldl (fun m name => (members name).foldl (moveCalls name) (createEntry m name)) m

/-- What `createEntry` and `moveCalls` keep, a contraction keeps. -/
theorem contractMap_induction {P : KeyMap String (List ℕ) → Prop}
    (hcreate : ∀ m name, P m → P (createEntry m name))
    (hmove : ∀ m name f, P m → P (moveCalls name m f)) (hm : P m) :
    P (contractMap members m names) := by
  have hfold : ∀ name (fs : List String) m, P m → P (fs.foldl (moveCalls name) m) := by
    intro name fs
    induction fs with
    | nil => exact fun _ hm => hm
    | cons f fs ih => exact fun m hm => ih _ (hmove m name f hm)
  unfold contractMap
  induction names generalizing m with
  | nil => exact hm
  | cons name names ih => exact ih (hfold name _ _ (hcreate m name hm))

theorem contractMap_outside (hm : m.Outside []) : (contractMap members m names).Outside [] := by
  refine contractMap_induction (P := fun m => m.Outside []) ?_ ?_ hm
  · exact fun _ _ hm => createEntry_outside hm
  · exact fun _ _ _ hm => moveCalls_outside hm

theorem contractMap_nodup (hm : m.keys.Nodup) : (contractMap members m names).keys.Nodup := by
  refine contractMap_induction (P := fun m => m.keys.Nodup) ?_ ?_ hm
  · intro m name hm
    unfold createEntry
    split
    · exact hm
    · exact KeyMap.nodup_insert_keys hm
  · exact fun _ _ _ hm => KeyMap.nodup_insert_keys (KeyMap.nodup_insert_keys hm)

/-- **A contracted map**: a node has the calls of its functions, and these have none. -/
theorem contractMap_get (hm : m.Outside []) (hnames : names.Nodup)
    (hmembers : ∀ name, (members name).Nodup)
    (hapart : ∀ name ∈ names, ∀ name' ∈ names, name ≠ name' →
      (members name).Disjoint (members name'))
    (hfresh : ∀ name ∈ names, ∀ name' ∈ names, name' ∉ members name) (g : String) :
    (contractMap members m names).get g = if ∃ name ∈ names, g ∈ members name then []
      else if g ∈ names then m.get g ++ (members g).flatMap m.get else m.get g := by
  induction names generalizing m with
  | nil => simp [contractMap]
  | cons name names ih =>
    obtain ⟨hname, hnames⟩ := List.nodup_cons.mp hnames
    have hself : name ∉ members name := hfresh name List.mem_cons_self name List.mem_cons_self
    let m' := (members name).foldl (moveCalls name) (createEntry m name)
    have hget : ∀ f, m'.get f = if f ∈ members name then []
        else if f = name then m.get name ++ (members name).flatMap m.get else m.get f := by
      intro f
      rw [foldl_moveCalls_get hself (hmembers name), createEntry_get hm]
    have hout : m'.Outside [] := @contractMap_outside m [name] members hm
    have hstep := ih hout hnames
      (fun a ha b hb => hapart a (List.mem_cons_of_mem name ha) b (List.mem_cons_of_mem name hb))
      (fun a ha b hb => hfresh a (List.mem_cons_of_mem name ha) b (List.mem_cons_of_mem name hb))
    change (contractMap members m' names).get g = _
    have hcons : (∃ name' ∈ name :: names, g ∈ members name') ↔
        g ∈ members name ∨ ∃ name' ∈ names, g ∈ members name' := by simp
    rw [hstep]
    by_cases hlater : ∃ name' ∈ names, g ∈ members name'
    · rw [if_pos hlater, if_pos (hcons.mpr (.inr hlater))]
    · by_cases hnow : g ∈ members name
      · have hg : g ∉ names := fun hg =>
          hfresh name List.mem_cons_self g (List.mem_cons_of_mem name hg) hnow
        rw [if_neg hlater, if_neg hg, hget, if_pos hnow,
          if_pos (hcons.mpr (.inl hnow))]
      · rw [if_neg hlater, if_neg (mt hcons.mp (not_or.mpr ⟨hnow, hlater⟩))]
        by_cases hg : g ∈ names
        · have hgn : g ≠ name := fun h => hname (h ▸ hg)
          -- the functions of a later cycle were not touched
          have hkeep : (members g).flatMap m'.get = (members g).flatMap m.get := by
            simp only [List.flatMap_def]
            congr 1
            refine List.map_congr_left fun f hf => ?_
            have hfn : f ∉ members name := fun hmem =>
              hapart g (List.mem_cons_of_mem name hg) name List.mem_cons_self hgn hf hmem
            have hne : f ≠ name := by
              rintro rfl
              exact hfresh g (List.mem_cons_of_mem f hg) f List.mem_cons_self hf
            rw [hget, if_neg hfn, if_neg hne]
          rw [if_pos hg, if_pos (List.mem_cons_of_mem name hg), hget, if_neg hnow, if_neg hgn, hkeep]
        · rw [if_neg hg, hget, if_neg hnow]
          by_cases hgn : g = name
          · subst hgn
            simp
          · simp [hgn, hg]

end Moving

end InstrumentIRPass

end Semalloc
