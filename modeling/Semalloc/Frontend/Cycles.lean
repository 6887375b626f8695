import Semalloc.Frontend.MarkedCalls

/-!
# The cycles of the call graph

The components that `kosaraju` reports are strongly connected components of the marked call graph.
Those with more than one function are the cycles, and each gets a name that no function has.

## Main definitions

* `SCCResult.Correct`: the components are the strongly connected ones
* `InCycle`: a function in a component of two functions or more
* `CyclesNamed`: the maps between the cycles and their names

## Main results

* `mem_cyclesOf`: the cycles are the components of the functions in a cycle
* `nameCycles_named`: the loop over the cycles names them
-/

set_option autoImplicit false

namespace Semalloc

/-- The calls lead from one function to the other and back. -/
def SameComponent (edges : List (String × String)) (x y : String) : Prop :=
  Relation.ReflTransGen (fun a b => (a, b) ∈ edges) x y ∧
    Relation.ReflTransGen (fun a b => (a, b) ∈ edges) y x

namespace SCCResult

/-- The result lists the ends of the edges, and numbers the strongly connected components. -/
structure Correct (edges : List (String × String)) (r : SCCResult) : Prop where
  nodup : r.nodeSet.Nodup
  mem : ∀ x, x ∈ r.nodeSet ↔ ∃ y, (x, y) ∈ edges ∨ (y, x) ∈ edges
  component : ∀ x ∈ r.nodeSet, ∀ y ∈ r.nodeSet,
    r.sccMap x = r.sccMap y ↔ SameComponent edges x y

/-- A function whose component has another function. -/
def InCycle (r : SCCResult) (x : String) : Prop :=
  x ∈ r.nodeSet ∧ ∃ y ∈ r.nodeSet, y ≠ x ∧ r.sccMap y = r.sccMap x

/-- The functions of the component of `x`. -/
def componentOf (r : SCCResult) (x : String) : List String :=
  r.nodeSet.filter fun y => r.sccMap y = r.sccMap x

theorem mem_componentOf {r : SCCResult} {x y : String} :
    y ∈ r.componentOf x ↔ y ∈ r.nodeSet ∧ r.sccMap y = r.sccMap x := by
  rw [componentOf, List.mem_filter, decide_eq_true_eq]

/-- A numbering that no edge decreases, whose classes are joined both ways, numbers the components. -/
theorem correct_of_numbering {edges : List (String × String)} {r : SCCResult} (hnodup : r.nodeSet.Nodup)
    (hnodes : ∀ x ∈ r.nodeSet, ∃ e ∈ edges, e.1 = x ∨ e.2 = x)
    (hends : ∀ e ∈ edges, e.1 ∈ r.nodeSet ∧ e.2 ∈ r.nodeSet ∧ r.sccMap e.1 ≤ r.sccMap e.2)
    (hjoined : ∀ x ∈ r.nodeSet, ∀ y ∈ r.nodeSet, r.sccMap x = r.sccMap y →
      x = y ∨ (x, y) ∈ edges ∧ (y, x) ∈ edges) :
    r.Correct edges where
  nodup := hnodup
  mem x := by
    constructor
    · intro hx
      obtain ⟨⟨a, b⟩, he, rfl | rfl⟩ := hnodes x hx
      · exact ⟨b, .inl he⟩
      · exact ⟨a, .inr he⟩
    · rintro ⟨y, he | he⟩
      · exact (hends _ he).1
      · exact (hends _ he).2.1
  component := by
    have hle : ∀ x y, Relation.ReflTransGen (fun a b => (a, b) ∈ edges) x y →
        r.sccMap x ≤ r.sccMap y := by
      intro x y hxy
      induction hxy with
      | refl => exact le_refl _
      | tail _ he ih => exact ih.trans (hends _ he).2.2
    intro x hx y hy
    constructor
    · intro heq
      rcases hjoined x hx y hy heq with rfl | ⟨hxy, hyx⟩
      · exact ⟨.refl, .refl⟩
      · exact ⟨.single hxy, .single hyx⟩
    · rintro ⟨hxy, hyx⟩
      exact le_antisymm (hle x y hxy) (hle y x hyx)

/-- Where no two nodes have the same number, no two functions are in one component. -/
theorem Correct.eq_of_sameComponent {edges : List (String × String)} {r : SCCResult}
    (hr : r.Correct edges)
    (hinjective : ∀ x ∈ r.nodeSet, ∀ y ∈ r.nodeSet, r.sccMap x = r.sccMap y → x = y) (f g : String)
    (hfg : SameComponent edges f g) : f = g := by
  have hmem : ∀ f g, f ≠ g → SameComponent edges f g → f ∈ r.nodeSet := by
    intro f g hne hfg
    rcases hfg.1.cases_head with heq | ⟨x, hx, -⟩
    · exact absurd heq hne
    · exact (hr.mem f).mpr ⟨x, .inl hx⟩
  by_contra hne
  have hf := hmem f g hne hfg
  have hg := hmem g f (Ne.symm hne) ⟨hfg.2, hfg.1⟩
  exact hne (hinjective f hf g hg ((hr.component f hf g hg).mpr hfg))

end SCCResult

namespace InstrumentIRPass

variable {r : SCCResult} {s : InstrumentIRPass} {c : List String} {x y : String}

/-- A component with two functions has more than one entry, and the other way round. -/
theorem length_componentOf (hr : r.nodeSet.Nodup) (hx : x ∈ r.nodeSet) :
    (r.componentOf x).length > 1 ↔ r.InCycle x := by
  have hmem : x ∈ r.componentOf x := SCCResult.mem_componentOf.mpr ⟨hx, rfl⟩
  constructor
  · intro hlen
    refine ⟨hx, ?_⟩
    by_contra hnone
    have hall : ∀ y ∈ r.componentOf x, y = x := by
      intro y hy
      obtain ⟨hy, hcomp⟩ := SCCResult.mem_componentOf.mp hy
      by_contra hne
      exact hnone ⟨y, hy, hne, hcomp⟩
    have hnodup : (r.componentOf x).Nodup := hr.filter _
    have hrep := List.eq_replicate_of_mem hall
    rw [hrep] at hnodup
    have hle := List.nodup_replicate.mp hnodup
    omega
  · rintro ⟨-, y, hy, hne, hcomp⟩
    have hy' : y ∈ r.componentOf x := SCCResult.mem_componentOf.mpr ⟨hy, hcomp⟩
    by_contra hlen
    have hone : (r.componentOf x).length = 1 := by
      have hpos := List.length_pos_of_mem hmem
      omega
    obtain ⟨z, hz⟩ := List.length_eq_one_iff.mp hone
    rw [hz, List.mem_singleton] at hmem hy'
    exact hne (hy'.trans hmem.symm)

/-- **The cycles** are the components of the functions in a cycle. -/
theorem mem_cyclesOf (hr : r.nodeSet.Nodup) :
    c ∈ cyclesOf r ↔ ∃ x, r.InCycle x ∧ c = r.componentOf x := by
  unfold cyclesOf
  rw [List.mem_filter, List.mem_map, decide_eq_true_eq]
  constructor
  · rintro ⟨⟨id, hid, rfl⟩, hlen⟩
    rcases mem_insertKeys.mp hid with hid | hid
    · obtain ⟨x, hx, rfl⟩ := List.mem_map.mp hid
      exact ⟨x, (length_componentOf hr hx).mp hlen, rfl⟩
    · cases hid
  · rintro ⟨x, hx, rfl⟩
    refine ⟨⟨r.sccMap x, ?_, rfl⟩, (length_componentOf hr hx.1).mpr hx⟩
    exact mem_insertKeys.mpr (.inl (List.mem_map_of_mem hx.1))

/-- Different cycles have no function in common. -/
theorem cyclesOf_disjoint : (cyclesOf r).Pairwise List.Disjoint := by
  unfold cyclesOf
  refine List.Pairwise.filter _ (List.pairwise_map.mpr ?_)
  have hids : (insertKeys (r.nodeSet.map r.sccMap) []).Nodup := nodup_insertKeys List.nodup_nil
  refine hids.imp fun hne => ?_
  intro x hx hy
  rw [List.mem_filter, decide_eq_true_eq] at hx hy
  exact hne (hx.2.symm.trans hy.2)

/-! ## Names -/

/-- The cycles that were named, in order, and their names. -/
structure Naming (named : List (List String)) (s : InstrumentIRPass) : Prop where
  keysNodup : s.intraFunctionMap.keys.Nodup
  size : s.intraFunctionMap.keys.length = named.length
  names : ∀ name, name ∈ s.intraFunctionMap.keys ↔ ∃ n < named.length, name = intraName n
  membersNodup : ∀ name, (s.intraFunctionMap.get name).Nodup
  members : ∀ n c, named[n]? = some c → ∀ x, x ∈ s.intraFunctionMap.get (intraName n) ↔ x ∈ c
  functionsNodup : s.flippedIntraFunctionMap.keys.Nodup
  functions : ∀ x, x ∈ s.flippedIntraFunctionMap.keys ↔ ∃ c ∈ named, x ∈ c
  name : ∀ n c, named[n]? = some c → ∀ x ∈ c, s.flippedIntraFunctionMap.get x = intraName n

/-- What naming a cycle leaves alone. -/
structure SameCalls (s t : InstrumentIRPass) : Prop where
  callPaths : t.callPaths = s.callPaths
  functionMap : t.functionMap = s.functionMap
  flipped : t.flippedFunctionMap = s.flippedFunctionMap
  marks : t.functionMarkSet = s.functionMarkSet

theorem foldl_insert_keys {m : KeyMap String String} {name : String} :
    x ∈ (c.foldl (fun m node => m.insert node name) m).keys ↔ x ∈ c ∨ x ∈ m.keys := by
  induction c generalizing m with
  | nil => simp
  | cons y c ih =>
    rw [List.foldl_cons, ih, KeyMap.mem_insert_keys, List.mem_cons]
    tauto

theorem foldl_insert_get {m : KeyMap String String} {name : String} :
    (c.foldl (fun m node => m.insert node name) m).get x = if x ∈ c then name else m.get x := by
  induction c generalizing m with
  | nil => rfl
  | cons y c ih =>
    rw [List.foldl_cons, ih]
    by_cases hx : x ∈ c
    · simp [hx]
    · by_cases hxy : x = y
      · subst hxy
        simp
      · simp [hx, hxy, KeyMap.insert_get_of_ne hxy]

theorem foldl_insert_nodup {m : KeyMap String String} {name : String} (hm : m.keys.Nodup) :
    (c.foldl (fun m node => m.insert node name) m).keys.Nodup := by
  induction c generalizing m with
  | nil => exact hm
  | cons y c ih => exact ih (KeyMap.nodup_insert_keys hm)

/-- One more cycle is named. -/
theorem Naming.nameCycle {named : List (List String)} (h : s.Naming named)
    (hhead : c.head? ∈ s.functionMarkSet.map some) (hdisjoint : ∀ d ∈ named, d.Disjoint c) :
    (s.nameCycle c).Naming (named ++ [c]) ∧ SameCalls s (s.nameCycle c) ∧
      (s.nameCycle c).relevantLoopFunctionSet = insertKeys c s.relevantLoopFunctionSet := by
  unfold InstrumentIRPass.nameCycle
  rw [if_pos hhead]
  have hfresh : intraName named.length ∉ s.intraFunctionMap.keys := by
    rw [h.names]
    rintro ⟨n, hn, heq⟩
    exact hn.ne (intraName_injective heq).symm
  have hlast : ∀ n d, (named ++ [c])[n]? = some d →
      (n < named.length ∧ named[n]? = some d) ∨ (n = named.length ∧ d = c) := by
    intro n d hn
    rcases lt_trichotomy n named.length with hlt | rfl | hgt
    · rw [List.getElem?_append_left hlt] at hn
      exact .inl ⟨hlt, hn⟩
    · rw [List.getElem?_concat_length] at hn
      exact .inr ⟨rfl, (Option.some.inj hn).symm⟩
    · rw [List.getElem?_eq_none (by simp; omega)] at hn
      cases hn
  refine ⟨?_, ⟨rfl, rfl, rfl, rfl⟩, rfl⟩
  dsimp only
  rw [h.size]
  exact {
    keysNodup := KeyMap.nodup_insert_keys h.keysNodup
    size := by
      dsimp only [KeyMap.insert, insertKey]
      rw [if_neg hfresh, (List.perm_orderedInsert _ _ _).length_eq, List.length_cons, h.size]
      simp
    names := by
      intro name
      rw [KeyMap.mem_insert_keys, h.names, List.length_append, List.length_singleton]
      constructor
      · rintro (rfl | ⟨n, hn, rfl⟩)
        · exact ⟨named.length, by omega, rfl⟩
        · exact ⟨n, by omega, rfl⟩
      · rintro ⟨n, hn, rfl⟩
        by_cases hlt : n = named.length
        · exact .inl (by rw [hlt])
        · exact .inr ⟨n, by omega, rfl⟩
    membersNodup := by
      intro name
      by_cases hname : name = intraName named.length
      · rw [hname, KeyMap.insert_get_self]
        exact nodup_insertKeys List.nodup_nil
      · rw [KeyMap.insert_get_of_ne hname]
        exact h.membersNodup name
    members := by
      intro n d hn x
      rcases hlast n d hn with ⟨hlt, hn⟩ | ⟨rfl, rfl⟩
      · rw [KeyMap.insert_get_of_ne fun heq => hlt.ne (intraName_injective heq)]
        exact h.members n d hn x
      · rw [KeyMap.insert_get_self, mem_insertKeys]
        simp
    functionsNodup := foldl_insert_nodup h.functionsNodup
    functions := by
      intro x
      rw [foldl_insert_keys, h.functions]
      constructor
      · rintro (hx | ⟨d, hd, hx⟩)
        · exact ⟨c, by simp, hx⟩
        · exact ⟨d, by simp [hd], hx⟩
      · rintro ⟨d, hd, hx⟩
        rcases List.mem_append.mp hd with hd | hd
        · exact .inr ⟨d, hd, hx⟩
        · exact .inl (List.mem_singleton.mp hd ▸ hx)
    name := by
      intro n d hn x hx
      rw [foldl_insert_get]
      rcases hlast n d hn with ⟨hlt, hn⟩ | ⟨rfl, rfl⟩
      · rw [if_neg fun hxc => hdisjoint d (List.mem_of_getElem? hn) hx hxc]
        exact h.name n d hn x hx
      · rw [if_pos hx] }

/-- **The loop names all cycles.** -/
theorem Naming.nameCycles {named cs : List (List String)} (h : s.Naming named)
    (hheads : ∀ c ∈ cs, c.head? ∈ s.functionMarkSet.map some)
    (hdisjoint : (named ++ cs).Pairwise List.Disjoint) :
    (cs.foldl InstrumentIRPass.nameCycle s).Naming (named ++ cs) ∧
      SameCalls s (cs.foldl InstrumentIRPass.nameCycle s) ∧
      ∀ x, x ∈ (cs.foldl InstrumentIRPass.nameCycle s).relevantLoopFunctionSet ↔
        x ∈ s.relevantLoopFunctionSet ∨ ∃ c ∈ cs, x ∈ c := by
  induction cs generalizing s named with
  | nil => exact ⟨by simpa using h, ⟨rfl, rfl, rfl, rfl⟩, fun x => by simp⟩
  | cons c cs ih =>
    have hc : ∀ d ∈ named, d.Disjoint c := fun d hd =>
      (List.pairwise_append.mp hdisjoint).2.2 d hd c List.mem_cons_self
    obtain ⟨hstep, hsame, hloop⟩ := h.nameCycle (hheads c List.mem_cons_self) hc
    obtain ⟨hnaming, hrest, hall⟩ := ih hstep
      (fun d hd => hsame.marks ▸ hheads d (List.mem_cons_of_mem c hd))
      (by rwa [List.append_assoc, List.singleton_append])
    rw [List.append_assoc, List.singleton_append] at hnaming
    refine ⟨hnaming, ⟨hrest.callPaths.trans hsame.callPaths,
      hrest.functionMap.trans hsame.functionMap, hrest.flipped.trans hsame.flipped,
      hrest.marks.trans hsame.marks⟩, fun x => ?_⟩
    rw [List.foldl_cons, hall x, hloop, mem_insertKeys, List.exists_mem_cons_iff]
    tauto

/-- The cycles and their names: the functions of a cycle have the name of the cycle, different
cycles have different names, and each name lists its cycle. -/
structure CyclesNamed (r : SCCResult) (s : InstrumentIRPass) : Prop where
  functionsNodup : s.flippedIntraFunctionMap.keys.Nodup
  functions : ∀ x, x ∈ s.flippedIntraFunctionMap.keys ↔ r.InCycle x
  same : ∀ x ∈ s.flippedIntraFunctionMap.keys, ∀ y ∈ s.flippedIntraFunctionMap.keys,
    s.flippedIntraFunctionMap.get x = s.flippedIntraFunctionMap.get y ↔ r.sccMap x = r.sccMap y
  named : ∀ x ∈ s.flippedIntraFunctionMap.keys, ∃ n, s.flippedIntraFunctionMap.get x = intraName n
  namesNodup : s.intraFunctionMap.keys.Nodup
  names : ∀ name, name ∈ s.intraFunctionMap.keys ↔
    ∃ x ∈ s.flippedIntraFunctionMap.keys, s.flippedIntraFunctionMap.get x = name
  membersNodup : ∀ name, (s.intraFunctionMap.get name).Nodup
  members : ∀ name ∈ s.intraFunctionMap.keys, ∀ x, x ∈ s.intraFunctionMap.get name ↔
    x ∈ s.flippedIntraFunctionMap.keys ∧ s.flippedIntraFunctionMap.get x = name

theorem Naming.cyclesNamed (hr : r.nodeSet.Nodup) (h : s.Naming (cyclesOf r)) : CyclesNamed r s := by
  have hfunctions : ∀ x, x ∈ s.flippedIntraFunctionMap.keys ↔ r.InCycle x := by
    intro x
    rw [h.functions]
    constructor
    · rintro ⟨c, hc, hx⟩
      obtain ⟨y, hy, rfl⟩ := (mem_cyclesOf hr).mp hc
      obtain ⟨hx, hcomp⟩ := SCCResult.mem_componentOf.mp hx
      obtain ⟨hy, z, hz, hne, hzy⟩ := hy
      refine ⟨hx, ?_⟩
      by_cases hzx : z = x
      · exact ⟨y, hy, fun hyx => hne (hzx.trans hyx.symm), hcomp.symm⟩
      · exact ⟨z, hz, hzx, hzy.trans hcomp.symm⟩
    · intro hx
      exact ⟨r.componentOf x, (mem_cyclesOf hr).mpr ⟨x, hx, rfl⟩,
        SCCResult.mem_componentOf.mpr ⟨hx.1, rfl⟩⟩
  -- the place of the cycle of a function
  have hplace : ∀ x, r.InCycle x → ∃ n, (cyclesOf r)[n]? = some (r.componentOf x) := fun x hx =>
    List.getElem?_of_mem ((mem_cyclesOf hr).mpr ⟨x, hx, rfl⟩)
  have hname : ∀ x n, (cyclesOf r)[n]? = some (r.componentOf x) → r.InCycle x →
      s.flippedIntraFunctionMap.get x = intraName n := fun x n hn hx =>
    h.name n _ hn x (SCCResult.mem_componentOf.mpr ⟨hx.1, rfl⟩)
  -- a function with the name of a place is in the cycle of that place
  have hcycle : ∀ x n c, (cyclesOf r)[n]? = some c → x ∈ s.flippedIntraFunctionMap.keys →
      s.flippedIntraFunctionMap.get x = intraName n → x ∈ c := by
    intro x n c hn hx hget
    have hx' := (hfunctions x).mp hx
    obtain ⟨k, hk⟩ := hplace x hx'
    have hkn : k = n := intraName_injective ((hname x k hk hx').symm.trans hget)
    rw [hkn, hn] at hk
    rw [Option.some.inj hk]
    exact SCCResult.mem_componentOf.mpr ⟨hx'.1, rfl⟩
  refine {
    functionsNodup := h.functionsNodup
    functions := hfunctions
    same := ?_
    named := ?_
    namesNodup := h.keysNodup
    names := ?_
    membersNodup := h.membersNodup
    members := ?_ }
  · intro x hx y hy
    have hy' := (hfunctions y).mp hy
    obtain ⟨n, hn⟩ := hplace y hy'
    rw [hname y n hn hy']
    constructor
    · intro hget
      exact (SCCResult.mem_componentOf.mp (hcycle x n _ hn hx hget)).2
    · intro hcomp
      exact h.name n _ hn x (SCCResult.mem_componentOf.mpr ⟨((hfunctions x).mp hx).1, hcomp⟩)
  · intro x hx
    obtain ⟨n, hn⟩ := hplace x ((hfunctions x).mp hx)
    exact ⟨n, hname x n hn ((hfunctions x).mp hx)⟩
  · intro name
    rw [h.names]
    constructor
    · rintro ⟨n, hn, rfl⟩
      obtain ⟨x, hx, hc⟩ := (mem_cyclesOf hr).mp (List.getElem_mem hn)
      have hn' : (cyclesOf r)[n]? = some (r.componentOf x) := by rw [List.getElem?_eq_getElem hn, hc]
      exact ⟨x, (hfunctions x).mpr hx, hname x n hn' hx⟩
    · rintro ⟨x, hx, rfl⟩
      obtain ⟨n, hn⟩ := hplace x ((hfunctions x).mp hx)
      exact ⟨n, (List.getElem?_eq_some_iff.mp hn).1, hname x n hn ((hfunctions x).mp hx)⟩
  · intro name hkey x
    obtain ⟨n, hn, rfl⟩ := (h.names name).mp hkey
    have hn' : (cyclesOf r)[n]? = some (cyclesOf r)[n] := List.getElem?_eq_getElem hn
    rw [h.members n _ hn' x]
    constructor
    · intro hx
      exact ⟨(h.functions x).mpr ⟨_, List.getElem_mem hn, hx⟩, h.name n _ hn' x hx⟩
    · rintro ⟨hx, hget⟩
      exact hcycle x n _ hn' hx hget

end InstrumentIRPass

end Semalloc
