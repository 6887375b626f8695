import Semalloc.Frontend.InstrumentIR

/-!
# The topological sort of the final call graph

`ComputeEdgeWeight` checks the two final maps against each other and then takes functions off the
graph, one without callees left at a time.

## Main definitions

* `finalGraph`: the final calls in each function
* `FinalMaps`: the shape of the final maps
* `Consistent`: what the checks look for

## Main results

* `checks_iff`: the checks pass exactly on consistent maps
* `sortFunctions_sound`: an order that is returned lists every callee before its callers
* `sortFunctions_complete`: on an acyclic graph an order is returned
-/

set_option autoImplicit false

namespace Semalloc

namespace InstrumentIRPass

open Multigraph

variable {s : InstrumentIRPass} {f : String} {p : ℕ}

/-- The final calls in each function. -/
def finalGraph (s : InstrumentIRPass) : Multigraph String ℕ where
  out := s.finalCalleeMap.get
  target p := (s.callPaths p).callee

/-- The final maps list the final calls of the relevant functions, each call once. -/
structure FinalMaps (s : InstrumentIRPass) : Prop where
  nodup : s.relevantAllFunctionSet.Nodup
  nonempty : ∀ f ∈ s.relevantAllFunctionSet, f ≠ ""
  calleesNodup : ∀ f, (s.finalCalleeMap.get f).Nodup
  callersNodup : ∀ f, (s.finalCallerMap.get f).Nodup
  calleesOutside : ∀ f ∉ s.relevantAllFunctionSet, s.finalCalleeMap.get f = []
  callersOutside : ∀ f ∉ s.relevantAllFunctionSet, s.finalCallerMap.get f = []
  unsorted : s.topologicalOrder = []

/-- The final maps list the same calls, each under its two ends, and no end is in a cycle. -/
structure Consistent (s : InstrumentIRPass) : Prop where
  callees : ∀ f ∈ s.relevantAllFunctionSet, ∀ p ∈ s.finalCalleeMap.get f,
    (s.callPaths p).callee ∉ s.flippedIntraFunctionMap.keys ∧ (s.callPaths p).caller = f
  callers : ∀ f ∈ s.relevantAllFunctionSet, ∀ p ∈ s.finalCallerMap.get f,
    (s.callPaths p).caller ∉ s.flippedIntraFunctionMap.keys ∧ (s.callPaths p).callee = f
  calleesListed : ∀ f ∈ s.relevantAllFunctionSet, ∀ p ∈ s.finalCalleeMap.get f,
    p ∈ s.finalCallerMap.get (s.callPaths p).callee
  callersListed : ∀ f ∈ s.relevantAllFunctionSet, ∀ p ∈ s.finalCallerMap.get f,
    p ∈ s.finalCalleeMap.get (s.callPaths p).caller

/-! ## The checks -/

/-- A check followed by more passes when both do. -/
theorem bind_eq_ok {α : Type} {x : Except Exit Unit} {y : Except Exit α} {a : α} :
    (x >>= fun _ => y) = .ok a ↔ x = .ok () ∧ y = .ok a := by
  cases x <;> simp [bind, Except.bind]

theorem exitIf_eq_ok {failed : Prop} [Decidable failed] {message : String} :
    exitIf failed message = .ok () ↔ ¬ failed := by
  unfold exitIf
  split <;> simp [*]

/-- A loop of checks passes when each of them does. -/
theorem forM_eq_ok {α : Type} {l : List α} {check : α → Except Exit Unit} :
    l.forM check = .ok () ↔ ∀ x ∈ l, check x = .ok () := by
  induction l with
  | nil => simp [pure, Except.pure]
  | cons x l ih =>
    rw [List.forall_mem_cons, ← ih]
    exact bind_eq_ok

/-- **The checks pass exactly on consistent maps.** -/
theorem checks_iff : (s.relevantAllFunctionSet.forM s.checkEnds = .ok () ∧
    s.relevantAllFunctionSet.forM s.checkCallee = .ok () ∧
    s.relevantAllFunctionSet.forM s.checkCaller = .ok ()) ↔ s.Consistent := by
  unfold checkEnds checkCallee checkCaller
  simp only [forM_eq_ok, bind_eq_ok, exitIf_eq_ok, not_not, ne_eq]
  constructor
  · rintro ⟨hends, hcallee, hcaller⟩
    exact ⟨fun f hf => (hends f hf).1, fun f hf => (hends f hf).2, hcallee, hcaller⟩
  · rintro ⟨hcallees, hcallers, hcallee, hcaller⟩
    exact ⟨fun f hf => ⟨hcallees f hf, hcallers f hf⟩, hcallee, hcaller⟩

/-! ## The sort -/

/-- The counts are the callees that are left, and the callees of what was taken were taken
before. -/
structure Sorting (s : InstrumentIRPass) (left : List String) (count : String → ℕ)
    (order : List String) : Prop where
  nodup : left.Nodup
  counts : ∀ f ∈ left,
    count f = (s.finalCalleeMap.get f).countP fun p => (s.callPaths p).callee ∈ left
  covered : ∀ f ∈ left, ∀ p ∈ s.finalCalleeMap.get f,
    (s.callPaths p).callee ∈ left ∨ (s.callPaths p).callee ∈ order
  sorted : s.finalGraph.SourcesFirst order.reverse

/-- A function that is taken leaves the counts of its callers. -/
theorem countP_erase {left : List String} {x : String} (hleft : left.Nodup) (hx : x ∈ left)
    (l : List ℕ) :
    l.countP (fun p => (s.callPaths p).callee ∈ left) -
        l.countP (fun p => (s.callPaths p).callee = x) =
      l.countP fun p => (s.callPaths p).callee ∈ left.erase x := by
  have hsplit : l.countP (fun p => (s.callPaths p).callee ∈ left) =
      l.countP (fun p => (s.callPaths p).callee ∈ left.erase x) +
        l.countP (fun p => (s.callPaths p).callee = x) := by
    induction l with
    | nil => rfl
    | cons p l ih =>
      simp only [List.countP_cons, ih, hleft.mem_erase_iff]
      by_cases hp : (s.callPaths p).callee = x
      · simp [hp, hx]
        omega
      · simp [hp]
        omega
  rw [hsplit, Nat.add_sub_cancel]

/-- One round of the sort. -/
theorem Sorting.take {left order : List String} {count : String → ℕ} {x : String}
    (h : s.Sorting left count order) (hx : x ∈ left) (hcount : count x = 0) :
    s.Sorting (left.erase x)
      (fun f => if f ∈ left.erase x then
        count f - (s.finalCalleeMap.get f).countP (fun p => (s.callPaths p).callee = x)
        else count f)
      (order ++ [x]) where
  nodup := h.nodup.erase x
  counts := by
    intro f hf
    rw [if_pos hf, h.counts f (List.mem_of_mem_erase hf)]
    exact countP_erase h.nodup hx _
  covered := by
    intro f hf p hp
    rcases h.covered f (List.mem_of_mem_erase hf) p hp with hleft | hdone
    · by_cases hpx : (s.callPaths p).callee = x
      · exact .inr (by simp [hpx])
      · exact .inl ((List.mem_erase_of_ne hpx).mpr hleft)
    · exact .inr (List.mem_append_left _ hdone)
  sorted := by
    rw [List.reverse_append]
    refine ⟨fun p hp => ?_, h.sorted⟩
    rw [h.counts x hx, List.countP_eq_zero] at hcount
    have hout := hcount p hp
    rcases h.covered x hx p hp with hleft | hdone
    · exact absurd (decide_eq_true hleft) hout
    · exact List.mem_reverse.mpr hdone

/-- What is taken in a round: the first function without callees left. -/
theorem find_spec {left : List String} {count : String → ℕ} {x : String} (hne : x ≠ "")
    (hx : (left.find? fun f => count f = 0).getD "" = x) : x ∈ left ∧ count x = 0 := by
  cases hfind : left.find? fun f => count f = 0 with
  | none =>
    rw [hfind] at hx
    exact absurd hx.symm hne
  | some y =>
    rw [hfind] at hx
    obtain rfl : y = x := hx
    exact ⟨List.mem_of_find?_eq_some hfind, by simpa using List.find?_some hfind⟩

/-- **An order that is returned** lists every function once, and every callee before its callers. -/
theorem sortFunctions_sound {left order order' : List String} {count : String → ℕ} {n : ℕ}
    (h : s.Sorting left count order) (hn : left.length = n)
    (hok : s.sortFunctions n left count order = .ok order') :
    s.finalGraph.SourcesFirst order'.reverse ∧ order'.Perm (order ++ left) := by
  induction n generalizing left count order with
  | zero =>
    obtain rfl := List.length_eq_zero_iff.mp hn
    cases hok
    exact ⟨h.sorted, by simp⟩
  | succ n ih =>
    have hleft : left ≠ [] := List.ne_nil_of_length_pos (by omega)
    unfold sortFunctions at hok
    simp only [if_neg hleft] at hok
    split at hok
    · cases hok
    · rename_i hne
      obtain ⟨hx, hcount⟩ := find_spec hne rfl
      have hlen : (left.erase ((left.find? fun f => count f = 0).getD "")).length = n := by
        rw [List.length_erase_of_mem hx]
        omega
      obtain ⟨hsorted, hperm⟩ := ih (h.take hx hcount) hlen hok
      refine ⟨hsorted, hperm.trans ?_⟩
      rw [List.append_assoc]
      exact (List.perm_cons_erase hx).symm.append_left order

/-- **On an acyclic graph an order is returned.** -/
theorem sortFunctions_complete {left order : List String} {count : String → ℕ} {n : ℕ}
    (hacyclic : s.finalGraph.Acyclic) (h : s.Sorting left count order) (hn : left.length = n)
    (hne : ∀ f ∈ left, f ≠ "") : ∃ order', s.sortFunctions n left count order = .ok order' := by
  induction n generalizing left count order with
  | zero => exact ⟨order, rfl⟩
  | succ n ih =>
    have hleft : left ≠ [] := List.ne_nil_of_length_pos (by omega)
    -- some function has no callees left, so one is found
    obtain ⟨y, hy, hout⟩ := exists_sink hacyclic hleft
    have hzero : count y = 0 := by
      rw [h.counts y hy, List.countP_eq_zero]
      intro p hp
      have hgone : (s.callPaths p).callee ∉ left := hout p hp
      simpa using hgone
    obtain ⟨x, hfind⟩ : ∃ x, left.find? (fun f => count f = 0) = some x := by
      apply Option.isSome_iff_exists.mp
      rw [List.find?_isSome]
      exact ⟨y, hy, by simpa using hzero⟩
    have hx : x ∈ left := List.mem_of_find?_eq_some hfind
    have hcount : count x = 0 := by simpa using List.find?_some hfind
    have hlen : (left.erase x).length = n := by
      rw [List.length_erase_of_mem hx]
      omega
    obtain ⟨order', hok⟩ := ih (h.take hx hcount) hlen fun f hf =>
      hne f (List.mem_of_mem_erase hf)
    refine ⟨order', ?_⟩
    unfold sortFunctions
    simp only [if_neg hleft, hfind, Option.getD_some, if_neg (hne x hx)]
    exact hok

/-- The sort starts with every function left. -/
theorem FinalMaps.sorting (hs : s.FinalMaps) (hc : s.Consistent) :
    s.Sorting s.relevantAllFunctionSet (fun f => (s.finalCalleeMap.get f).length)
      s.topologicalOrder := by
  have hclosed : ∀ f ∈ s.relevantAllFunctionSet, ∀ p ∈ s.finalCalleeMap.get f,
      (s.callPaths p).callee ∈ s.relevantAllFunctionSet := by
    intro f hf p hp
    by_contra hout
    have hlisted := hc.calleesListed f hf p hp
    rw [hs.callersOutside _ hout] at hlisted
    cases hlisted
  refine ⟨hs.nodup, ?_, fun f hf p hp => .inl (hclosed f hf p hp), ?_⟩
  · intro f hf
    symm
    rw [List.countP_eq_length]
    exact fun p hp => decide_eq_true (hclosed f hf p hp)
  · rw [hs.unsorted]
    trivial

/-! ## The step -/

/-- **`ComputeEdgeWeight` returns** when the maps are consistent and an order exists, with the
weights of that order. -/
theorem computeEdgeWeight_eq_ok {s' : InstrumentIRPass} : s.computeEdgeWeight = .ok s' ↔
    s.Consistent ∧ ∃ order, s.sortFunctions s.relevantAllFunctionSet.length
      s.relevantAllFunctionSet (fun f => (s.finalCalleeMap.get f).length) s.topologicalOrder =
        .ok order ∧ order.foldl weighFunction { s with topologicalOrder := order } = s' := by
  unfold computeEdgeWeight
  rw [← checks_iff]
  dsimp only
  simp only [bind_eq_ok, and_assoc]
  refine and_congr_right fun _ => and_congr_right fun _ => and_congr_right fun _ => ?_
  cases hsort : s.sortFunctions s.relevantAllFunctionSet.length s.relevantAllFunctionSet
      (fun f => (s.finalCalleeMap.get f).length) s.topologicalOrder with
  | error e => simp [bind, Except.bind]
  | ok order => simp [bind, Except.bind, pure, Except.pure]

end InstrumentIRPass

end Semalloc
