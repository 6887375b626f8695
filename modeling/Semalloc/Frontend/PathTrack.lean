import Semalloc.Frontend.FlatGraph
import Semalloc.Frontend.Unwinding

/-!
# The track at a heap call

The code before a call adds the weight of the first entry of its instruction that has a mark when the
weights are pushed down. An indirect call has an entry for every function it may call, but only one
weight is added, whichever of them it calls. So the track at a heap call is the sum of the weights of
the calls taken only if the entries of an instruction can share this code. Since from every function
some calls lead on for which the right weight is added, errors on a path never cancel for all paths.

## Main definitions

* `Returns`: a run in which no exception is thrown
* `firstMarked`: the entry whose weight the code before a call adds
* `PushedDown`: the calls whose weights are pushed down to the calls in a function
* `Serves`, `EntriesAgree`: the entries of every instruction can share its code
* `TracksPaths`: the track at a heap call is the sum of the weights of the calls taken

## Main results

* `Flat.amountOf_track`: what the code before a call adds to the track
* `Flat.surplus_eq_zero_iff`: when this is what should be added
* `path_sums_tracked_iff`: the track is the sum of the weights exactly when the entries agree
-/

set_option autoImplicit false

namespace Semalloc

/-! ## Runs whose calls return -/

/-- Every call returns. -/
def Returns : Trace → Prop
  | .done => True
  | .enter _ rest => Returns rest
  | .call _ _ callee o rest => o = .returned ∧ Returns callee ∧ Returns rest

namespace Descent

/-- Active calls whose frames did nothing before. -/
def along : List Site → Descent
  | [] => .here
  | s :: ss => .within .done s 0 (along ss)

theorem along_sites (ss : List Site) : (along ss).sites = ss := by
  induction ss with
  | nil => rfl
  | cons s ss ih => rw [along, sites, ih]

theorem eq_done_of_mem_befores {ss : List Site} {t : Trace} (ht : t ∈ (along ss).befores) :
    t = .done := by
  induction ss with
  | nil => cases ht
  | cons s ss ih =>
    rcases List.mem_cons.mp ht with rfl | ht
    · rfl
    · exact ih ht

end Descent

namespace Code

variable {c : Code} {inst : Site → CallInst} {marks : List Mark} {t : Trace} {stack : Word}
  {g : Globals}

theorem boundAmount_track (l : List Mark) : (l.map (Mark.boundAmount · .track)).sum = 0 := by
  induction l with
  | nil => rfl
  | cons m l ih =>
    rw [List.map_cons, List.sum_cons, ih]
    rfl

/-- A frame that comes to its end leaves nothing in the track. -/
theorem leftBehind_track (ht : Ends inst t .returned) : leftBehind inst marks .track t = 0 := by
  induction t with
  | done => rfl
  | enter b rest ih => rw [leftBehind, ih ht, boundAmount_track, sub_zero]
  | call s frame callee o rest _ ihRest =>
    obtain ⟨-, hrest⟩ := ht
    rw [leftBehind]
    split
    · rename_i hthrough
      rw [if_pos hthrough] at hrest
      cases hrest.2
    · rename_i hthrough
      rw [if_neg hthrough] at hrest
      exact ihRest hrest

/-- **Without exceptions the track comes back.** -/
theorem undoneIn_of_returns (ht : Returns t) :
    Ends inst t .returned ∧ UndoneIn inst marks .track t := by
  induction t with
  | done => exact ⟨trivial, trivial⟩
  | enter b rest ih => exact ih ht
  | call s frame callee o rest ihCallee ihRest =>
    obtain ⟨rfl, hcallee, hrest⟩ := ht
    obtain ⟨hends, hundone⟩ := ihCallee hcallee
    obtain ⟨hendsRest, hundoneRest⟩ := ihRest hrest
    refine ⟨⟨hends, ?_⟩, hundone, fun _ => ?_, hundoneRest⟩
    · rwa [if_neg (fun h => nomatch h.2)]
    · rw [leftBehind_track hends]
      unfold others
      cases inst s with
      | call => rfl
      | invoke n u => exact (boundAmount_track _).symm

/-- The calls that are over undid what they added to the track. -/
def TrackSettled (inst : Site → CallInst) (marks : List Mark) (d : Descent) : Prop :=
  ∀ t ∈ d.befores, Ends inst t .returned ∧ UndoneIn inst marks .track t

/-- What the active calls add to the track. -/
theorem Instrumented.descent_track (h : Instrumented inst marks c)
    (hmarks : (marks.map Mark.site).Nodup) {d : Descent} (hd : TrackSettled inst marks d) :
    (d.execute stack c g).counters .track = g.counters .track +
      (d.sites.map fun s => amountOf marks s .track).sum := by
  refine h.descent_counters (fun t ht g => ?_) g
  obtain ⟨hends, hundone⟩ := hd t ht
  rw [h.execute_counters hmarks hends hundone, leftBehind_track hends, add_zero]

end Code

namespace InstrumentIRPass

open Multigraph Code

variable {s t : InstrumentIRPass} {f g : String} {p q : ℕ} {inst : Site → CallInst} {stack : Word}

/-! ## The marks of one function -/

def markFor (s : InstrumentIRPass) (p : ℕ) : Mark :=
  ⟨(s.callPaths p).callInst, (s.callPaths p).pathType, (s.callPaths p).edgeWeight.setWidth 64⟩

/-- The call is inside a cycle, and gets no code of its own. -/
def IsInner (s : InstrumentIRPass) (p : ℕ) : Prop :=
  (s.callPaths p).pathType = .markSimpleInner ∨ (s.callPaths p).pathType = .markInnerBranch

/-- The calls in one function that are instrumented: the first with a mark of each instruction, if it
is not inside a cycle. -/
theorem marksIn_spec (ps : List ℕ) (seen : List Site) :
    ((s.marksIn ps seen).map Mark.site).Nodup ∧ ∀ m, m ∈ s.marksIn ps seen ↔ m.site ∉ seen ∧
      ∃ p, (ps.find? fun p => (s.callPaths p).callInst = m.site ∧
        (s.callPaths p).pathType ≠ .default) = some p ∧ ¬ s.IsInner p ∧ s.markFor p = m := by
  induction ps generalizing seen with
  | nil => exact ⟨List.nodup_nil, fun m => by simp [marksIn]⟩
  | cons p ps ih =>
    unfold marksIn
    dsimp only
    by_cases hskip : (s.callPaths p).pathType = .default ∨ (s.callPaths p).callInst ∈ seen
    · rw [if_pos hskip]
      refine ⟨(ih seen).1, fun m => ((ih seen).2 m).trans (and_congr_right fun hm => ?_)⟩
      rw [List.find?_cons_of_neg]
      rw [decide_eq_true_eq]
      rintro ⟨hsite, hmark⟩
      rcases hskip with hdefault | hseen
      · exact hmark hdefault
      · exact hm (hsite ▸ hseen)
    · rw [if_neg hskip]
      obtain ⟨hdefault, hseen⟩ := not_or.mp hskip
      obtain ⟨hnodup, hmem⟩ := ih ((s.callPaths p).callInst :: seen)
      have hfirst : ((p :: ps).find? fun q => (s.callPaths q).callInst = (s.callPaths p).callInst ∧
          (s.callPaths q).pathType ≠ .default) = some p :=
        List.find?_cons_of_pos (decide_eq_true ⟨rfl, hdefault⟩)
      have hother : ∀ i, (s.callPaths p).callInst ≠ i → ((p :: ps).find? fun q =>
          (s.callPaths q).callInst = i ∧ (s.callPaths q).pathType ≠ .default) =
            ps.find? fun q => (s.callPaths q).callInst = i ∧
              (s.callPaths q).pathType ≠ .default := fun i hi =>
        List.find?_cons_of_neg fun h => hi (of_decide_eq_true h).1
      by_cases hinner : (s.callPaths p).pathType = .markSimpleInner ∨
          (s.callPaths p).pathType = .markInnerBranch
      · rw [if_pos hinner]
        refine ⟨hnodup, fun m => (hmem m).trans ?_⟩
        rw [List.mem_cons, not_or, and_assoc]
        constructor
        · rintro ⟨hsite, hm, hfound⟩
          rw [hother _ (Ne.symm hsite)]
          exact ⟨hm, hfound⟩
        · rintro ⟨hm, q, hfind, hq, rfl⟩
          by_cases hsite : (s.callPaths p).callInst = (s.markFor q).site
          · rw [← hsite, hfirst] at hfind
            exact absurd (Option.some.inj hfind ▸ hinner) hq
          · rw [hother _ hsite] at hfind
            exact ⟨Ne.symm hsite, hm, q, hfind, hq, rfl⟩
      · rw [if_neg hinner]
        refine ⟨?_, fun m => ?_⟩
        · rw [List.map_cons, List.nodup_cons]
          refine ⟨fun hsite => ?_, hnodup⟩
          obtain ⟨m, hm, hsite⟩ := List.mem_map.mp hsite
          exact ((hmem m).mp hm).1 (hsite ▸ List.mem_cons_self)
        · rw [List.mem_cons, hmem, List.mem_cons, not_or, and_assoc]
          constructor
          · rintro (rfl | ⟨hsite, hm, hfound⟩)
            · exact ⟨hseen, p, hfirst, hinner, rfl⟩
            · rw [hother _ (Ne.symm hsite)]
              exact ⟨hm, hfound⟩
          · rintro ⟨hm, q, hfind, hq, rfl⟩
            by_cases hsite : (s.callPaths p).callInst = (s.markFor q).site
            · rw [← hsite, hfirst] at hfind
              obtain rfl := Option.some.inj hfind
              exact .inl rfl
            · rw [hother _ hsite] at hfind
              exact .inr ⟨Ne.symm hsite, hm, q, hfind, hq, rfl⟩

/-! ## The code for a call -/

/-- The first call in `f` with the instruction `i` that is not carried on. -/
def firstMarked (t : InstrumentIRPass) (f : String) (i : Site) : Option ℕ :=
  (t.finalCalleeMap.get f).find? fun p => (t.callPaths p).callInst = i ∧ ¬ t.IsCarried p

theorem mem_of_firstMarked {i : Site} (hq : t.firstMarked f i = some q) :
    q ∈ t.finalCalleeMap.get f ∧ (t.callPaths q).callInst = i ∧ ¬ t.IsCarried q := by
  unfold firstMarked at hq
  have hfound := List.find?_some hq
  exact ⟨List.mem_of_find?_eq_some hq, of_decide_eq_true hfound⟩

/-- A call that is not carried on has a first call. -/
theorem exists_firstMarked (hp : p ∈ t.finalCalleeMap.get f) (hcarried : ¬ t.IsCarried p) :
    ∃ q, t.firstMarked f (t.callPaths p).callInst = some q := by
  refine Option.isSome_iff_exists.mp ?_
  unfold firstMarked
  rw [List.find?_isSome]
  exact ⟨p, hp, decide_eq_true ⟨rfl, hcarried⟩⟩

namespace Placed

variable (h : t.Placed)
include h

/-- The marks of one function. -/
theorem marksIn_iff {m : Mark} :
    m ∈ t.carryWeights.marksIn (t.carryWeights.finalCalleeMap.get f) [] ↔
      ∃ q, t.firstMarked f m.site = some q ∧ ¬ t.carryWeights.IsInner q ∧
        t.carryWeights.markFor q = m := by
  obtain ⟨hshape, -, htypes⟩ := h.ordered.carryWeights_spec
  rw [hshape.callees, (marksIn_spec _ []).2]
  have hfind : ((t.finalCalleeMap.get f).find? fun p =>
      (t.carryWeights.callPaths p).callInst = m.site ∧
        (t.carryWeights.callPaths p).pathType ≠ .default) = t.firstMarked f m.site := by
    refine List.find?_congr fun p hp => ?_
    simp only [hshape.callInst, ne_eq, htypes f p hp]
  rw [hfind]
  exact and_iff_right List.not_mem_nil

theorem mem_marks {m : Mark} : m ∈ t.marks ↔ ∃ f q, t.firstMarked f m.site = some q ∧
    ¬ t.carryWeights.IsInner q ∧ t.carryWeights.markFor q = m := by
  unfold marks
  rw [List.mem_flatMap, h.ordered.carryWeights_spec.1.relevant]
  constructor
  · rintro ⟨f, -, hm⟩
    exact ⟨f, h.marksIn_iff.mp hm⟩
  · rintro ⟨f, q, hq, hm⟩
    have hf := h.ordered.mem_order (mem_of_firstMarked hq).1
    exact ⟨f, (h.relevant f).mp hf, h.marksIn_iff.mpr ⟨q, hq, hm⟩⟩

/-- No instruction is instrumented twice. -/
theorem marks_nodup : (t.marks.map Mark.site).Nodup := by
  obtain ⟨hshape, -⟩ := h.ordered.carryWeights_spec
  unfold marks
  rw [List.map_flatMap, List.nodup_flatMap, hshape.relevant]
  refine ⟨fun f _ => (marksIn_spec _ []).1, h.nodup.imp fun hne => ?_⟩
  intro i hi hi'
  obtain ⟨m, hm, rfl⟩ := List.mem_map.mp hi
  obtain ⟨m', hm', hsite⟩ := List.mem_map.mp hi'
  obtain ⟨q, hq, -⟩ := h.marksIn_iff.mp hm
  obtain ⟨q', hq', -⟩ := h.marksIn_iff.mp hm'
  obtain ⟨hmem, hinst, -⟩ := mem_of_firstMarked hq
  obtain ⟨hmem', hinst', -⟩ := mem_of_firstMarked hq'
  exact hne (h.sites _ _ q hmem q' hmem' (hinst.trans (hsite.symm.trans hinst'.symm)))

/-- **What `doModulePass` leaves**: the code for the marks. -/
theorem instrumented (inst : Site → CallInst) :
    Instrumented inst t.marks (t.doModulePass (original inst)) := by
  rw [doModulePass_eq h.inner]
  exact instrumented_fold inst h.marks_nodup

end Placed

namespace Flat

variable (h : t.Flat)
include h

/-- Pushing weights down makes no mark of a call inside a cycle. -/
theorem not_isInner (hp : p ∈ t.finalCalleeMap.get f) : ¬ t.carryWeights.IsInner p := by
  unfold IsInner
  rw [h.ordered.carryWeights_pathType hp, not_or]
  split
  · exact ⟨nofun, nofun⟩
  · exact h.types f p hp

/-- **What the code before a call adds to the track**: the weight of the first marked call of the
instruction. -/
theorem amountOf_track (hp : p ∈ t.finalCalleeMap.get f) :
    amountOf t.marks (t.callPaths p).callInst .track =
      ((t.firstMarked f (t.callPaths p).callInst).map fun q =>
        (t.carryWeights.callPaths q).edgeWeight.setWidth 64).getD 0 := by
  unfold amountOf
  cases hq : t.firstMarked f (t.callPaths p).callInst with
  | none =>
    rw [markOf_eq_none]
    · rfl
    · intro hsite
      obtain ⟨m, hm, hsite⟩ := List.mem_map.mp hsite
      obtain ⟨g, q, hq', -⟩ := h.mem_marks.mp hm
      rw [hsite] at hq'
      obtain ⟨hmem, hinst, -⟩ := mem_of_firstMarked hq'
      obtain rfl := h.sites _ _ q hmem p hp hinst
      rw [hq] at hq'
      cases hq'
  | some q =>
    obtain ⟨hmem, hinst, -⟩ := mem_of_firstMarked hq
    have hsite : (t.carryWeights.markFor q).site = (t.callPaths p).callInst :=
      (h.ordered.carryWeights_spec.1.callInst q).trans hinst
    have hm : t.carryWeights.markFor q ∈ t.marks :=
      h.mem_marks.mpr ⟨f, q, hsite ▸ hq, h.not_isInner hmem, rfl⟩
    have hmark := markOf_site h.marks_nodup hm
    rw [hsite] at hmark
    rw [hmark]
    rfl

end Flat

/-! ## What is pushed down -/

/-- Calls that lead to `f` and push their weights down, each to the next one, and the last to the
calls in `f`. Nothing is pushed down to the first. -/
structure PushedDown (t : InstrumentIRPass) (r : String) (es : List ℕ) (f : String) : Prop where
  walk : t.finalGraph.Walk r es f
  carried : ∀ p ∈ es, t.IsCarried p
  first : ∀ g, ∀ p ∈ t.finalCalleeMap.get g, (t.callPaths p).callee = r → ¬ t.IsCarried p

namespace Flat

variable {r : String} {es : List ℕ} (h : t.Flat)
include h

/-- The sum of the weights of a path is its number. -/
theorem sum_weights (hwalk : t.finalGraph.Walk f es g) :
    (es.map fun p => (t.callPaths p).edgeWeight).sum = BitVec.ofNat 32 (t.pathNumber f es) := by
  induction hwalk with
  | nil v => rfl
  | @cons u v e es he _ ih =>
    rw [List.map_cons, List.sum_cons, ih, h.weights u e he, ← BitVec.ofNat_add]
    rfl

theorem exists_pushedDown (f : String) : ∃ r es, t.PushedDown r es f := by
  have houtside : ∀ f ∉ t.topologicalOrder.reverse, t.finalGraph.out f = [] := fun f hf =>
    h.ordered.ordered f fun hmem => hf (List.mem_reverse.mpr hmem)
  refine h.ordered.sorted.induction_up (P := fun f => ∃ r es, t.PushedDown r es f)
    (List.nodup_reverse.mpr h.ordered.orderNodup) houtside (fun f hcallers => ?_) f
  by_cases hlast : ∃ g, ∃ p ∈ t.finalCalleeMap.get g, (t.callPaths p).callee = f ∧ t.IsCarried p
  · obtain ⟨g, p, hp, rfl, hcarried⟩ := hlast
    obtain ⟨r, es, hpushed⟩ := hcallers g p hp rfl
    refine ⟨r, es ++ [p], hpushed.walk.concat hp, fun q hq => ?_, hpushed.first⟩
    rcases List.mem_append.mp hq with hq | hq
    · exact hpushed.carried q hq
    · exact List.mem_singleton.mp hq ▸ hcarried
  · exact ⟨f, [], .nil f, fun _ hp => absurd hp List.not_mem_nil,
      fun g p hp hcallee hcarried => hlast ⟨g, p, hp, hcallee, hcarried⟩⟩

theorem counted_of_isCarried (hp : p ∈ t.finalCalleeMap.get f) (hcarried : t.IsCarried p) :
    t.carryWeights.counted p = 0 :=
  if_pos ((h.ordered.carryWeights_spec.2.2 f p hp).mpr hcarried)

theorem counted_of_not_isCarried (hp : p ∈ t.finalCalleeMap.get f) (hcarried : ¬ t.IsCarried p) :
    t.carryWeights.counted p = (t.callPaths p).edgeWeight + t.carried f := by
  obtain ⟨-, hweights, htypes⟩ := h.ordered.carryWeights_spec
  rw [← hweights f p hp]
  exact if_neg (mt (htypes f p hp).mp hcarried)

/-- **What is pushed down** to a function is the number of the path that pushes it. -/
theorem carried_eq (hpushed : t.PushedDown r es f) :
    t.carried f = BitVec.ofNat 32 (t.pathNumber r es) := by
  have hzero : ∀ u es v, t.finalGraph.Walk u es v → (∀ p ∈ es, t.IsCarried p) →
      (es.map t.carryWeights.counted).sum = 0 := by
    intro u es v hwalk hcarried
    induction hwalk with
    | nil v => rfl
    | @cons u v e es he _ ih =>
      rw [List.map_cons, List.sum_cons, ih fun p hp => hcarried p (List.mem_cons_of_mem e hp),
        h.counted_of_isCarried he (hcarried e List.mem_cons_self), add_zero]
  have hsum := hpushed.walk.sum_potential h.ordered.counted_add_carried
  rwa [hzero r es f hpushed.walk hpushed.carried, Ordered.carried_eq_zero hpushed.first,
    h.sum_weights hpushed.walk, zero_add, add_zero] at hsum

end Flat

/-! ## Entries that share the code -/

/-- The code for the call `q` in `f` adds what a path through the call `p` should have. Where `p` has
no mark, its weight is pushed down, so the code must add nothing. -/
def Serves (t : InstrumentIRPass) (f : String) (q p : ℕ) : Prop :=
  if t.IsCarried p then ∀ r es, t.PushedDown r es f → t.pathNumber r (es ++ [q]) % 2 ^ 32 = 0
  else t.pathNumber f [q] % 2 ^ 32 = t.pathNumber f [p] % 2 ^ 32

/-- The entries of each instruction can share the code for the first with a mark, and nothing is
pushed down to a heap function. -/
def EntriesAgree (t : InstrumentIRPass) : Prop :=
  (∀ f, ∀ p ∈ t.finalCalleeMap.get f, ∀ q,
      t.firstMarked f (t.callPaths p).callInst = some q → t.Serves f q p) ∧
    ∀ f ∈ initialHeapFunctions, ∀ r es, t.PushedDown r es f → t.pathNumber r es % 2 ^ 32 = 0

/-- What the code before a call adds too much. -/
def surplus (t : InstrumentIRPass) (p : ℕ) : BitVec 32 :=
  (amountOf t.marks (t.callPaths p).callInst .track).setWidth 32 - t.carryWeights.counted p

theorem ofNat_eq_zero_iff {n : ℕ} : BitVec.ofNat 32 n = 0 ↔ n % 2 ^ 32 = 0 := by
  rw [← BitVec.toNat_inj, BitVec.toNat_ofNat]
  rfl

theorem ofNat_eq_iff {n k : ℕ} : BitVec.ofNat 32 n = BitVec.ofNat 32 k ↔ n % 2 ^ 32 = k % 2 ^ 32 := by
  rw [← BitVec.toNat_inj, BitVec.toNat_ofNat, BitVec.toNat_ofNat]

namespace Flat

variable (h : t.Flat)
include h

/-- **When the code before a call adds what it should**: when it is that of an entry that serves the
call. -/
theorem surplus_eq_zero_iff (hp : p ∈ t.finalCalleeMap.get f) :
    t.surplus p = 0 ↔
      ∀ q, t.firstMarked f (t.callPaths p).callInst = some q → t.Serves f q p := by
  unfold surplus
  rw [h.amountOf_track hp]
  cases hq : t.firstMarked f (t.callPaths p).callInst with
  | none =>
    have hcarried : t.IsCarried p := by
      by_contra hnot
      obtain ⟨q, hsome⟩ := exists_firstMarked hp hnot
      rw [hq] at hsome
      cases hsome
    rw [h.counted_of_isCarried hp hcarried]
    exact ⟨fun _ q hq => (nomatch hq), fun _ => by simp⟩
  | some q =>
    obtain ⟨hmem, -, hmarked⟩ := mem_of_firstMarked hq
    have hweight := (h.ordered.carryWeights_spec).2.1 f q hmem
    have hamount : (((some q).map fun q =>
        (t.carryWeights.callPaths q).edgeWeight.setWidth 64).getD 0).setWidth 32 =
          (t.callPaths q).edgeWeight + t.carried f := by
      rw [← hweight, Option.map_some, Option.getD_some, BitVec.setWidth_setWidth_of_le]
      · exact BitVec.setWidth_eq _
      · decide
    rw [hamount]
    have hserves : (∀ q', some q = some q' → t.Serves f q' p) ↔ t.Serves f q p :=
      ⟨fun hall => hall q rfl, fun hs q' hq' => Option.some.inj hq' ▸ hs⟩
    rw [hserves]
    unfold Serves
    by_cases hcarried : t.IsCarried p
    · rw [h.counted_of_isCarried hp hcarried, if_pos hcarried, sub_zero]
      -- what is pushed down, and the weight of `q`, are the number of one path
      have hnumber : ∀ r es, t.PushedDown r es f → (t.callPaths q).edgeWeight + t.carried f =
          BitVec.ofNat 32 (t.pathNumber r (es ++ [q])) := by
        intro r es hpushed
        rw [← h.sum_weights (hpushed.walk.concat hmem), List.map_append, List.sum_append,
          h.sum_weights hpushed.walk, ← h.carried_eq hpushed, List.map_singleton,
          List.sum_singleton, add_comm]
      constructor
      · intro hzero r es hpushed
        rw [← ofNat_eq_zero_iff, ← hnumber r es hpushed, hzero]
      · intro hall
        obtain ⟨r, es, hpushed⟩ := h.exists_pushedDown f
        rw [hnumber r es hpushed, ofNat_eq_zero_iff]
        exact hall r es hpushed
    · rw [h.counted_of_not_isCarried hp hcarried, if_neg hcarried, add_sub_add_right_eq_sub,
        sub_eq_zero, h.weights f q hmem, h.weights f p hp, ofNat_eq_iff]

end Flat

/-! ## Paths to heap functions -/

/-- **The track counts the calls taken.** Along every path of calls from a function without final
callers to a heap function, once the earlier calls of the active frames are over and undone, the
track has gained the sum of the weights of the calls taken, modulo `2 ^ 32`. -/
def TracksPaths (t : InstrumentIRPass) (inst : Site → CallInst) : Prop :=
  ∀ (stack : Word) (globals : Globals) (d : Descent) (f g : String) (es : List ℕ),
    t.finalCallerMap.get f = [] → g ∈ initialHeapFunctions → t.finalGraph.Walk f es g →
    d.sites = es.map (fun p => (t.callPaths p).callInst) → TrackSettled inst t.marks d →
    ((d.execute stack (t.doModulePass (original inst)) globals).counters .track -
        globals.counters .track).setWidth 32 = (es.map fun p => (t.callPaths p).edgeWeight).sum

theorem setWidth_sum (l : List Word) : l.sum.setWidth 32 = (l.map (BitVec.setWidth 32)).sum := by
  induction l with
  | nil => rfl
  | cons w l ih => rw [List.sum_cons, List.map_cons, List.sum_cons, ← ih, BitVec.setWidth_add _ _ (by decide)]

namespace Flat

variable {es : List ℕ} {d : Descent} (h : t.Flat)
include h

/-- What a path of calls adds to the track, and what it should add, differ by the surplus. -/
theorem track_eq_iff {globals : Globals} (hroot : t.finalCallerMap.get f = [])
    (hwalk : t.finalGraph.Walk f es g)
    (hsites : d.sites = es.map fun p => (t.callPaths p).callInst) (hd : TrackSettled inst t.marks d) :
    ((d.execute stack (t.doModulePass (original inst)) globals).counters .track -
        globals.counters .track).setWidth 32 = (es.map fun p => (t.callPaths p).edgeWeight).sum ↔
      (es.map t.surplus).sum = t.carried g := by
  have hgain : ((d.execute stack (t.doModulePass (original inst)) globals).counters .track -
      globals.counters .track).setWidth 32 =
        (es.map t.surplus).sum + (es.map t.carryWeights.counted).sum := by
    rw [(h.instrumented inst).descent_track h.marks_nodup hd, add_sub_cancel_left, hsites,
      List.map_map, setWidth_sum, List.map_map, ← List.sum_map_add]
    congr 1
    refine List.map_congr_left fun p _ => ?_
    exact (sub_add_cancel _ _).symm
  have hsum := hwalk.sum_potential h.ordered.counted_add_carried
  rw [h.ordered.carried_root hroot, add_zero] at hsum
  rw [hgain, ← hsum, add_comm]
  exact add_right_inj _

/-- Every function has calls that lead to it from one without final callers. -/
theorem exists_root (f : String) :
    ∃ r es, t.finalCallerMap.get r = [] ∧ t.finalGraph.Walk r es f := by
  have houtside : ∀ f ∉ t.topologicalOrder.reverse, t.finalGraph.out f = [] := fun f hf =>
    h.ordered.ordered f fun hmem => hf (List.mem_reverse.mpr hmem)
  refine h.ordered.sorted.induction_up
    (P := fun f => ∃ r es, t.finalCallerMap.get r = [] ∧ t.finalGraph.Walk r es f)
    (List.nodup_reverse.mpr h.ordered.orderNodup) houtside (fun f hcallers => ?_) f
  cases hlist : t.finalCallerMap.get f with
  | nil => exact ⟨f, [], hlist, .nil f⟩
  | cons p ps =>
    obtain ⟨rfl, hmem⟩ := h.callers f p (hlist ▸ List.mem_cons_self)
    obtain ⟨r, es, hr, hwalk⟩ := hcallers _ p hmem rfl
    exact ⟨r, es ++ [p], hr, hwalk.concat hmem⟩

/-- **From every function some calls lead to a heap function without a surplus**: in each function
take the first marked entry of an instruction, or any entry if none has a mark. -/
theorem exists_exact (hf : f ∈ t.topologicalOrder) : ∃ es g, g ∈ initialHeapFunctions ∧
    t.carried g = 0 ∧ t.finalGraph.Walk f es g ∧ (es.map t.surplus).sum = 0 := by
  refine h.ordered.sorted.induction_down (P := fun f => ∃ es g, g ∈ initialHeapFunctions ∧
    t.carried g = 0 ∧ t.finalGraph.Walk f es g ∧ (es.map t.surplus).sum = 0) (fun f hf hdown => ?_)
    (List.mem_reverse.mpr hf)
  by_cases hempty : t.finalCalleeMap.get f = []
  · exact ⟨[], f, h.ends f (List.mem_reverse.mp hf) hempty, Ordered.carried_sink hempty, .nil f, rfl⟩
  · have hexact : ∃ p ∈ t.finalCalleeMap.get f, t.surplus p = 0 := by
      by_cases hmarked : ∃ p ∈ t.finalCalleeMap.get f, ¬ t.IsCarried p
      · obtain ⟨p, hp, hcarried⟩ := hmarked
        obtain ⟨q, hq⟩ := exists_firstMarked hp hcarried
        obtain ⟨hmem, hinst, hqMarked⟩ := mem_of_firstMarked hq
        refine ⟨q, hmem, (h.surplus_eq_zero_iff hmem).mpr fun q' hq' => ?_⟩
        rw [hinst, hq] at hq'
        obtain rfl := Option.some.inj hq'
        unfold Serves
        rw [if_neg hqMarked]
      · obtain ⟨p, hp⟩ := List.exists_mem_of_ne_nil _ hempty
        refine ⟨p, hp, (h.surplus_eq_zero_iff hp).mpr fun q hq => ?_⟩
        obtain ⟨hmem, -, hqMarked⟩ := mem_of_firstMarked hq
        exact absurd ⟨q, hmem, hqMarked⟩ hmarked
    obtain ⟨p, hp, hzero⟩ := hexact
    obtain ⟨es, g, hheap, hcarried, hwalk, hsum⟩ := hdown p hp
    refine ⟨p :: es, g, hheap, hcarried, .cons hp hwalk, ?_⟩
    rw [List.map_cons, List.sum_cons, hzero, hsum, add_zero]

/-- **The track counts the calls taken exactly when the entries agree.** -/
theorem tracksPaths_iff (inst : Site → CallInst) : t.TracksPaths inst ↔ t.EntriesAgree := by
  have hedges : (∀ f, ∀ p ∈ t.finalGraph.out f, t.surplus p = 0) ↔
      ∀ f, ∀ p ∈ t.finalCalleeMap.get f, ∀ q,
        t.firstMarked f (t.callPaths p).callInst = some q → t.Serves f q p :=
    forall_congr' fun f => forall₂_congr fun p hp => h.surplus_eq_zero_iff hp
  have hpushed : (∀ g, g ∈ initialHeapFunctions → t.carried g = 0) ↔
      ∀ g ∈ initialHeapFunctions, ∀ r es, t.PushedDown r es g →
        t.pathNumber r es % 2 ^ 32 = 0 := by
    refine forall₂_congr fun g _ => ⟨fun hzero r es hes => ?_, fun hall => ?_⟩
    · rw [← ofNat_eq_zero_iff, ← h.carried_eq hes, hzero]
    · obtain ⟨r, es, hes⟩ := h.exists_pushedDown g
      rw [h.carried_eq hes, ofNat_eq_zero_iff]
      exact hall r es hes
  have hsums : (∀ f es g, t.finalCallerMap.get f = [] → g ∈ initialHeapFunctions →
      t.finalGraph.Walk f es g → (es.map t.surplus).sum = t.carried g) ↔ _ :=
    Walk.sums_eq_iff_edges h.exists_root fun f p hp => h.exists_exact (List.mem_reverse.mp
      (h.ordered.sorted.target_mem (List.mem_reverse.mpr (h.ordered.mem_order hp)) hp))
  unfold EntriesAgree
  rw [← hedges, ← hpushed, ← hsums]
  constructor
  · intro htrack f es g hroot hheap hwalk
    have hsettled : TrackSettled inst t.marks
        (.along (es.map fun p => (t.callPaths p).callInst)) := by
      intro before hbefore
      rw [Descent.eq_done_of_mem_befores hbefore]
      exact ⟨trivial, trivial⟩
    have hsites := Descent.along_sites (es.map fun p => (t.callPaths p).callInst)
    exact (h.track_eq_iff hroot hwalk hsites hsettled).mp
      (htrack 0 ⟨fun _ => 0, 0, fun _ => 0⟩ _ f g es hroot hheap hwalk hsites hsettled)
  · intro hall stack globals d f g es hroot hheap hwalk hsites hd
    exact (h.track_eq_iff hroot hwalk hsites hd).mpr (hall f es g hroot hheap hwalk)

end Flat

/-- Where no weight is pushed down to a function, only the empty path does. -/
theorem PushedDown.eq_nil {r : String} {es : List ℕ} (hpushed : t.PushedDown r es f)
    (hf : ∀ g, ∀ p ∈ t.finalCalleeMap.get g, (t.callPaths p).callee = f → ¬ t.IsCarried p) :
    r = f ∧ es = [] := by
  rcases hpushed.walk.eq_nil_or_target with rfl | ⟨g, p, hp, hmem, htarget⟩
  · cases hpushed.walk
    exact ⟨rfl, rfl⟩
  · exact absurd (hpushed.carried p hmem) (hf g p hp htarget)

/-- **Entries agree where each instruction has one**, and heap functions make no calls. -/
theorem entriesAgree_of_single (hsingle : ∀ f, ∀ p ∈ t.finalCalleeMap.get f,
      ∀ q ∈ t.finalCalleeMap.get f, (t.callPaths p).callInst = (t.callPaths q).callInst → p = q)
    (hheap : ∀ f ∈ initialHeapFunctions, t.finalCalleeMap.get f = []) : t.EntriesAgree := by
  constructor
  · intro f p hp q hq
    obtain ⟨hmem, hinst, hmarked⟩ := mem_of_firstMarked hq
    obtain rfl := hsingle f p hp q hmem hinst.symm
    unfold Serves
    rw [if_neg hmarked]
  · intro f hf r es hpushed
    obtain ⟨rfl, rfl⟩ := hpushed.eq_nil fun g p hp hcallee hcarried =>
      hcarried.2 (hcallee ▸ hheap f hf)
    rfl

/-- In every function to which nothing is pushed down, the entries agree. -/
def EntriesChecked (t : InstrumentIRPass) : Prop :=
  (∀ f ∈ t.topologicalOrder, ∀ p ∈ t.finalCalleeMap.get f,
      ∀ q ∈ t.firstMarked f (t.callPaths p).callInst,
        if t.IsCarried p then t.pathNumber f [q] % 2 ^ 32 = 0 ∧
          ∀ g ∈ t.topologicalOrder, ∀ p' ∈ t.finalCalleeMap.get g,
            (t.callPaths p').callee = f → ¬ t.IsCarried p'
        else t.pathNumber f [q] % 2 ^ 32 = t.pathNumber f [p] % 2 ^ 32) ∧
    ∀ f ∈ initialHeapFunctions, t.finalCalleeMap.get f = []

instance (t : InstrumentIRPass) : Decidable t.EntriesChecked := by
  unfold EntriesChecked
  infer_instance

theorem Flat.entriesAgree_of_checked (h : t.Flat) (hchecked : t.EntriesChecked) : t.EntriesAgree := by
  obtain ⟨hentries, hheap⟩ := hchecked
  refine ⟨fun f p hp q hq => ?_, fun f hf r es hpushed => ?_⟩
  · have hentry := hentries f (h.ordered.mem_order hp) p hp q hq
    unfold Serves
    split at hentry
    · rename_i hcarried
      rw [if_pos hcarried]
      intro r es hpushed
      obtain ⟨rfl, rfl⟩ := hpushed.eq_nil fun g p' hp' =>
        hentry.2 g (h.ordered.mem_order hp') p' hp'
      exact hentry.1
    · rename_i hcarried
      rwa [if_neg hcarried]
  · obtain ⟨rfl, rfl⟩ := hpushed.eq_nil fun g p hp hcallee hcarried =>
      hcarried.2 (hcallee ▸ hheap f hf)
    rfl

variable {callPaths : ℕ → CallPath} {functionMap : KeyMap String (List ℕ)}
  {kosaraju : List (String × String) → SCCResult}

/-- **The track is the sum of the weights.** In a call graph without cycles of several functions, the
track at every heap call has gained the weights of the calls taken exactly when the entries of each
instruction can share the code of the first with a mark; in particular when each instruction has one
entry in the final call graph, and heap functions make no calls. -/
theorem path_sums_tracked_iff (hwf : WellFormed callPaths functionMap)
    (hnew : ∀ p, (callPaths p).pathType = .default ∧ (callPaths p).callsHMF = false)
    (hsites : ∀ p ∈ (initial callPaths functionMap).paths,
      ∀ q ∈ (initial callPaths functionMap).paths,
        (callPaths p).callInst = (callPaths q).callInst → (callPaths p).caller = (callPaths q).caller)
    (inLoop : ℕ → Bool)
    (hr : (kosaraju (initial callPaths functionMap).doInitialization.markedEdges).Correct
      (initial callPaths functionMap).doInitialization.markedEdges)
    (hacyclic : ∀ f g, SameComponent
      (initial callPaths functionMap).doInitialization.markedEdges f g → f = g)
    (inst : Site → CallInst) :
    ∃ t, (initial callPaths functionMap).analyze inLoop kosaraju = .ok t ∧
      (t.TracksPaths inst ↔ t.EntriesAgree) ∧
      ((∀ f, ∀ p ∈ t.finalCalleeMap.get f, ∀ q ∈ t.finalCalleeMap.get f,
          (t.callPaths p).callInst = (t.callPaths q).callInst → p = q) →
        (∀ f ∈ initialHeapFunctions, t.finalCalleeMap.get f = []) → t.TracksPaths inst) := by
  obtain ⟨t, hok, hflat⟩ := flat_of_analyze hwf hnew hsites inLoop hr hacyclic
  exact ⟨t, hok, hflat.tracksPaths_iff inst, fun hsingle hheap =>
    (hflat.tracksPaths_iff inst).mpr (entriesAgree_of_single hsingle hheap)⟩

/-- An indirect call of `fresh` or `grow`; only `fresh` is also called directly. -/
def sharedEntry : InstrumentIRPass :=
  callGraph ["fresh", "grow", "main", "malloc"]
    [(0, "main", "fresh"), (0, "main", "grow"), (1, "main", "fresh"), (2, "fresh", "malloc"),
      (3, "grow", "malloc")]

/-- Its components. -/
def sharedEntryComponents : SCCResult where
  nodeSet := ["fresh", "grow", "main", "malloc"]
  sccMap f := if f = "main" then 0 else if f = "fresh" then 1 else if f = "grow" then 2 else 3

theorem sharedEntry_wellFormed : WellFormed sharedEntry.callPaths sharedEntry.functionMap :=
  callGraph_wellFormed (by decide +kernel) (by decide +kernel)

theorem sharedEntryComponents_correct :
    sharedEntryComponents.Correct sharedEntry.doInitialization.markedEdges :=
  SCCResult.correct_of_numbering (by decide +kernel) (by decide +kernel) (by decide +kernel)
    (by decide +kernel)

theorem sharedEntry_hypotheses : (∀ p, (sharedEntry.callPaths p).pathType = .default ∧
      (sharedEntry.callPaths p).callsHMF = false) ∧
    ∀ p ∈ sharedEntry.paths, ∀ q ∈ sharedEntry.paths,
      (sharedEntry.callPaths p).callInst = (sharedEntry.callPaths q).callInst →
        (sharedEntry.callPaths p).caller = (sharedEntry.callPaths q).caller :=
  ⟨fun _ => ⟨rfl, rfl⟩, by decide +kernel⟩

/-- The weight of the call of `grow` is pushed down, and the code before the indirect call adds the
weight of the call of `fresh`, which is `0`. -/
theorem path_sums_tracked_iff_sharedEntry :
    ∃ t, sharedEntry.analyze (fun i => i = 2) (fun _ => sharedEntryComponents) = .ok t ∧
      ([1, 4].map fun p => (t.callPaths p).edgeWeight).sum = 4 ∧
      t.TracksPaths fun _ => .call := by
  have hrun : (sharedEntry.analyze (fun i => i = 2) fun _ => sharedEntryComponents).toOption.map
      (fun t => (([1, 4].map fun p => (t.callPaths p).edgeWeight).sum, decide t.EntriesChecked)) =
        some (4, true) := by decide +kernel
  have hacyclic := sharedEntryComponents_correct.eq_of_sameComponent (by decide +kernel)
  obtain ⟨hnew, hsites⟩ := sharedEntry_hypotheses
  obtain ⟨t, hok, hiff, -⟩ := @path_sums_tracked_iff _ _ (fun _ => sharedEntryComponents)
    sharedEntry_wellFormed hnew hsites (fun i => i = 2) sharedEntryComponents_correct hacyclic
    fun _ => .call
  obtain ⟨t', hok', hflat⟩ := @flat_of_analyze _ _ (fun _ => sharedEntryComponents)
    sharedEntry_wellFormed hnew hsites (fun i => i = 2) sharedEntryComponents_correct hacyclic
  obtain rfl : t = t' := Except.ok.inj (hok.symm.trans hok')
  change sharedEntry.analyze _ _ = _ at hok
  rw [hok] at hrun
  simp only [Except.toOption, Option.map_some, Option.some.injEq, Prod.mk.injEq] at hrun
  obtain ⟨hsum, hchecked⟩ := hrun
  exact ⟨t, hok, hsum, hiff.mpr (hflat.entriesAgree_of_checked (of_decide_eq_true hchecked))⟩

/-- A loop with an indirect call of `fresh` or `grow`. -/
def indirectCall : InstrumentIRPass :=
  callGraph ["fresh", "grow", "main", "malloc"]
    [(0, "main", "fresh"), (0, "main", "grow"), (1, "fresh", "malloc"), (2, "grow", "malloc")]

/-- **The entries of an indirect call share one weight**: on the path through `grow` the weights add
up to `2`, and the track has gained nothing. -/
theorem indirect_call_not_tracked : ∃ t, indirectCall.analyze (fun i => i = 0)
      (fun _ => sharedEntryComponents) = .ok t ∧
    t.finalGraph.Walk "main" [1, 3] "malloc" ∧ t.finalCallerMap.get "main" = [] ∧
    ¬ t.TracksPaths fun _ => .call := by
  have hrun : (indirectCall.analyze (fun i => i = 0) fun _ => sharedEntryComponents).toOption.map
      (fun t => (decide (t.finalCallerMap.get "main" = [] ∧ 1 ∈ t.finalCalleeMap.get "main" ∧
          (t.callPaths 1).callee = "grow" ∧ 3 ∈ t.finalCalleeMap.get "grow" ∧
          (t.callPaths 3).callee = "malloc" ∧ [1, 3].map (fun p => (t.callPaths p).callInst) = [0, 2]),
        ([1, 3].map fun p => (t.callPaths p).edgeWeight).sum,
        ((Descent.along [0, 2]).execute 0 (t.doModulePass (original fun _ => .call))
          ⟨fun _ => 0, 0, fun _ => 0⟩).counters .track)) = some (true, 2, 0) := by decide +kernel
  cases hok : indirectCall.analyze (fun i => i = 0) fun _ => sharedEntryComponents with
  | error e =>
    rw [hok] at hrun
    cases hrun
  | ok t =>
    rw [hok] at hrun
    simp only [Except.toOption, Option.map_some, Option.some.injEq, Prod.mk.injEq] at hrun
    obtain ⟨hgraph, hsum, htrack⟩ := hrun
    obtain ⟨hroot, hfirst, hgrow, hsecond, hmalloc, hsites⟩ := of_decide_eq_true hgraph
    have hwalk : t.finalGraph.Walk "main" [1, 3] "malloc" := by
      refine .cons hfirst ?_
      rw [show t.finalGraph.target 1 = "grow" from hgrow]
      refine .cons hsecond ?_
      rw [show t.finalGraph.target 3 = "malloc" from hmalloc]
      exact .nil _
    refine ⟨t, rfl, hwalk, hroot, fun hall => ?_⟩
    have hgain := hall 0 ⟨fun _ => 0, 0, fun _ => 0⟩ (.along [0, 2]) "main" "malloc" [1, 3] hroot
      (by decide) hwalk (hsites ▸ Descent.along_sites _) fun before hbefore => by
        rw [Descent.eq_done_of_mem_befores hbefore]
        exact ⟨trivial, trivial⟩
    rw [htrack, hsum] at hgain
    exact absurd hgain (by decide)

end InstrumentIRPass

end Semalloc
