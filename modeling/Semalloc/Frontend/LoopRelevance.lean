import Semalloc.Frontend.FinalCallGraph
import Semalloc.Frontend.Marking

/-!
# Functions that are relevant to loops

From every loop function one search goes up to its callers and one down to its callees. All of them
share one set of visited functions: a search in one direction stops at a function that a search in
the other direction has visited. Where no function lies between two loop functions, no search is cut
short.

## Main definitions

* `MarkedCalls`: a call between marked functions
* `Between`: a function below one loop function and above another
* `LoopRelevant`: the functions that should be found

## Main results

* `searchFrom_fold`: what all the searches leave visited
* `loop_relevance_exact`: without functions between, exactly the relevant functions are found
-/

set_option autoImplicit false

namespace Semalloc

namespace InstrumentIRPass

open Relation

variable {s t : InstrumentIRPass} {r : SCCResult} {f g l : String} {p : ℕ}

/-- A call leads from a marked function to a marked function. -/
def CallsMarked (s : InstrumentIRPass) (f g : String) : Prop :=
  s.Calls f g ∧ f ∈ s.functionMarkSet ∧ g ∈ s.functionMarkSet

/-- Marked calls lead from the function to one of `loops`. -/
def Above (s : InstrumentIRPass) (loops : List String) (f : String) : Prop :=
  ∃ l ∈ loops, TransGen s.CallsMarked f l

/-- Marked calls lead from one of `loops` to the function. -/
def Below (s : InstrumentIRPass) (loops : List String) (f : String) : Prop :=
  ∃ l ∈ loops, TransGen s.CallsMarked l f

/-- The function is no loop function, but lies below one loop function and above another. -/
def Between (s : InstrumentIRPass) (loops : List String) (f : String) : Prop :=
  f ∉ loops ∧ s.Above loops f ∧ s.Below loops f

/-- The marked functions that are loop functions, above one or below one. -/
def LoopRelevant (s : InstrumentIRPass) (loops : List String) (f : String) : Prop :=
  f ∈ s.functionMarkSet ∧ (f ∈ loops ∨ s.Above loops f ∨ s.Below loops f)

/-- The call graph that the searches work on: `t` has the calls of `s`, the callers of marked
functions are marked, and so are the loop functions. -/
structure SearchGraph (s t : InstrumentIRPass) : Prop where
  callers : ∀ f g, f ∈ t.callersOf g ↔ s.Calls f g
  callees : ∀ f g, g ∈ t.calleesOf f ↔ s.Calls f g
  callersOutside : ∀ f ∉ t.functionMap.keys, t.callersOf f = []
  calleesOutside : ∀ f ∉ t.flippedFunctionMap.keys, t.calleesOf f = []
  keysNodup : t.functionMap.keys.Nodup
  flippedKeysNodup : t.flippedFunctionMap.keys.Nodup
  marks : t.functionMarkSet = s.functionMarkSet
  marked_of_calls : ∀ f g, s.Calls f g → g ∈ s.functionMarkSet → f ∈ s.functionMarkSet
  loops : ∀ f ∈ t.relevantLoopFunctionSet, f ∈ s.functionMarkSet

/-- What the searches from the loop functions `done` leave. A visited function that is no loop
function was expanded in one direction, and lies on that side of a loop function. -/
structure SearchedFrom (s t : InstrumentIRPass) (done : List String) (r : Search String) :
    Prop where
  taken : ∀ l ∈ done, l ∈ r.visited
  takenCallers : ∀ l ∈ done, ∀ f, s.CallsMarked f l → f ∈ r.visited
  takenCallees : ∀ l ∈ done, ∀ f, s.CallsMarked l f → f ∈ r.visited
  expanded : ∀ f ∈ r.visited, f ∈ s.functionMarkSet → f ∉ t.relevantLoopFunctionSet →
    (s.Above t.relevantLoopFunctionSet f ∧ ∀ g, s.CallsMarked g f → g ∈ r.visited) ∨
      (s.Below t.relevantLoopFunctionSet f ∧ ∀ g, s.CallsMarked f g → g ∈ r.visited)
  found : ∀ f, f ∈ r.found ↔ f ∈ t.relevantLoopFunctionSet ∨
    f ∈ r.visited ∧ f ∈ s.functionMarkSet

/-- Calls that lead to a marked function lead through marked functions. -/
theorem SearchGraph.callsMarked_of_calls (h : SearchGraph s t) (hg : g ∈ s.functionMarkSet)
    (hreach : ReflTransGen s.Calls f g) : ReflTransGen s.CallsMarked f g := by
  induction hreach using ReflTransGen.head_induction_on with
  | refl => exact .refl
  | head hcall hrest ih =>
    rename_i a b
    have hb : b ∈ s.functionMarkSet := by
      rcases ih.cases_head with rfl | ⟨c, hbc, -⟩
      · exact hg
      · exact hbc.2.1
    exact .head ⟨hcall, h.marked_of_calls a b hcall hb, hb⟩ ih

/-- **The searches from one loop function.** -/
theorem SearchedFrom.take (h : SearchGraph s t) {done : List String} {x : Search String}
    (hx : SearchedFrom s t done x) (hl : l ∈ t.relevantLoopFunctionSet) :
    SearchedFrom s t (done ++ [l]) (t.searchFrom x l) := by
  -- the search among the callers
  let start : Search String := { x with
    visited := insertKey l x.visited
    queue := (t.callersOf l).filter fun g => decide (g ∈ t.functionMarkSet) }
  let up := Search.finish t.functionMap.keys t.callersOf (fun g => decide (g ∈ t.functionMarkSet))
    start
  have hup : Search.Running t.callersOf (fun g => decide (g ∈ t.functionMarkSet)) start up :=
    Search.running_finish
  have hupQueue : up.queue = [] := Search.finish_queue h.callersOutside h.keysNodup
  -- the search among the callees
  let start' : Search String := { up with
    queue := up.queue ++ (t.calleesOf l).filter fun g => decide (g ∈ t.functionMarkSet) }
  let down := Search.finish t.flippedFunctionMap.keys t.calleesOf
    (fun g => decide (g ∈ t.functionMarkSet)) start'
  have hdown : Search.Running t.calleesOf (fun g => decide (g ∈ t.functionMarkSet)) start' down :=
    Search.running_finish
  have hdownQueue : down.queue = [] := Search.finish_queue h.calleesOutside h.flippedKeysNodup
  have hstart : ∀ f, f ∈ start.visited ↔ f = l ∨ f ∈ x.visited := fun f => mem_insertKey
  have hkeep : ∀ f ∈ start.visited, f ∈ down.visited := fun f hf => hdown.kept f (hup.kept f hf)
  have hlMarked : l ∈ s.functionMarkSet := h.loops l hl
  -- what the search among the callers visits is above a loop function
  have habove : ∀ f ∈ up.visited, f ∉ start.visited → s.Above t.relevantLoopFunctionSet f := by
    intro f hf hnew
    obtain ⟨q, hq, -, hreach⟩ := hup.visitedReached f hf hnew
    obtain ⟨hq, hqMarked⟩ := List.mem_filter.mp hq
    have hqMarked : q ∈ s.functionMarkSet := h.marks ▸ of_decide_eq_true hqMarked
    have hcall : s.CallsMarked q l := ⟨(h.callers q l).mp hq, hqMarked, hlMarked⟩
    have hback : ReflTransGen s.Calls f q := by
      rw [← reflTransGen_swap]
      refine ReflTransGen.mono ?_ q f hreach
      exact fun a b hab => (h.callers b a).mp hab.1
    exact ⟨l, hl, TransGen.tail' (h.callsMarked_of_calls hqMarked hback) hcall⟩
  -- what the search among the callees visits is below one, when it is marked
  have hbelow : ∀ f ∈ down.visited, f ∉ up.visited → f ∈ s.functionMarkSet →
      s.Below t.relevantLoopFunctionSet f := by
    intro f hf hnew hfMarked
    obtain ⟨q, hq, -, hreach⟩ := hdown.visitedReached f hf hnew
    have hq' : q ∈ (t.calleesOf l).filter fun g => decide (g ∈ t.functionMarkSet) := by
      have hmem : q ∈ up.queue ++ (t.calleesOf l).filter fun g => decide (g ∈ t.functionMarkSet) := hq
      rwa [hupQueue, List.nil_append] at hmem
    obtain ⟨hq, hqMarked⟩ := List.mem_filter.mp hq'
    have hcall : s.CallsMarked l q :=
      ⟨(h.callees l q).mp hq, hlMarked, h.marks ▸ of_decide_eq_true hqMarked⟩
    have hforth : ReflTransGen s.Calls q f := by
      refine ReflTransGen.mono ?_ q f hreach
      exact fun a b hab => (h.callees a b).mp hab.1
    exact ⟨l, hl, TransGen.head' hcall (h.callsMarked_of_calls hfMarked hforth)⟩
  refine ⟨?_, ?_, ?_, ?_, ?_⟩
  · intro a ha
    rcases List.mem_append.mp ha with ha | ha
    · exact hkeep a ((hstart a).mpr (.inr (hx.taken a ha)))
    · exact hkeep a ((hstart a).mpr (.inl (List.mem_singleton.mp ha)))
  · intro a ha f hcall
    rcases List.mem_append.mp ha with ha | ha
    · exact hkeep f ((hstart f).mpr (.inr (hx.takenCallers a ha f hcall)))
    · obtain rfl := List.mem_singleton.mp ha
      refine hdown.kept f ?_
      have hqueued : f ∈ start.queue :=
        List.mem_filter.mpr ⟨(h.callers f a).mpr hcall.1, decide_eq_true (h.marks ▸ hcall.2.1)⟩
      refine (hup.queued f hqueued).resolve_right ?_
      rw [hupQueue]
      exact List.not_mem_nil
  · intro a ha f hcall
    rcases List.mem_append.mp ha with ha | ha
    · exact hkeep f ((hstart f).mpr (.inr (hx.takenCallees a ha f hcall)))
    · obtain rfl := List.mem_singleton.mp ha
      have hqueued : f ∈ start'.queue := List.mem_append_right _
        (List.mem_filter.mpr ⟨(h.callees a f).mpr hcall.1, decide_eq_true (h.marks ▸ hcall.2.2)⟩)
      refine (hdown.queued f hqueued).resolve_right ?_
      rw [hdownQueue]
      exact List.not_mem_nil
  · intro f hf hfMarked hfLoop
    have hfl : f ≠ l := by
      rintro rfl
      exact hfLoop hl
    by_cases hfUp : f ∈ up.visited
    · by_cases hfStart : f ∈ start.visited
      · -- visited before: its callers or callees still are
        have hfx : f ∈ x.visited := ((hstart f).mp hfStart).resolve_left hfl
        rcases hx.expanded f hfx hfMarked hfLoop with ⟨hside, hall⟩ | ⟨hside, hall⟩
        · exact .inl ⟨hside, fun g hg => hkeep g ((hstart g).mpr (.inr (hall g hg)))⟩
        · exact .inr ⟨hside, fun g hg => hkeep g ((hstart g).mpr (.inr (hall g hg)))⟩
      · refine .inl ⟨habove f hfUp hfStart, fun g hg => hdown.kept g ?_⟩
        refine (hup.closed f hfUp hfStart g ((h.callers g f).mpr hg.1)).resolve_right ?_
        rw [hupQueue]
        exact List.not_mem_nil
    · refine .inr ⟨hbelow f hf hfUp hfMarked, fun g hg => ?_⟩
      refine (hdown.closed f hf hfUp g ((h.callees f g).mpr hg.1)).resolve_right ?_
      rw [hdownQueue]
      exact List.not_mem_nil
  · intro f
    change f ∈ down.found ↔ _ ∨ f ∈ down.visited ∧ _
    have hfound : f ∈ up.found ↔ f ∈ x.found ∨ f ∈ up.visited ∧ f ∉ start.visited ∧
        decide (f ∈ t.functionMarkSet) = true := hup.found f
    rw [hdown.found f]
    change f ∈ up.found ∨ f ∈ down.visited ∧ f ∉ up.visited ∧
      decide (f ∈ t.functionMarkSet) = true ↔ _
    rw [hfound, hx.found f, decide_eq_true_eq, h.marks, hstart]
    constructor
    · rintro (((hf | ⟨hf, hmark⟩) | ⟨hf, -, hmark⟩) | ⟨hf, -, hmark⟩)
      · exact .inl hf
      · exact .inr ⟨hkeep f ((hstart f).mpr (.inr hf)), hmark⟩
      · exact .inr ⟨hdown.kept f hf, hmark⟩
      · exact .inr ⟨hf, hmark⟩
    · rintro (hf | ⟨hf, hmark⟩)
      · exact .inl (.inl (.inl hf))
      · by_cases hfUp : f ∈ up.visited
        · by_cases hfStart : f = l ∨ f ∈ x.visited
          · rcases hfStart with rfl | hfx
            · exact .inl (.inl (.inl hl))
            · exact .inl (.inl (.inr ⟨hfx, hmark⟩))
          · exact .inl (.inr ⟨hfUp, hfStart, hmark⟩)
        · exact .inr ⟨hf, hfUp, hmark⟩

theorem SearchedFrom.fold (h : SearchGraph s t) {done rest : List String} {x : Search String}
    (hx : SearchedFrom s t done x) (hrest : ∀ l ∈ rest, l ∈ t.relevantLoopFunctionSet) :
    SearchedFrom s t (done ++ rest) (rest.foldl t.searchFrom x) := by
  induction rest generalizing done x with
  | nil =>
    rw [List.append_nil]
    exact hx
  | cons l rest ih =>
    have hnext := ih (hx.take h (hrest l List.mem_cons_self)) fun a ha =>
      hrest a (List.mem_cons_of_mem l ha)
    rwa [List.append_assoc] at hnext

/-- What the searches find is relevant. -/
theorem SearchedFrom.loopRelevant (h : SearchGraph s t) {x : Search String}
    (hx : SearchedFrom s t t.relevantLoopFunctionSet x) (hf : f ∈ x.found) :
    s.LoopRelevant t.relevantLoopFunctionSet f := by
  rcases (hx.found f).mp hf with hf | ⟨hf, hmark⟩
  · exact ⟨h.loops f hf, .inl hf⟩
  · refine ⟨hmark, ?_⟩
    by_cases hloop : f ∈ t.relevantLoopFunctionSet
    · exact .inl hloop
    · rcases hx.expanded f hf hmark hloop with ⟨habove, -⟩ | ⟨hbelow, -⟩
      · exact .inr (.inl habove)
      · exact .inr (.inr hbelow)

/-- **When no function lies between** two loop functions, the searches find all that is relevant. -/
theorem SearchedFrom.mem_found {x : Search String}
    (hx : SearchedFrom s t t.relevantLoopFunctionSet x)
    (hbetween : ∀ g ∈ s.functionMarkSet, ¬ s.Between t.relevantLoopFunctionSet g)
    (hf : s.LoopRelevant t.relevantLoopFunctionSet f) : f ∈ x.found := by
  -- walk from a loop function; what is visited was expanded in this direction
  have hup : ∀ l ∈ t.relevantLoopFunctionSet, ∀ g, TransGen s.CallsMarked g l → g ∈ x.visited := by
    intro l hl g hreach
    induction hreach using TransGen.head_induction_on with
    | single hcall => exact hx.takenCallers l hl _ hcall
    | head hcall hrest ih =>
      rename_i a b
      by_cases hb : b ∈ t.relevantLoopFunctionSet
      · exact hx.takenCallers b hb a hcall
      · rcases hx.expanded b ih hcall.2.2 hb with ⟨-, hall⟩ | ⟨hbelow, -⟩
        · exact hall a hcall
        · exact absurd ⟨hb, ⟨l, hl, hrest⟩, hbelow⟩ (hbetween b hcall.2.2)
  have hdown : ∀ l ∈ t.relevantLoopFunctionSet, ∀ g, TransGen s.CallsMarked l g → g ∈ x.visited := by
    intro l hl g hreach
    induction hreach with
    | single hcall => exact hx.takenCallees l hl _ hcall
    | tail hrest hcall ih =>
      rename_i b c
      by_cases hb : b ∈ t.relevantLoopFunctionSet
      · exact hx.takenCallees b hb c hcall
      · rcases hx.expanded b ih hcall.2.1 hb with ⟨habove, -⟩ | ⟨-, hall⟩
        · exact absurd ⟨hb, habove, ⟨l, hl, hrest⟩⟩ (hbetween b hcall.2.1)
        · exact hall c hcall
  rw [hx.found]
  obtain ⟨hmark, hf | ⟨l, hl, hreach⟩ | ⟨l, hl, hreach⟩⟩ := hf
  · exact .inl hf
  · exact .inr ⟨hup l hl f hreach, hmark⟩
  · exact .inr ⟨hdown l hl f hreach, hmark⟩

/-! ## What is met -/

/-- The functions above `l` that calls join to `l` without a function of `avoided`. -/
def MetAbove (s : InstrumentIRPass) (avoided : String → Prop) (l f : String) : Prop :=
  ∃ g, s.CallsMarked g l ∧ ¬ avoided g ∧
    ReflTransGen (fun a b => s.Calls a b ∧ ¬ avoided a) f g

/-- The functions below `l` that calls join to `l` without a function of `avoided`. -/
def MetBelow (s : InstrumentIRPass) (avoided : String → Prop) (l f : String) : Prop :=
  ∃ g, s.CallsMarked l g ∧ ¬ avoided g ∧
    ReflTransGen (fun a b => s.Calls a b ∧ ¬ avoided b) g f

/-- The functions met once `l` is taken: first upwards, then downwards, without the functions met
before. -/
def meet (s : InstrumentIRPass) (met : String → Prop) (l : String) : String → Prop :=
  let met := fun f => f = l ∨ met f
  let met := fun f => met f ∨ s.MetAbove met l f
  fun f => met f ∨ s.MetBelow met l f

/-- The functions met from the loop functions, taken in order. -/
def Met (s : InstrumentIRPass) (loops : List String) : String → Prop :=
  loops.foldl s.meet fun _ => False

/-- **The searches visit what is met.** -/
theorem visited_iff_meet (h : SearchGraph s t) {x : Search String} {met : String → Prop}
    (hx : ∀ f, f ∈ x.visited ↔ met f) (hl : l ∈ s.functionMarkSet) :
    f ∈ (t.searchFrom x l).visited ↔ s.meet met l f := by
  let start : Search String := { x with
    visited := insertKey l x.visited
    queue := (t.callersOf l).filter fun g => decide (g ∈ t.functionMarkSet) }
  let up := Search.finish t.functionMap.keys t.callersOf (fun g => decide (g ∈ t.functionMarkSet))
    start
  have hupQueue : up.queue = [] := Search.finish_queue h.callersOutside h.keysNodup
  let start' : Search String := { up with
    queue := up.queue ++ (t.calleesOf l).filter fun g => decide (g ∈ t.functionMarkSet) }
  have hstart : ∀ g, g ∈ start.visited ↔ g = l ∨ met g := by
    intro g
    rw [← hx]
    exact mem_insertKey
  have hup : ∀ g, g ∈ up.visited ↔ (g = l ∨ met g) ∨ s.MetAbove (fun g => g = l ∨ met g) l g := by
    intro g
    rw [Search.mem_finish_visited h.callersOutside h.keysNodup, hstart]
    refine or_congr_right ?_
    unfold MetAbove Search.Reaches
    have hrel : (fun a b => b ∈ t.callersOf a ∧ b ∉ start.visited) =
        Function.swap fun a b => s.Calls a b ∧ ¬ (a = l ∨ met a) := by
      funext a b
      exact propext (and_congr (h.callers b a) (not_congr (hstart b)))
    rw [hrel]
    refine exists_congr fun q => ?_
    rw [reflTransGen_swap, hstart]
    constructor
    · rintro ⟨hq, hnew, hreach⟩
      obtain ⟨hq, hqMarked⟩ := List.mem_filter.mp hq
      exact ⟨⟨(h.callers q l).mp hq, h.marks ▸ of_decide_eq_true hqMarked, hl⟩, hnew, hreach⟩
    · rintro ⟨hcall, hnew, hreach⟩
      exact ⟨List.mem_filter.mpr ⟨(h.callers q l).mpr hcall.1,
        decide_eq_true (h.marks ▸ hcall.2.1)⟩, hnew, hreach⟩
  change f ∈ (Search.finish t.flippedFunctionMap.keys t.calleesOf
    (fun g => decide (g ∈ t.functionMarkSet)) start').visited ↔ _
  rw [Search.mem_finish_visited h.calleesOutside h.flippedKeysNodup]
  change f ∈ up.visited ∨ _ ↔ _
  rw [hup]
  refine or_congr_right ?_
  unfold MetBelow Search.Reaches
  have hrel : (fun a b => b ∈ t.calleesOf a ∧ b ∉ start'.visited) =
      fun a b => s.Calls a b ∧
        ¬ ((b = l ∨ met b) ∨ s.MetAbove (fun g => g = l ∨ met g) l b) := by
    funext a b
    exact propext (and_congr (h.callees a b) (not_congr (hup b)))
  rw [hrel]
  refine exists_congr fun q => ?_
  have hqueue : q ∈ start'.queue ↔ s.CallsMarked l q := by
    change q ∈ up.queue ++ (t.calleesOf l).filter (fun g => decide (g ∈ t.functionMarkSet)) ↔ _
    rw [hupQueue, List.nil_append, List.mem_filter, decide_eq_true_eq, h.callees, h.marks]
    exact ⟨fun hq => ⟨hq.1, hl, hq.2⟩, fun hq => ⟨hq.1, hq.2.2⟩⟩
  rw [hqueue]
  exact and_congr_right fun _ => and_congr_left fun _ => not_congr (hup q)

theorem visited_iff_met (h : SearchGraph s t) {loops : List String}
    (hloops : ∀ l ∈ loops, l ∈ s.functionMarkSet) {x : Search String} {met : String → Prop}
    (hx : ∀ f, f ∈ x.visited ↔ met f) :
    ∀ f, f ∈ (loops.foldl t.searchFrom x).visited ↔ loops.foldl s.meet met f := by
  induction loops generalizing x met with
  | nil => exact hx
  | cons l loops ih =>
    refine ih (fun a ha => hloops a (List.mem_cons_of_mem l ha)) fun f => ?_
    exact visited_iff_meet h hx (hloops l List.mem_cons_self)

/-! ## The step -/

/-- Where every component has one function, none is in a cycle. -/
theorem not_inCycle {edges : List (String × String)} (hr : r.Correct edges)
    (hacyclic : ∀ f g, SameComponent edges f g → f = g) (f : String) : ¬ r.InCycle f := by
  rintro ⟨hf, g, hg, hne, hcomp⟩
  exact hne (hacyclic g f ((hr.component g hg f hf).mp hcomp))

theorem Contracted.keys_eq_nil (h : Contracted r s t) (hcycles : ∀ f, ¬ r.InCycle f) :
    t.flippedIntraFunctionMap.keys = [] := by
  rw [List.eq_nil_iff_forall_not_mem]
  exact fun f hf => hcycles f ((h.named.functions f).mp hf)

/-- Without cycles only marks of loops are new. -/
theorem Contracted.callPaths_eq (h : Contracted r s t) (hcycles : ∀ f, ¬ r.InCycle f)
    (hp : p ∈ s.paths) : ∃ pathType,
      (pathType = (s.callPaths p).pathType ∨ pathType = .markSimpleLoop) ∧
        t.callPaths p = { s.callPaths p with pathType := pathType } := by
  obtain ⟨pathType, htype, heq⟩ := h.callPaths p hp
  refine ⟨pathType, htype, ?_⟩
  rw [heq]
  unfold contractedPath
  simp [h.keys_eq_nil hcycles]

theorem Contracted.ends_eq (h : Contracted r s t) (hcycles : ∀ f, ¬ r.InCycle f) (hp : p ∈ s.paths) :
    (t.callPaths p).caller = (s.callPaths p).caller ∧
      (t.callPaths p).callee = (s.callPaths p).callee := by
  obtain ⟨pathType, -, heq⟩ := h.callPaths_eq hcycles hp
  rw [heq]
  exact ⟨rfl, rfl⟩

/-- A call graph without cycles of several functions is searched as it is. -/
theorem Contracted.searchGraph (h : Contracted r s t)
    (hmarked : ∀ f g, s.Calls f g → g ∈ s.functionMarkSet → f ∈ s.functionMarkSet)
    (hcycles : ∀ f, ¬ r.InCycle f) : SearchGraph s t := by
  have hkeys : ∀ f, f ∉ t.flippedIntraFunctionMap.keys := fun f =>
    h.keys_eq_nil hcycles ▸ List.not_mem_nil
  have hnode : ∀ f, t.node f = f := fun f => node_of_not_mem (hkeys f)
  have hends := fun p hp => h.ends_eq (p := p) hcycles hp
  refine ⟨?_, ?_, ?_, ?_, h.keysNodup, h.flippedKeysNodup, h.marks, hmarked, ?_⟩
  · intro f g
    unfold callersOf Calls
    rw [List.mem_map]
    constructor
    · rintro ⟨p, hp, rfl⟩
      obtain ⟨hpath, rfl⟩ := (h.mem_functionMap p g).mp hp
      exact ⟨p, hpath, (hends p hpath).1.symm, (hnode _).symm⟩
    · rintro ⟨p, hp, rfl, rfl⟩
      exact ⟨p, (h.mem_functionMap p _).mpr ⟨hp, hnode _⟩, (hends p hp).1⟩
  · intro f g
    unfold calleesOf Calls
    rw [List.mem_map]
    constructor
    · rintro ⟨p, hp, rfl⟩
      obtain ⟨hpath, rfl⟩ := (h.mem_flipped p f).mp hp
      exact ⟨p, hpath, (hnode _).symm, (hends p hpath).2.symm⟩
    · rintro ⟨p, hp, rfl, rfl⟩
      exact ⟨p, (h.mem_flipped p _).mpr ⟨hp, hnode _⟩, (hends p hp).2⟩
  · intro f hf
    unfold callersOf
    rw [h.outside f hf]
    rfl
  · intro f hf
    unfold calleesOf
    rw [h.flippedOutside f hf]
    rfl
  · intro f hf
    rcases h.loops f hf with hf | hf
    · exact hf
    · obtain ⟨x, hx, -⟩ := (h.named.names f).mp hf
      exact absurd hx (hkeys x)

/-- Without cycles the relevant functions are what the searches find. -/
theorem mem_relevantAllFunctionSet (hkeys : t.flippedIntraFunctionMap.keys = [])
    (hall : t.relevantAllFunctionSet = []) :
    f ∈ t.markLoopRelevantFunctions.relevantAllFunctionSet ↔
      f ∈ (t.relevantLoopFunctionSet.foldl t.searchFrom
        { queue := [], visited := [], found := t.relevantLoopFunctionSet }).found := by
  unfold markLoopRelevantFunctions
  dsimp only
  rw [hkeys, hall]
  simp

/-- All the searches: what they leave, and what they visit. -/
theorem SearchGraph.searched (h : SearchGraph s t) :
    SearchedFrom s t t.relevantLoopFunctionSet (t.relevantLoopFunctionSet.foldl t.searchFrom
        { queue := [], visited := [], found := t.relevantLoopFunctionSet }) ∧
      ∀ f, f ∈ (t.relevantLoopFunctionSet.foldl t.searchFrom
        { queue := [], visited := [], found := t.relevantLoopFunctionSet }).visited ↔
          s.Met t.relevantLoopFunctionSet f := by
  have hstart : SearchedFrom s t []
      { queue := [], visited := [], found := t.relevantLoopFunctionSet } :=
    ⟨by simp, by simp, by simp, by simp, by simp⟩
  have hend := @SearchedFrom.fold s t h [] t.relevantLoopFunctionSet _ hstart fun _ hl => hl
  have hnone : ∀ g, g ∈ (⟨[], [], t.relevantLoopFunctionSet⟩ : Search String).visited ↔ False := by
    simp
  exact ⟨hend, visited_iff_met h h.loops hnone⟩

/-- **The relevant functions** of a call graph without cycles: the marked functions that are met. -/
theorem SearchGraph.mem_relevant (h : SearchGraph s t)
    (hkeys : t.flippedIntraFunctionMap.keys = []) (hall : t.relevantAllFunctionSet = []) :
    f ∈ t.markLoopRelevantFunctions.relevantAllFunctionSet ↔
      s.Met t.relevantLoopFunctionSet f ∧ f ∈ s.functionMarkSet := by
  obtain ⟨hend, hmet⟩ := h.searched
  rw [mem_relevantAllFunctionSet hkeys hall, hend.found, hmet]
  constructor
  · rintro (hf | hf)
    · exact ⟨(hmet f).mp (hend.taken f hf), h.loops f hf⟩
    · exact hf
  · exact Or.inr

variable {callPaths : ℕ → CallPath} {functionMap : KeyMap String (List ℕ)}
  {kosaraju : List (String × String) → SCCResult}

/-- Marking the heap calls leaves the calls as they are. -/
theorem doInitialization_calls (callPaths : ℕ → CallPath)
    (functionMap : KeyMap String (List ℕ)) :
    (initial callPaths functionMap).doInitialization.Calls = (initial callPaths functionMap).Calls := by
  have hkept := doInitialization_callPaths (initial callPaths functionMap)
  funext f g
  unfold Calls paths
  simp only [(hkept _).2.1, (hkept _).2.2.1, (hkept 0).2.2.2.2]

/-- The callers of a marked function are marked. -/
theorem marked_of_calls (hwf : WellFormed callPaths functionMap)
    (hnew : ∀ p, (callPaths p).callsHMF = false) :
    ∀ f g, (initial callPaths functionMap).doInitialization.Calls f g →
      g ∈ (initial callPaths functionMap).doInitialization.functionMarkSet →
      f ∈ (initial callPaths functionMap).doInitialization.functionMarkSet := by
  intro f g hcall hg
  rw [doInitialization_calls] at hcall
  rw [mem_functionMarkSet hwf hnew] at hg ⊢
  left
  rcases hg with ⟨x, hreach, hx⟩ | ⟨x, hx⟩
  · exact ⟨x, .head hcall hreach, hx⟩
  · -- a recorded heap function, so its caller calls a heap function
    have hheap := (mem_heapCallees.mp hx.mem_heapCallees).2
    exact ⟨f, .refl, List.ne_nil_of_mem (mem_heapCallees.mpr ⟨hcall, hheap⟩)⟩

/-- **Relevance to loops.** In a call graph without cycles of several functions, the relevant
functions are exactly those that are loop functions, above one or below one when each of these is
met, and so in particular when no function lies between loop functions. -/
theorem loop_relevance_exact (hwf : WellFormed callPaths functionMap)
    (hnew : ∀ p, (callPaths p).callsHMF = false) (inLoop : ℕ → Bool)
    (hr : (kosaraju (initial callPaths functionMap).doInitialization.markedEdges).Correct
      (initial callPaths functionMap).doInitialization.markedEdges)
    (hacyclic : ∀ f g, SameComponent
      (initial callPaths functionMap).doInitialization.markedEdges f g → f = g) :
    let s := (initial callPaths functionMap).doInitialization
    let t := s.instrIsInaLoop inLoop kosaraju
    let loops := t.relevantLoopFunctionSet
    ((∀ f, f ∈ t.markLoopRelevantFunctions.relevantAllFunctionSet ↔ s.LoopRelevant loops f) ↔
        ∀ f, s.LoopRelevant loops f → f ∉ loops → s.Met loops f) ∧
      ((∀ f ∈ s.functionMarkSet, ¬ s.Between loops f) →
        ∀ f, f ∈ t.markLoopRelevantFunctions.relevantAllFunctionSet ↔ s.LoopRelevant loops f) := by
  intro s t loops
  have hs : s.CallGraph := doInitialization_callGraph hwf
  have hcontracted := instrIsInaLoop_contracted hs (doInitialization_fresh (initial_fresh ..))
    inLoop hr
  have hcycles := not_inCycle hr hacyclic
  have hgraph : SearchGraph s t := hcontracted.searchGraph (marked_of_calls hwf hnew) hcycles
  have hkeys := hcontracted.keys_eq_nil hcycles
  have hmem := fun f => mem_relevantAllFunctionSet (f := f) hkeys hcontracted.all
  obtain ⟨hend, hmet⟩ := hgraph.searched
  refine ⟨⟨fun hexact f hf hloop => ?_, fun hall f => ?_⟩, fun hbetween f => ?_⟩
  · have hfound := (hmem f).mp ((hexact f).mpr hf)
    have hvisited := ((hend.found f).mp hfound).resolve_left hloop
    exact (hmet f).mp hvisited.1
  · rw [hmem]
    refine ⟨hend.loopRelevant hgraph, fun hf => (hend.found f).mpr ?_⟩
    by_cases hloop : f ∈ t.relevantLoopFunctionSet
    · exact .inl hloop
    · exact .inr ⟨(hmet f).mpr (hall f hf hloop), hf.1⟩
  · rw [hmem]
    exact ⟨hend.loopRelevant hgraph, hend.mem_found hbetween⟩

/-- Without cycles no function lies between one loop function and itself. -/
theorem CallGraph.not_between_single (hs : s.CallGraph)
    (hacyclic : ∀ f g, SameComponent s.markedEdges f g → f = g) : ¬ s.Between [l] f := by
  rintro ⟨hf, ⟨_, hl, habove⟩, _, hl', hbelow⟩
  obtain rfl := List.mem_singleton.mp hl
  obtain rfl := List.mem_singleton.mp hl'
  have hedge : ∀ x y, s.CallsMarked x y → (x, y) ∈ s.markedEdges := by
    rintro x y ⟨⟨p, hp, hcaller, hcallee⟩, hx, hy⟩
    exact hs.mem_markedEdges.mpr ⟨hx, hy, p, hp, hcaller, hcallee⟩
  exact hf (List.mem_singleton.mpr (hacyclic _ _
    ⟨habove.to_reflTransGen.lift id hedge, hbelow.to_reflTransGen.lift id hedge⟩))

/-- Both `outer` and `inner` are called in loops; `shared` lies between, and only it calls
`other`. -/
def sharedBetween : InstrumentIRPass :=
  callGraph ["inner", "main", "malloc", "other", "outer", "shared"]
    [(0, "main", "outer"), (1, "outer", "shared"), (2, "shared", "inner"), (3, "shared", "other"),
      (4, "inner", "malloc"), (5, "other", "malloc")]

/-- Its components. -/
def sharedBetweenComponents : SCCResult where
  nodeSet := ["inner", "main", "malloc", "other", "outer", "shared"]
  sccMap f := if f = "main" then 0 else if f = "outer" then 1 else if f = "shared" then 2
    else if f = "inner" then 3 else if f = "other" then 4 else 5

theorem sharedBetween_wellFormed : WellFormed sharedBetween.callPaths sharedBetween.functionMap :=
  callGraph_wellFormed (by decide +kernel) (by decide +kernel)

theorem sharedBetweenComponents_correct :
    sharedBetweenComponents.Correct sharedBetween.doInitialization.markedEdges :=
  SCCResult.correct_of_numbering (by decide +kernel) (by decide +kernel) (by decide +kernel)
    (by decide +kernel)

theorem sharedBetween_acyclic : ∀ f g,
    SameComponent sharedBetween.doInitialization.markedEdges f g → f = g :=
  sharedBetweenComponents_correct.eq_of_sameComponent (by decide +kernel)

/-- Where only `outer` is called in a loop, nothing lies between loop functions. -/
theorem loop_relevance_exact_sharedBetween :
    let s := sharedBetween.doInitialization
    let t := s.instrIsInaLoop (fun i => i = 0) fun _ => sharedBetweenComponents
    (∀ f, f ∈ t.markLoopRelevantFunctions.relevantAllFunctionSet ↔ s.LoopRelevant ["outer"] f) ∧
      t.markLoopRelevantFunctions.relevantAllFunctionSet =
        ["inner", "main", "malloc", "other", "outer", "shared"] := by
  intro s t
  have hloops : t.relevantLoopFunctionSet = ["outer"] := by decide +kernel
  have hs : s.CallGraph := doInitialization_callGraph sharedBetween_wellFormed
  have hexact := (@loop_relevance_exact _ _ (fun _ => sharedBetweenComponents)
    sharedBetween_wellFormed (fun _ => rfl) (fun i => i = 0) sharedBetweenComponents_correct
    sharedBetween_acyclic).2
  change (∀ f ∈ s.functionMarkSet, ¬ s.Between t.relevantLoopFunctionSet f) → ∀ f,
    f ∈ t.markLoopRelevantFunctions.relevantAllFunctionSet ↔
      s.LoopRelevant t.relevantLoopFunctionSet f at hexact
  rw [hloops] at hexact
  exact ⟨hexact fun f _ => hs.not_between_single sharedBetween_acyclic, by decide +kernel⟩

/-- The search up from `inner` visits `shared`, so the search down from `outer` stops there. -/
theorem other_not_relevant :
    let s := sharedBetween.doInitialization
    let t := s.instrIsInaLoop (fun i => i = 0 ∨ i = 2) fun _ => sharedBetweenComponents
    (∀ f g, SameComponent s.markedEdges f g → f = g) ∧
      s.LoopRelevant t.relevantLoopFunctionSet "other" ∧
      "other" ∉ t.markLoopRelevantFunctions.relevantAllFunctionSet := by
  intro s t
  have hmarks : "outer" ∈ s.functionMarkSet ∧ "shared" ∈ s.functionMarkSet ∧
      "other" ∈ s.functionMarkSet := by decide +kernel
  have hcalls : s.CallsMarked "outer" "shared" ∧ s.CallsMarked "shared" "other" :=
    ⟨⟨⟨1, by decide +kernel, by decide +kernel, by decide +kernel⟩, hmarks.1, hmarks.2.1⟩,
      ⟨⟨3, by decide +kernel, by decide +kernel, by decide +kernel⟩, hmarks.2.1, hmarks.2.2⟩⟩
  refine ⟨sharedBetween_acyclic, ⟨hmarks.2.2, .inr (.inr ?_)⟩, by decide +kernel⟩
  exact ⟨"outer", by decide +kernel, .tail (.single hcalls.1) hcalls.2⟩

end InstrumentIRPass

end Semalloc
