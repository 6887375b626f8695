import Semalloc.Frontend.EmittedCode
import Mathlib.Data.BitVec

/-!
# What the instrumentation leaves

The loop of `doModulePass` instruments a list of calls, no instruction twice. Afterwards each of them
has its code before it; a plain call has the undoing code after it, and an invoke has it in a new
block on the way to its normal destination and behind its landing pad. What the emitters for cycles
add for an invoke stands at the head of the normal destination itself.

## Main definitions

* `Emitted.changes`: what inserted code adds to a counter
* `Mark`: a call that is instrumented, with the code that is put around it
* `Instrumented`: what the instrumentation of a list of calls leaves
* `InstrumentIRPass.marks`: the calls that `doModulePass` instruments
* `Descent`: the active calls of a run, and what their frames did before

## Main results

* `Mark.changes_before`, `Mark.changes_after`: the code after a call undoes the code before it
* `instrumented_fold`: the instrumentation of a list of calls
* `InstrumentIRPass.doModulePass_eq`: `doModulePass` instruments its list of calls
-/

set_option autoImplicit false

namespace Semalloc

/-! ## What inserted code adds to a counter -/

namespace Emitted

variable {stack frame : Word} {v : Counter} {ops ops' : List Emitted} {g : Globals}

def change (v : Counter) : Emitted → Word
  | add v' n => if v' = v then n else 0
  | sub v' n => if v' = v then -n else 0
  | _ => 0

def changes (v : Counter) (ops : List Emitted) : Word := (ops.map (change v)).sum

@[simp] theorem changes_nil : changes v [] = 0 := rfl

@[simp] theorem changes_cons {op : Emitted} :
    changes v (op :: ops) = change v op + changes v ops := by
  rw [changes, List.map_cons, List.sum_cons, changes]

@[simp] theorem changes_append : changes v (ops ++ ops') = changes v ops + changes v ops' := by
  rw [changes, List.map_append, List.sum_append, changes, changes]

theorem run_counters (op : Emitted) :
    (run stack frame g op).counters v = g.counters v + change v op := by
  cases op with
  | add v' n =>
    by_cases hv : v' = v
    · subst hv
      simp [run, change]
    · simp [run, change, hv, Function.update_of_ne (Ne.symm hv)]
  | sub v' n =>
    by_cases hv : v' = v
    · subst hv
      simp [run, change, sub_eq_add_neg]
    · simp [run, change, hv, Function.update_of_ne (Ne.symm hv)]
  | storeFrame => simp [run, change]
  | storeHash => simp [run, change]
  | clearHash => simp [run, change]

theorem runAll_counters : (runAll stack frame ops g).counters v = g.counters v + changes v ops := by
  induction ops generalizing g with
  | nil => simp [runAll]
  | cons op ops ih =>
    change (runAll stack frame ops (run stack frame g op)).counters v = _
    rw [ih, run_counters, changes_cons, add_assoc]

end Emitted

/-! ## Marks -/

/-- A call that is instrumented: its instruction, its path type and its weight. -/
structure Mark where
  site : Site
  pathType : PathType
  weight : Word

namespace Mark

variable {m : Mark} {v : Counter}

/-- The code directly before the call. -/
def before (m : Mark) : List Emitted :=
  (if m.pathType = .markOutbound then [.storeHash, .add .loopLayer 1] else []) ++
    Code.addWeight m.pathType m.weight

/-- What `doModulePass` itself puts on the ways back from the call. -/
def undo (m : Mark) : List Emitted := Code.subWeight m.pathType m.weight

/-- What the emitters for cycles put there. -/
def bound (m : Mark) : List Emitted :=
  if m.pathType = .markOutbound then [.sub .loopLayer 1]
  else if m.pathType = .markInbound then [.clearHash] else []

/-- What the code before the call adds to a counter. -/
def amount (m : Mark) : Counter → Word
  | .track => m.weight
  | .loopLayer => (if m.pathType = .markOutbound then 1 else 0) +
      if m.pathType = .markBranch then 0 else 1
  | .offset => 0

/-- What the emitters for cycles subtract. -/
def boundAmount (m : Mark) : Counter → Word
  | .loopLayer => if m.pathType = .markOutbound then 1 else 0
  | _ => 0

theorem changes_before : Emitted.changes v m.before = m.amount v := by
  unfold before Code.addWeight amount
  by_cases hw : m.weight = 0
  · rw [hw]
    cases v <;> cases m.pathType <;> simp [Emitted.change]
  · rw [if_pos hw]
    cases v <;> cases m.pathType <;> simp [Emitted.change]

theorem changes_bound : Emitted.changes v m.bound = -m.boundAmount v := by
  unfold bound boundAmount
  cases v <;> cases m.pathType <;> simp [Emitted.change]

/-- **The code after a call undoes the code before it.** -/
theorem changes_after : Emitted.changes v m.undo + Emitted.changes v m.bound = -m.amount v := by
  unfold undo bound Code.subWeight amount
  by_cases hw : m.weight = 0
  · rw [hw]
    cases v <;> cases m.pathType <;> simp [Emitted.change]
  · rw [if_pos hw]
    cases v <;> cases m.pathType <;> simp [Emitted.change]

end Mark

/-! ## The instrumentation of a list of calls -/

namespace Code

variable {c : Code} {inst : Site → CallInst} {marks : List Mark} {m : Mark} {s : Site}
  {n u : BasicBlock}

def instrumentMark (c : Code) (m : Mark) : Code := c.instrumentCall m.site m.pathType m.weight

/-- Around a plain call everything stands directly before it and after it. -/
theorem instrumentMark_call (h : c.inst m.site = .call) : c.instrumentMark m =
    (c.insertBefore m.site m.before).insertAfter m.site (m.undo ++ m.bound) := by
  obtain ⟨site, pathType, weight⟩ := m
  have hbefore : ∀ ops ops', (c.insertBefore site ops).insertBefore site ops' =
      c.insertBefore site (ops ++ ops') := by
    intro ops ops'
    simp [insertBefore]
  have hafter : ∀ (c : Code) ops ops', (c.insertAfter site ops).insertAfter site ops' =
      c.insertAfter site (ops' ++ ops) := by
    intro c ops ops'
    simp [insertAfter]
  have hcomm : ∀ ops ops', (c.insertAfter site ops).insertBefore site ops' =
      (c.insertBefore site ops').insertAfter site ops := fun _ _ => rfl
  dsimp only at h
  unfold instrumentMark instrumentCall
  cases pathType with
  | markOutbound =>
    simp only [extendOutBoundRecursiveCall]
    rw [show (c.insertBefore site [.storeHash, .add .loopLayer 1]).inst site = .call from h]
    dsimp only
    rw [show ((((c.insertBefore site _).insertAfter site _).insertBefore site _).inst site) = .call
      from h]
    exact (hafter _ _ _).trans (congrArg (insertAfter · site _) (hbefore _ _))
  | markInbound =>
    simp only [extendInBoundRecursiveCall, h]
    rw [show (((c.insertAfter site _).insertBefore site _).inst site) = .call from h]
    rw [hcomm]
    exact hafter _ _ _
  | default | markSimpleLoop | markSimpleInner | markInnerBranch | markBranch =>
    dsimp only
    rw [show (c.insertBefore site _).inst site = .call from h]
    simp [Mark.before, Mark.undo, Mark.bound]

/-- Around an invoke the code stands before it, in a new block, at the head of the normal
destination, and behind the landing pad. -/
theorem instrumentMark_invoke (h : c.inst m.site = .invoke n u)
    (hnormal : c.normalDest m.site = .block n) : c.instrumentMark m =
    (({ c with head := Function.update c.head n (m.bound ++ c.head n) }.insertBefore m.site
      m.before).setNormalDest m.site (.newTarget m.undo (.block n))).insertAtUnwindDest u
        (m.undo ++ m.bound) := by
  obtain ⟨site, pathType, weight⟩ := m
  dsimp only at h hnormal
  unfold instrumentMark instrumentCall
  cases pathType with
  | markOutbound =>
    simp [extendOutBoundRecursiveCall, insertBefore, insertAtUnwindDest, insertAtNormalDest,
      setNormalDest, h, hnormal, Mark.before, Mark.undo, Mark.bound]
  | markInbound =>
    simp [extendInBoundRecursiveCall, insertBefore, insertAtUnwindDest, insertAtNormalDest,
      setNormalDest, h, hnormal, Mark.before, Mark.undo, Mark.bound]
  | default | markSimpleLoop | markSimpleInner | markInnerBranch | markBranch =>
    simp [insertBefore, insertAtUnwindDest, setNormalDest, h, hnormal, Mark.before, Mark.undo,
      Mark.bound]

/-- The mark of a site. -/
def markOf (marks : List Mark) (s : Site) : Option Mark := marks.find? fun m => m.site = s

theorem markOf_eq_none (hs : s ∉ marks.map Mark.site) : markOf marks s = none := by
  unfold markOf
  rw [List.find?_eq_none]
  intro m hm heq
  exact hs (List.mem_map.mpr ⟨m, hm, of_decide_eq_true heq⟩)

theorem mem_of_markOf (h : markOf marks s = some m) : m ∈ marks ∧ m.site = s := by
  unfold markOf at h
  have hsite := List.find?_some h
  exact ⟨List.mem_of_find?_eq_some h, of_decide_eq_true hsite⟩

theorem markOf_site (hmarks : (marks.map Mark.site).Nodup) (hm : m ∈ marks) :
    markOf marks m.site = some m := by
  have hsome : (markOf marks m.site).isSome := List.find?_isSome.mpr ⟨m, hm, decide_eq_true rfl⟩
  obtain ⟨m', hm'⟩ := Option.isSome_iff_exists.mp hsome
  obtain ⟨hmem, hsite⟩ := mem_of_markOf hm'
  rw [hm', List.inj_on_of_nodup_map hmarks hmem hm hsite]

/-- What the instrumentation leaves, once it was done for `marks`. -/
structure Instrumented (inst : Site → CallInst) (marks : List Mark) (c : Code) : Prop where
  sameInst : c.inst = inst
  before : ∀ s, c.before s = ((markOf marks s).map Mark.before).getD []
  after : ∀ s, inst s = .call →
    c.after s = ((markOf marks s).map fun m => m.undo ++ m.bound).getD []
  normalDest : ∀ s n u, inst s = .invoke n u → c.normalDest s =
    ((markOf marks s).map fun m => NormalDest.newTarget m.undo (.block n)).getD (.block n)
  head : ∀ b, c.head b =
    marks.reverse.flatMap fun m => if returnsTo inst b m.site then m.bound else []
  pad : ∀ b, c.pad b =
    marks.reverse.flatMap fun m => if unwindsTo inst b m.site then m.undo ++ m.bound else []

theorem original_instrumented (inst : Site → CallInst) : Instrumented inst [] (original inst) where
  sameInst := rfl
  before _ := rfl
  after _ _ := rfl
  normalDest s n u h := by
    unfold original
    dsimp only
    rw [h]
    rfl
  head _ := rfl
  pad _ := rfl

theorem markOf_snoc (hm : m.site ∉ marks.map Mark.site) : markOf (marks ++ [m]) s =
    if m.site = s then some m else markOf marks s := by
  unfold markOf
  rw [List.find?_append]
  by_cases hs : m.site = s
  · subst hs
    have hnone : marks.find? (fun a => a.site = m.site) = none := markOf_eq_none hm
    simp [hnone]
  · simp [hs]

/-- One more call. -/
theorem Instrumented.extend (h : Instrumented inst marks c) (hm : m.site ∉ marks.map Mark.site) :
    Instrumented inst (marks ++ [m]) (c.instrumentMark m) := by
  have hmark := fun s => markOf_snoc (s := s) hm
  have hnone := markOf_eq_none hm
  have hbefore : ∀ s, Function.update c.before m.site (c.before m.site ++ m.before) s =
      ((markOf (marks ++ [m]) s).map Mark.before).getD [] := by
    intro s
    rw [hmark]
    by_cases hs : m.site = s
    · subst hs
      simp [h.before, hnone]
    · simp [Function.update_of_ne (Ne.symm hs), hs, h.before]
  have hinst : c.inst m.site = inst m.site := by rw [h.sameInst]
  cases hkind : inst m.site with
  | call =>
    rw [instrumentMark_call (hinst.trans hkind)]
    refine ⟨h.sameInst, hbefore, fun s hs => ?_, fun s n u hs => ?_, fun b => ?_, fun b => ?_⟩
    · rw [hmark]
      by_cases hms : m.site = s
      · subst hms
        simp [insertAfter, insertBefore, h.after m.site hs, hnone]
      · simp [insertAfter, insertBefore, Function.update_of_ne (Ne.symm hms), hms, h.after s hs]
    · have hms : m.site ≠ s := by
        rintro rfl
        rw [hkind] at hs
        cases hs
      rw [hmark, if_neg hms]
      exact h.normalDest s n u hs
    · simp [insertAfter, insertBefore, h.head b, returnsTo, hkind]
    · simp [insertAfter, insertBefore, h.pad b, unwindsTo, hkind]
  | invoke n u =>
    have hnormal : c.normalDest m.site = .block n := by
      rw [h.normalDest m.site n u hkind, hnone]
      rfl
    rw [instrumentMark_invoke (hinst.trans hkind) hnormal]
    refine ⟨h.sameInst, hbefore, fun s hs => ?_, fun s n' u' hs => ?_, fun b => ?_, fun b => ?_⟩
    · have hms : m.site ≠ s := by
        rintro rfl
        rw [hkind] at hs
        cases hs
      rw [hmark, if_neg hms]
      exact h.after s hs
    · rw [hmark]
      by_cases hms : m.site = s
      · subst hms
        rw [hkind] at hs
        cases hs
        simp [insertAtUnwindDest, setNormalDest]
      · simp [insertAtUnwindDest, setNormalDest, insertBefore, Function.update_of_ne (Ne.symm hms),
          hms, h.normalDest s n' u' hs]
    · by_cases hb : b = n
      · subst hb
        simp [insertAtUnwindDest, setNormalDest, insertBefore, h.head b, returnsTo, hkind]
      · simp [insertAtUnwindDest, setNormalDest, insertBefore, h.head b, returnsTo, hkind,
          Function.update_of_ne hb, Ne.symm hb]
    · by_cases hb : b = u
      · subst hb
        simp [insertAtUnwindDest, setNormalDest, insertBefore, h.pad b, unwindsTo, hkind]
      · simp [insertAtUnwindDest, setNormalDest, insertBefore, h.pad b, unwindsTo, hkind,
          Function.update_of_ne hb, Ne.symm hb]

/-- **The instrumentation of a list of calls**, no instruction twice. -/
theorem instrumented_fold (inst : Site → CallInst) (hmarks : (marks.map Mark.site).Nodup) :
    Instrumented inst marks (marks.foldl instrumentMark (original inst)) := by
  induction marks using List.reverseRecOn with
  | nil => exact original_instrumented inst
  | append_singleton marks m ih =>
    rw [List.map_append, List.nodup_append] at hmarks
    rw [List.foldl_append]
    exact (ih hmarks.1).extend fun hm => hmarks.2.2 _ hm _ List.mem_cons_self rfl

/-! ## The code around one call -/

/-- What is added before a call. -/
def amountOf (marks : List Mark) (s : Site) (v : Counter) : Word :=
  ((markOf marks s).map fun m => m.amount v).getD 0

/-- What the code on the way back from a call subtracts for other calls. -/
def others (inst : Site → CallInst) (marks : List Mark) (s : Site) (o : Outcome) (v : Counter) :
    Word :=
  match inst s, o with
  | .call, _ => 0
  | .invoke n _, .returned =>
    ((marks.filter fun m => m.site ≠ s ∧ returnsTo inst n m.site).map (Mark.boundAmount · v)).sum
  | .invoke _ u, .threw =>
    ((marks.filter fun m => m.site ≠ s ∧ unwindsTo inst u m.site).map (Mark.amount · v)).sum

variable {v : Counter} {o : Outcome} {b : BasicBlock} {stack frame : Word} {g : Globals}

theorem changes_flatMap {p : Site → Bool} {ops : Mark → List Emitted} {amount : Mark → Word}
    (hops : ∀ m, Emitted.changes v (ops m) = -amount m) (marks : List Mark) :
    Emitted.changes v (marks.reverse.flatMap fun m => if p m.site then ops m else []) =
      -((marks.filter fun m => p m.site).map amount).sum := by
  induction marks with
  | nil => simp
  | cons m marks ih =>
    rw [List.reverse_cons, List.flatMap_append, Emitted.changes_append, ih]
    by_cases hp : p m.site
    · simp [hp, hops, neg_add_rev]
    · simp [hp]

theorem Instrumented.changes_before (h : Instrumented inst marks c) :
    Emitted.changes v (c.before s) = amountOf marks s v := by
  rw [h.before, amountOf]
  cases markOf marks s with
  | none => rfl
  | some m => exact m.changes_before

theorem Instrumented.changes_head (h : Instrumented inst marks c) : Emitted.changes v (c.head b) =
    -((marks.filter fun m => returnsTo inst b m.site).map (Mark.boundAmount · v)).sum := by
  rw [h.head]
  exact changes_flatMap (fun m => m.changes_bound) marks

theorem Instrumented.changes_pad (h : Instrumented inst marks c) : Emitted.changes v (c.pad b) =
    -((marks.filter fun m => unwindsTo inst b m.site).map (Mark.amount · v)).sum := by
  rw [h.pad]
  refine changes_flatMap (fun m => ?_) marks
  rw [Emitted.changes_append, m.changes_after]

/-- The mark of a site apart from the others. -/
theorem sum_filter_site (hmarks : (marks.map Mark.site).Nodup) (p : Site → Bool)
    (amount : Mark → Word) (s : Site) : ((marks.filter fun m => p m.site).map amount).sum =
      (if p s then ((markOf marks s).map amount).getD 0 else 0) +
        ((marks.filter fun m => m.site ≠ s ∧ p m.site).map amount).sum := by
  induction marks with
  | nil => simp [markOf]
  | cons m marks ih =>
    obtain ⟨hm, hmarks⟩ := List.nodup_cons.mp hmarks
    have hrest := ih hmarks
    by_cases hs : m.site = s
    · subst hs
      have hnone := markOf_eq_none hm
      have hfirst : markOf (m :: marks) m.site = some m := by simp [markOf]
      have hzero : (if p m.site then ((none : Option Mark).map amount).getD 0 else 0) = 0 := by
        split <;> rfl
      rw [hnone, hzero, zero_add] at hrest
      have hskip : (m :: marks).filter (fun m' => m'.site ≠ m.site ∧ p m'.site) =
          marks.filter fun m' => m'.site ≠ m.site ∧ p m'.site :=
        List.filter_cons_of_neg (by simp)
      rw [hfirst, hskip, ← hrest]
      by_cases hp : p m.site
      · rw [List.filter_cons, if_pos hp, List.map_cons, List.sum_cons, if_pos hp]
        rfl
      · rw [List.filter_cons, if_neg hp, if_neg hp, zero_add]
    · have hfirst : markOf (m :: marks) s = markOf marks s := by simp [markOf, hs]
      rw [hfirst]
      by_cases hp : p m.site
      · simp only [List.filter_cons, hp, hs, ne_eq, not_false_eq_true, and_self, decide_true,
          if_true, List.map_cons, List.sum_cons, hrest]
        exact add_left_comm _ _ _
      · simpa [hp, hs] using hrest

/-- Control comes back to the frame after the call. -/
def Resumes (inst : Site → CallInst) (s : Site) (o : Outcome) : Prop := inst s = .call → o = .returned

/-- **The code around a call from which control comes back** leaves a counter as it was, but for what
it subtracts for other calls. -/
theorem Instrumented.changes_around (h : Instrumented inst marks c)
    (hmarks : (marks.map Mark.site).Nodup) (ho : Resumes inst s o) :
    Emitted.changes v (c.before s) + Emitted.changes v (c.resume s o) = -others inst marks s o v := by
  rw [h.changes_before, amountOf]
  unfold others resume
  rw [h.sameInst]
  cases hs : inst s with
  | call =>
    obtain rfl := ho hs
    dsimp only
    rw [h.after s hs]
    cases markOf marks s with
    | none => simp
    | some m =>
      simp only [Option.map_some, Option.getD_some, Emitted.changes_append, m.changes_after]
      simp
  | invoke n u =>
    cases o with
    | returned =>
      dsimp only
      have hself : returnsTo inst n s = true := by simp [returnsTo, hs]
      have hsplit := sum_filter_site hmarks (returnsTo inst n) (Mark.boundAmount · v) s
      rw [if_pos hself] at hsplit
      rw [h.normalDest s n u hs]
      cases hm : markOf marks s with
      | none =>
        rw [hm] at hsplit
        simp [NormalDest.ops, NormalDest.reached, h.changes_head, hsplit]
      | some m =>
        rw [hm] at hsplit
        have hafter := m.changes_after (v := v)
        rw [m.changes_bound] at hafter
        simp only [Option.map_some, Option.getD_some, NormalDest.ops, NormalDest.reached,
          List.append_nil, Emitted.changes_append, h.changes_head, hsplit]
        rw [neg_add_rev, add_comm (-_) (-_ : Word), ← add_assoc, ← add_assoc, add_assoc (m.amount v),
          hafter]
        simp
    | threw =>
      dsimp only
      have hself : unwindsTo inst u s = true := by simp [unwindsTo, hs]
      have hsplit := sum_filter_site hmarks (unwindsTo inst u) (Mark.amount · v) s
      rw [if_pos hself] at hsplit
      rw [h.changes_pad, hsplit, neg_add_rev, add_comm (-_) (-_ : Word), ← add_assoc,
        add_neg_cancel, zero_add]

/-- **One call**, given what its callee left behind. -/
theorem Instrumented.call_counters (h : Instrumented inst marks c)
    (hmarks : (marks.map Mark.site).Nodup) (ho : Resumes inst s o) {left : Word}
    {callee : Trace} (hleft : (c.execute stack callee
      (Emitted.runAll stack frame (c.before s) g)).counters v =
        (Emitted.runAll stack frame (c.before s) g).counters v + left) :
    (Emitted.runAll stack frame (c.resume s o) (c.execute stack callee
      (Emitted.runAll stack frame (c.before s) g))).counters v =
        g.counters v + (left - others inst marks s o v) := by
  have haround := h.changes_around (v := v) hmarks ho
  rw [Emitted.runAll_counters, hleft, Emitted.runAll_counters, sub_eq_add_neg, ← haround,
    add_assoc, add_assoc, add_left_comm (Emitted.changes v (c.before s)) left]

end Code

/-! ## Runs -/

/-- The active calls of a run, from the outermost on, each with what its frame did before: the calls
it made are over. -/
inductive Descent
  | here
  | within (before : Trace) (s : Site) (frame : Word) (callee : Descent)

namespace Descent

/-- The active call sites. -/
def sites : Descent → List Site
  | here => []
  | within _ s _ callee => s :: callee.sites

/-- What the frames did before the active calls. -/
def befores : Descent → List Trace
  | here => []
  | within before _ _ callee => before :: callee.befores

/-- The inserted code that runs until the innermost active call is made. -/
def execute (stack : Word) (c : Code) : Descent → Globals → Globals
  | here, g => g
  | within before s frame callee, g =>
    callee.execute stack c (Emitted.runAll stack frame (c.before s) (c.execute stack before g))

end Descent

/-- **What the active calls add** to a counter that the calls before them left as it was. -/
theorem Code.Instrumented.descent_counters {inst : Site → CallInst} {marks : List Mark} {c : Code}
    (h : Code.Instrumented inst marks c) {stack : Word} {v : Counter} {d : Descent}
    (hd : ∀ t ∈ d.befores, ∀ g, (c.execute stack t g).counters v = g.counters v) (g : Globals) :
    (d.execute stack c g).counters v =
      g.counters v + (d.sites.map fun s => Code.amountOf marks s v).sum := by
  induction d generalizing g with
  | here => simp [Descent.execute, Descent.sites]
  | within before s frame callee ih =>
    rw [Descent.execute, ih fun t ht => hd t (List.mem_cons_of_mem _ ht), Emitted.runAll_counters,
      hd before List.mem_cons_self, h.changes_before, Descent.sites, List.map_cons, List.sum_cons,
      add_assoc]

/-! ## The calls that `doModulePass` instruments -/

namespace InstrumentIRPass

variable {s : InstrumentIRPass} {c : Code}

/-- The calls in one function that are instrumented: the first with a mark of each instruction. -/
def marksIn (s : InstrumentIRPass) : List ℕ → List Site → List Mark
  | [], _ => []
  | p :: ps, uniqueCallInstSet =>
    let e := s.callPaths p
    if e.pathType = .default ∨ e.callInst ∈ uniqueCallInstSet then s.marksIn ps uniqueCallInstSet
    else if e.pathType = .markSimpleInner ∨ e.pathType = .markInnerBranch then
      s.marksIn ps (e.callInst :: uniqueCallInstSet)
    else
      ⟨e.callInst, e.pathType, e.edgeWeight.setWidth 64⟩ ::
        s.marksIn ps (e.callInst :: uniqueCallInstSet)

def marks (s : InstrumentIRPass) : List Mark :=
  s.carryWeights.relevantAllFunctionSet.flatMap fun f =>
    s.carryWeights.marksIn (s.carryWeights.finalCalleeMap.get f) []

theorem instrumentCalls_eq (ps : List ℕ) (uniqueCallInstSet : List Site) (c : Code) :
    s.instrumentCalls ps uniqueCallInstSet c =
      (s.marksIn ps uniqueCallInstSet).foldl Code.instrumentMark c := by
  induction ps generalizing uniqueCallInstSet c with
  | nil => rfl
  | cons p ps ih =>
    unfold instrumentCalls marksIn
    dsimp only
    by_cases hdefault : (s.callPaths p).pathType = .default
    · rw [if_pos hdefault, if_pos (.inl hdefault), ih]
    · by_cases hseen : (s.callPaths p).callInst ∈ uniqueCallInstSet
      · rw [if_neg hdefault, if_pos hseen, if_pos (.inr hseen), ih]
      · rw [if_neg hdefault, if_neg hseen, if_neg (not_or.mpr ⟨hdefault, hseen⟩)]
        split
        · exact ih _ _
        · exact ih _ _

/-- **`doModulePass` instruments its list of calls.** -/
theorem doModulePass_eq (h : s.carryWeights.innerBranchCalls = []) :
    s.doModulePass c = s.marks.foldl Code.instrumentMark c := by
  unfold doModulePass marks
  dsimp only
  rw [h, List.foldl_nil, List.foldl_flatMap]
  exact List.foldl_ext _ _ _ fun c f _ => instrumentCalls_eq _ _ _

end InstrumentIRPass

end Semalloc
