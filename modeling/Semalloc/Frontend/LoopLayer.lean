import Semalloc.Frontend.Unwinding

/-!
# The loop layers

Every way through a function should decrement `CSSLoopLayerTrack` as often as it increments it. The
emitters for cycles put code at the head of the normal destination of an invoke, where it runs for
everything that enters this block.

## Main definitions

* `PathStep`, `stepCode`: a path through a function, and the inserted code that runs along it
* `LoopBalanced`: the balance along a path, and after-call code only on paths with the call

## Main results

* `loop_layer_balanced`: the paths on which the layers are balanced
-/

set_option autoImplicit false

namespace Semalloc

namespace Code

variable {c : Code} {inst : Site → CallInst} {marks : List Mark} {m : Mark} {s : Site}
  {n b : BasicBlock}

/-! ## Paths through a function -/

/-- A step of a path: the function enters a block, or makes a call that returns. A return from an
invoke enters its normal destination. -/
inductive PathStep
  | enter (b : BasicBlock)
  | call (s : Site)
  deriving DecidableEq

/-- The inserted code that the function runs in a step. -/
def stepCode (c : Code) : PathStep → List Emitted
  | .enter b => c.head b
  | .call s => c.before s ++ c.resume s .returned

/-- The block that a step enters. -/
def PathStep.entered (inst : Site → CallInst) : PathStep → Option BasicBlock
  | .enter b => some b
  | .call s =>
    match inst s with
    | .call => none
    | .invoke n _ => some n

/-- The increments of the loop layers. -/
def increments (ops : List Emitted) : ℕ := ops.count (.add .loopLayer 1)

/-- The decrements of the loop layers. -/
def decrements (ops : List Emitted) : ℕ := ops.count (.sub .loopLayer 1)

/-- As many decrements as increments. -/
def Balanced (ops : List Emitted) : Prop := decrements ops = increments ops

/-- A step runs code that stands after the call of a mark: it returns from it, or it enters the
block at whose head the emitters for cycles put some. -/
def RunsAfter (inst : Site → CallInst) (m : Mark) (e : PathStep) : Prop :=
  e = .call m.site ∨ ∃ b, e.entered inst = some b ∧ returnsTo inst b m.site ∧ m.bound ≠ []

/-- Balance along a path. -/
structure LoopBalanced (inst : Site → CallInst) (marks : List Mark) (c : Code)
    (path : List PathStep) : Prop where
  balanced : ∀ done rest, path = done ++ rest → Balanced (done.flatMap c.stepCode)
  after : ∀ done e rest, path = done ++ e :: rest → ∀ m ∈ marks, RunsAfter inst m e →
    .call m.site ∈ done ++ [e]

/-- A block with code for a call that leaves a cycle is entered only by returning from that call,
and one with code for a call that enters a cycle only after that call. -/
def HeadsReached (inst : Site → CallInst) (marks : List Mark) (path : List PathStep) : Prop :=
  ∀ done e rest, path = done ++ e :: rest → ∀ b, e.entered inst = some b → ∀ m ∈ marks,
    returnsTo inst b m.site → (m.pathType = .markOutbound → e = .call m.site) ∧
      (m.pathType = .markInbound → .call m.site ∈ done ++ [e])

/-! ## Counting -/

@[simp] theorem increments_nil : increments [] = 0 := rfl

@[simp] theorem decrements_nil : decrements [] = 0 := rfl

@[simp] theorem increments_append (ops ops' : List Emitted) :
    increments (ops ++ ops') = increments ops + increments ops' := List.count_append

@[simp] theorem decrements_append (ops ops' : List Emitted) :
    decrements (ops ++ ops') = decrements ops + decrements ops' := List.count_append

theorem increments_before : increments m.before = (if m.pathType = .markOutbound then 1 else 0) +
    if m.pathType = .markBranch then 0 else 1 := by
  unfold increments Mark.before addWeight
  by_cases hw : m.weight = 0
  · rw [hw]
    cases m.pathType <;> simp
  · rw [if_pos hw]
    cases m.pathType <;> simp

theorem decrements_before : decrements m.before = 0 := by
  unfold decrements Mark.before addWeight
  by_cases hw : m.weight = 0
  · rw [hw]
    cases m.pathType <;> simp
  · rw [if_pos hw]
    cases m.pathType <;> simp

theorem increments_undo : increments m.undo = 0 := by
  unfold increments Mark.undo subWeight
  by_cases hw : m.weight = 0
  · rw [hw]
    cases m.pathType <;> simp
  · rw [if_pos hw]
    cases m.pathType <;> simp

theorem decrements_undo : decrements m.undo = if m.pathType = .markBranch then 0 else 1 := by
  unfold decrements Mark.undo subWeight
  by_cases hw : m.weight = 0
  · rw [hw]
    cases m.pathType <;> simp
  · rw [if_pos hw]
    cases m.pathType <;> simp

theorem increments_bound : increments m.bound = 0 := by
  unfold increments Mark.bound
  cases m.pathType <;> simp

theorem decrements_bound : decrements m.bound = if m.pathType = .markOutbound then 1 else 0 := by
  unfold decrements Mark.bound
  cases m.pathType <;> simp

/-- The marked calls that leave a cycle and return to a block. -/
def outboundTo (inst : Site → CallInst) (marks : List Mark) (b : BasicBlock) : List Mark :=
  marks.filter fun m => m.pathType = .markOutbound ∧ returnsTo inst b m.site

theorem Instrumented.count_head (h : Instrumented inst marks c) :
    increments (c.head b) = 0 ∧ decrements (c.head b) = (outboundTo inst marks b).length := by
  rw [h.head, outboundTo]
  clear h
  induction marks with
  | nil => exact ⟨rfl, rfl⟩
  | cons m marks ih =>
    rw [List.reverse_cons, List.flatMap_append, increments_append, decrements_append, ih.1, ih.2,
      List.filter_cons]
    by_cases hb : returnsTo inst b m.site
    · by_cases hp : m.pathType = .markOutbound
      · simp [hb, hp, increments_bound, decrements_bound]
      · simp [hb, hp, increments_bound, decrements_bound]
    · simp [hb]

/-- The marks of calls that leave a cycle and return to the normal destination of a site are at most
its own. -/
theorem outboundTo_self (hmarks : (marks.map Mark.site).Nodup) (hself : returnsTo inst n s) :
    (∀ m ∈ outboundTo inst marks n, m.site = s) ↔ (outboundTo inst marks n).length =
      ((markOf marks s).map fun m => if m.pathType = .markOutbound then 1 else 0).getD 0 := by
  induction marks with
  | nil => simp [outboundTo, markOf]
  | cons m marks ih =>
    obtain ⟨hm, hmarks⟩ := List.nodup_cons.mp hmarks
    have hrest := ih hmarks
    by_cases hs : m.site = s
    · subst hs
      have hnone := markOf_eq_none hm
      have hfirst : markOf (m :: marks) m.site = some m := by simp [markOf]
      rw [hnone] at hrest
      have hlist : outboundTo inst (m :: marks) n =
          if m.pathType = .markOutbound then m :: outboundTo inst marks n
          else outboundTo inst marks n := by
        unfold outboundTo
        rw [List.filter_cons]
        simp [hself]
      rw [hfirst, hlist]
      by_cases hp : m.pathType = .markOutbound
      · simpa [hp] using hrest
      · simpa [hp] using hrest
    · have hfirst : markOf (m :: marks) s = markOf marks s := by simp [markOf, hs]
      rw [hfirst]
      by_cases hm : m.pathType = .markOutbound ∧ returnsTo inst n m.site
      · -- a call of another site returns to the block too
        have hlist : outboundTo inst (m :: marks) n = m :: outboundTo inst marks n := by
          unfold outboundTo
          rw [List.filter_cons, if_pos (decide_eq_true hm)]
        rw [hlist]
        refine iff_of_false (fun hall => hs (hall m List.mem_cons_self)) fun hlen => ?_
        rw [List.length_cons] at hlen
        have hle : ((markOf marks s).map fun m => if m.pathType = .markOutbound then 1 else 0).getD 0
            ≤ (outboundTo inst marks n).length := by
          cases hfind : markOf marks s with
          | none => exact Nat.zero_le _
          | some a =>
            obtain ⟨ha, hsite⟩ := mem_of_markOf hfind
            simp only [Option.map_some, Option.getD_some]
            split
            · rename_i hout
              refine List.length_pos_of_mem (a := a) ?_
              unfold outboundTo
              rw [List.mem_filter, decide_eq_true_eq, hsite]
              exact ⟨ha, hout, hself⟩
            · exact Nat.zero_le _
        omega
      · have hlist : outboundTo inst (m :: marks) n = outboundTo inst marks n := by
          unfold outboundTo
          rw [List.filter_cons, if_neg (by rwa [decide_eq_true_eq])]
        rw [hlist]
        exact hrest

/-- One step is balanced exactly when the block it enters has code for the call it returns from,
if that leaves a cycle, and for no other. -/
theorem Instrumented.balanced_step (h : Instrumented inst marks c)
    (hmarks : (marks.map Mark.site).Nodup) (e : PathStep) :
    Balanced (c.stepCode e) ↔ ∀ b, e.entered inst = some b →
      ∀ m ∈ outboundTo inst marks b, e = .call m.site := by
  cases e with
  | enter b =>
    obtain ⟨hadd, hsub⟩ := h.count_head (b := b)
    unfold Balanced stepCode
    dsimp only
    rw [hadd, hsub, List.length_eq_zero_iff]
    constructor
    · intro hnil b' hb m hm
      obtain rfl := Option.some.inj hb
      rw [hnil] at hm
      cases hm
    · intro hall
      rw [List.eq_nil_iff_forall_not_mem]
      intro m hm
      cases hall b rfl m hm
  | call s =>
    unfold Balanced stepCode resume PathStep.entered
    dsimp only
    rw [h.sameInst, h.before]
    cases hs : inst s with
    | call =>
      dsimp only
      rw [h.after s hs]
      refine iff_of_true ?_ fun b hb => by cases hb
      cases markOf marks s with
      | none => rfl
      | some m =>
        simp only [Option.map_some, Option.getD_some, increments_append, decrements_append,
          increments_before, decrements_before, increments_undo, decrements_undo, increments_bound,
          decrements_bound]
        omega
    | invoke n u =>
      dsimp only
      obtain ⟨hadd, hsub⟩ := h.count_head (b := n)
      rw [h.normalDest s n u hs]
      have hself : returnsTo inst n s = true := by simp [returnsTo, hs]
      have hforall : (∀ b, some n = some b → ∀ m ∈ outboundTo inst marks b,
          PathStep.call s = .call m.site) ↔ ∀ m ∈ outboundTo inst marks n, m.site = s := by
        constructor
        · intro hall m hm
          exact (PathStep.call.inj (hall n rfl m hm)).symm
        · rintro hall b hb m hm
          obtain rfl := Option.some.inj hb
          rw [hall m hm]
      rw [hforall, outboundTo_self hmarks hself]
      cases hm : markOf marks s with
      | none => simp [NormalDest.ops, NormalDest.reached, hadd, hsub]
      | some m =>
        simp only [Option.map_some, Option.getD_some, NormalDest.ops, NormalDest.reached,
          List.append_nil, increments_append, decrements_append, hadd, hsub, increments_before,
          decrements_before, increments_undo, decrements_undo]
        omega

/-- Every prefix is balanced exactly when every step is. -/
theorem balanced_prefixes_iff {path : List PathStep} :
    (∀ done rest, path = done ++ rest → Balanced (done.flatMap c.stepCode)) ↔
      ∀ e ∈ path, Balanced (c.stepCode e) := by
  constructor
  · intro hall e he
    obtain ⟨done, rest, rfl⟩ := List.append_of_mem he
    have hbefore := hall done (e :: rest) rfl
    have hafter := hall (done ++ [e]) rest (by simp)
    rw [List.flatMap_append] at hafter
    unfold Balanced at hbefore hafter ⊢
    rw [decrements_append, increments_append, hbefore] at hafter
    simpa using hafter
  · rintro hall done rest rfl
    induction done with
    | nil => rfl
    | cons e done ih =>
      have hfirst := hall e List.mem_cons_self
      have hrest := ih fun e he => hall e (List.mem_cons_of_mem _ he)
      unfold Balanced at hfirst hrest ⊢
      rw [List.flatMap_cons, decrements_append, increments_append, hfirst, hrest]

/-- **Loop layers inside a function.** Along a path whose calls return, the layers are balanced
everywhere and after-call code runs only on paths with the call, exactly when no block with code for
a call that leaves a cycle is entered otherwise than by returning from it, and none with code for a
call that enters a cycle before that call. -/
theorem loop_layer_balanced (hmarks : (marks.map Mark.site).Nodup) (path : List PathStep) :
    LoopBalanced inst marks (marks.foldl instrumentMark (original inst)) path ↔
      HeadsReached inst marks path := by
  have h := instrumented_fold inst hmarks
  have hmem : ∀ {b : BasicBlock} {m : Mark}, m ∈ outboundTo inst marks b ↔
      m ∈ marks ∧ m.pathType = .markOutbound ∧ returnsTo inst b m.site := by
    intro b m
    rw [outboundTo, List.mem_filter, decide_eq_true_eq]
  constructor
  · rintro ⟨hbalanced, hafter⟩ done e rest rfl b hb m hm hto
    constructor
    · intro hout
      have hstep := balanced_prefixes_iff.mp hbalanced e (by simp)
      exact (h.balanced_step hmarks e).mp hstep b hb m (hmem.mpr ⟨hm, hout, hto⟩)
    · intro hin
      refine hafter done e rest rfl m hm (.inr ⟨b, hb, hto, ?_⟩)
      simp [Mark.bound, hin]
  · intro hheads
    refine ⟨balanced_prefixes_iff.mpr fun e he => ?_, ?_⟩
    · obtain ⟨done, rest, rfl⟩ := List.append_of_mem he
      refine (h.balanced_step hmarks e).mpr fun b hb m hm => ?_
      obtain ⟨hm, hout, hto⟩ := hmem.mp hm
      exact (hheads done e rest rfl b hb m hm hto).1 hout
    · rintro done e rest rfl m hm (rfl | ⟨b, hb, hto, hbound⟩)
      · simp
      · obtain ⟨hout, hin⟩ := hheads done e rest rfl b hb m hm hto
        by_cases hp : m.pathType = .markOutbound
        · rw [hout hp]
          simp
        · refine hin ?_
          by_contra hq
          exact hbound (by simp [Mark.bound, hp, hq])

/-- An invoke that leaves a cycle, at site `0`. -/
def outboundInvoke : Site → CallInst := fun _ => .invoke 10 11

/-- A path that makes the call, and goes on from its normal destination. -/
theorem loop_layer_balanced_invoke : LoopBalanced outboundInvoke [⟨0, .markOutbound, 3⟩]
    ([⟨0, .markOutbound, 3⟩].foldl instrumentMark (original outboundInvoke))
      [.call 0, .enter 12, .call 0] := by
  refine (loop_layer_balanced (by decide) _).mpr ?_
  rintro done e rest hpath b hb m hm hto
  obtain rfl := List.mem_singleton.mp hm
  refine ⟨fun _ => ?_, fun hin => nomatch hin⟩
  have he : e ∈ [PathStep.call 0, .enter 12, .call 0] := hpath ▸ by simp
  simp only [List.mem_cons, List.not_mem_nil, or_false] at he
  rcases he with rfl | rfl | rfl
  · rfl
  · -- the invoke does not return to the block that is entered
    obtain rfl := Option.some.inj hb
    cases hto
  · rfl

/-- **A shared normal destination**: a path that comes to the normal destination without the call
decrements the loop layers. -/
theorem shared_destination_unbalanced : ¬ LoopBalanced outboundInvoke [⟨0, .markOutbound, 3⟩]
    ([⟨0, .markOutbound, 3⟩].foldl instrumentMark (original outboundInvoke)) [.enter 10] := by
  intro h
  have hbalance := h.balanced [.enter 10] [] rfl
  unfold Balanced at hbalance
  exact absurd hbalance (by decide)

end Code

end Semalloc
