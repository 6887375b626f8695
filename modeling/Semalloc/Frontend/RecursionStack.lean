import Semalloc.Frontend.EmittedCode
import Mathlib.Data.BitVec

/-!
# The recursion stack and its hash

Around a branching call inside a cycle the frame address is pushed on `CSSRecursiveStack` and
popped after it. The array has a fixed number of slots; the pop of an unwind destination is there
once for each call that unwinds to it; and an invoke that returns comes to an empty block. The hash
of the stack is computed from the words at the first recorded frame address.

## Main definitions

* `Disciplined`: every push goes to the slot of its depth, and every pop comes back to it
* `Supported`: the calls for which it does
* `recordFrames`: the pushes of a sequence of frame addresses

## Main results

* `recursion_stack_disciplined`: the discipline holds exactly for the supported calls
* `recursion_hash_recorded`: the hash is that of the recorded frames exactly when the words in
  memory at the first of them look the same
-/

set_option autoImplicit false

namespace Semalloc

def cssRecursiveStackBound : ℕ := 1000

namespace Code

variable {stack frame : Word} {c : Code} {inst : Site → CallInst} {sites : List Site} {s s' : Site}
  {b : BasicBlock} {g : Globals} {d : ℕ}

/-- What `extendInLoopRecursiveCall` leaves around the calls, once it was called for `sites`. -/
structure InLoop (inst : Site → CallInst) (sites : List Site) (c : Code) : Prop where
  sameInst : c.inst = inst
  before : ∀ s, c.before s = if s ∈ sites then [.storeFrame, .add .offset 1] else []
  after : ∀ s, inst s = .call → c.after s = if s ∈ sites then [.sub .offset 1] else []
  normalDest : ∀ s n u, inst s = .invoke n u →
    c.normalDest s = if s ∈ sites then .empty else .block n
  head : ∀ b, c.head b = []
  pad : ∀ b, c.pad b = List.replicate (sites.countP (unwindsTo inst b)) (.sub .offset 1)

theorem original_inLoop (inst : Site → CallInst) : InLoop inst [] (original inst) where
  sameInst := rfl
  before _ := rfl
  after _ _ := rfl
  normalDest s n u h := by
    unfold original
    dsimp only
    rw [h]
    rfl
  head _ := rfl
  pad _ := rfl

theorem extendInLoopRecursiveCall_call (h : c.inst s = .call) :
    c.extendInLoopRecursiveCall s =
      (c.insertBefore s [.storeFrame, .add .offset 1]).insertAfter s [.sub .offset 1] := by
  have hinst : (c.insertBefore s [.storeFrame, .add .offset 1]).inst s = .call := h
  unfold extendInLoopRecursiveCall
  dsimp only
  rw [hinst]

theorem extendInLoopRecursiveCall_invoke {n u : BasicBlock} (h : c.inst s = .invoke n u) :
    c.extendInLoopRecursiveCall s =
      ((c.insertBefore s [.storeFrame, .add .offset 1]).setNormalDest s .empty).insertAtUnwindDest u
        [.sub .offset 1] := by
  have hinst : (c.insertBefore s [.storeFrame, .add .offset 1]).inst s = .invoke n u := h
  unfold extendInLoopRecursiveCall
  dsimp only
  rw [hinst]

/-- One more call. -/
theorem InLoop.extend (h : InLoop inst sites c) (hs : s ∉ sites) :
    InLoop inst (sites ++ [s]) (c.extendInLoopRecursiveCall s) := by
  have hmem : ∀ a, a ∈ sites ++ [s] ↔ a = s ∨ a ∈ sites := fun a => by simp [or_comm]
  have hother : ∀ a, a ≠ s → (a ∈ sites ++ [s] ↔ a ∈ sites) := fun a ha => by simp [ha]
  have hbefore : ∀ a, (c.insertBefore s [.storeFrame, .add .offset 1]).before a =
      if a ∈ sites ++ [s] then [.storeFrame, .add .offset 1] else [] := by
    intro a
    unfold insertBefore
    by_cases ha : a = s
    · subst ha
      simp [h.before, hs]
    · simp [ha, h.before]
  have hinst : c.inst s = inst s := by rw [h.sameInst]
  cases hkind : inst s with
  | call =>
    rw [extendInLoopRecursiveCall_call (hinst.trans hkind)]
    refine ⟨h.sameInst, hbefore, ?_, ?_, h.head, ?_⟩
    · intro a ha
      unfold insertAfter
      by_cases has : a = s
      · subst has
        simp [insertBefore, h.after a ha, hs]
      · simp [has, insertBefore, h.after a ha]
    · intro a n u ha
      have has : a ≠ s := by
        rintro rfl
        rw [hkind] at ha
        cases ha
      simp only [hother a has]
      exact h.normalDest a n u ha
    · intro b
      have hcount : (sites ++ [s]).countP (unwindsTo inst b) = sites.countP (unwindsTo inst b) := by
        simp [unwindsTo, hkind]
      rw [hcount]
      exact h.pad b
  | invoke n u =>
    rw [extendInLoopRecursiveCall_invoke (hinst.trans hkind)]
    refine ⟨h.sameInst, hbefore, ?_, ?_, h.head, ?_⟩
    · intro a ha
      have has : a ≠ s := by
        rintro rfl
        rw [hkind] at ha
        cases ha
      simp only [hother a has]
      exact h.after a ha
    · intro a n' u' ha
      dsimp only [insertAtUnwindDest, setNormalDest, insertBefore]
      by_cases has : a = s
      · subst has
        simp
      · simp only [Function.update_of_ne has, hother a has]
        exact h.normalDest a n' u' ha
    · intro b
      dsimp only [insertAtUnwindDest, setNormalDest, insertBefore]
      by_cases hb : b = u
      · subst hb
        have hone : unwindsTo inst b s = true := by simp [unwindsTo, hkind]
        rw [Function.update_self, h.pad b, List.countP_append]
        simp [hone, ← List.replicate_succ, List.replicate_succ']
      · have hnone : unwindsTo inst b s = false := by simp [unwindsTo, hkind, Ne.symm hb]
        rw [Function.update_of_ne hb, h.pad b, List.countP_append]
        simp [hnone]

theorem inLoop_fold (inst : Site → CallInst) (hsites : sites.Nodup) :
    InLoop inst sites (sites.foldl extendInLoopRecursiveCall (original inst)) := by
  have hfold : ∀ (done rest : List Site) (c : Code), (done ++ rest).Nodup → InLoop inst done c →
      InLoop inst (done ++ rest) (rest.foldl extendInLoopRecursiveCall c) := by
    intro done rest
    induction rest generalizing done with
    | nil =>
      intro c _ h
      rwa [List.append_nil]
    | cons s rest ih =>
      intro c hnodup h
      have hs : s ∉ done := fun hs =>
        List.disjoint_of_nodup_append hnodup hs List.mem_cons_self
      have hsplit : done ++ s :: rest = (done ++ [s]) ++ rest := by simp
      rw [hsplit] at hnodup ⊢
      exact ih (done ++ [s]) _ hnodup (h.extend hs)
  exact hfold [] sites _ hsites (original_inLoop inst)

/-! ## The discipline -/

/-- A call that is made at depth `d` stores its frame address at slot `d` and leaves the offset at
`d`, where control goes on in the block it was meant to; the calls in its callee are one deeper when
it is instrumented. -/
def Disciplined (stack : Word) (sites : List Site) (c : Code) : Trace → ℕ → Globals → Prop
  | .done, _, _ => True
  | .enter b rest, d, g => Disciplined stack sites c rest d (Emitted.runAll stack 0 (c.head b) g)
  | .call s frame callee o rest, d, g =>
    let g₁ := Emitted.runAll stack frame (c.before s) g
    let g₂ := Emitted.runAll stack frame (c.resume s o) (c.execute stack callee g₁)
    (s ∈ sites → g₁.memory (stack + 8 * BitVec.ofNat 64 d) = frame ∧ d < cssRecursiveStackBound) ∧
      (∀ n u, c.inst s = .invoke n u → o = .returned → (c.normalDest s).reached = some n) ∧
      g₂.counters .offset = BitVec.ofNat 64 d ∧
      Disciplined stack sites c callee (if s ∈ sites then d + 1 else d) g₁ ∧
      Disciplined stack sites c rest d g₂

/-- The callees return, or unwind to the destination of an invoke. -/
def Resumable (inst : Site → CallInst) : Trace → Prop
  | .done => True
  | .enter _ rest => Resumable inst rest
  | .call s _ callee o rest =>
    (inst s = .call → o = .returned) ∧ Resumable inst callee ∧ Resumable inst rest

/-- The stack has a slot for every instrumented call, no instrumented invoke returns, and an invoke
that unwinds does so to a destination with its own pop and no other. -/
def Supported (inst : Site → CallInst) (sites : List Site) : Trace → ℕ → Prop
  | .done, _ => True
  | .enter _ rest, d => Supported inst sites rest d
  | .call s _ callee o rest, d =>
    (s ∈ sites → d < cssRecursiveStackBound) ∧
      (∀ n u, inst s = .invoke n u → o = .returned → s ∉ sites) ∧
      (∀ n u, inst s = .invoke n u → o = .threw →
        BitVec.ofNat 64 (sites.countP (unwindsTo inst u)) = if s ∈ sites then 1 else 0) ∧
      Supported inst sites callee (if s ∈ sites then d + 1 else d) ∧
      Supported inst sites rest d

theorem ofNat_succ (n : ℕ) : BitVec.ofNat 64 (n + 1) = BitVec.ofNat 64 n + 1 := by
  rw [BitVec.ofNat_add]
  rfl

theorem runAll_replicate_sub (n : ℕ) (g : Globals) :
    (Emitted.runAll stack frame (List.replicate n (.sub .offset 1)) g).counters .offset =
      g.counters .offset - BitVec.ofNat 64 n := by
  induction n generalizing g with
  | zero => simp [Emitted.runAll]
  | succ n ih =>
    rw [List.replicate_succ]
    change (Emitted.runAll stack frame _ (Emitted.run stack frame g (.sub .offset 1))).counters .offset = _
    rw [ih]
    simp only [Emitted.run, Function.update_self]
    rw [ofNat_succ]
    ring

/-- Before an instrumented call the frame address is pushed. -/
theorem InLoop.run_before (h : InLoop inst sites c) (hs : s ∈ sites)
    (hg : g.counters .offset = BitVec.ofNat 64 d) :
    (Emitted.runAll stack frame (c.before s) g).memory (stack + 8 * BitVec.ofNat 64 d) = frame ∧
      (Emitted.runAll stack frame (c.before s) g).counters .offset = BitVec.ofNat 64 (d + 1) := by
  rw [h.before s, if_pos hs]
  simp only [Emitted.runAll, Emitted.run, List.foldl_cons, List.foldl_nil, Function.update_self, hg]
  exact ⟨trivial, (ofNat_succ d).symm⟩

theorem InLoop.run_before_of_not_mem (h : InLoop inst sites c) (hs : s ∉ sites) :
    Emitted.runAll stack frame (c.before s) g = g := by
  rw [h.before s, if_neg hs]
  rfl

/-- **The way back** from a callee that leaves the offset one deeper, or as it was. -/
theorem InLoop.resume_iff (h : InLoop inst sites c) {o : Outcome} {n : ℕ}
    (hplain : inst s = .call → o = .returned)
    (hg : g.counters .offset = BitVec.ofNat 64 (if s ∈ sites then n + 1 else n)) :
    ((∀ a u, inst s = .invoke a u → o = .returned → (c.normalDest s).reached = some a) ∧
        (Emitted.runAll stack frame (c.resume s o) g).counters .offset = BitVec.ofNat 64 n) ↔
      (∀ a u, inst s = .invoke a u → o = .returned → s ∉ sites) ∧
        ∀ a u, inst s = .invoke a u → o = .threw →
          BitVec.ofNat 64 (sites.countP (unwindsTo inst u)) = if s ∈ sites then 1 else 0 := by
  have hpop : BitVec.ofNat 64 (n + 1) - 1 = BitVec.ofNat 64 n := by
    rw [ofNat_succ, add_sub_cancel_right]
  unfold resume
  rw [h.sameInst]
  cases hkind : inst s with
  | call =>
    obtain rfl := hplain hkind
    have hback : (Emitted.runAll stack frame (c.after s) g).counters .offset = BitVec.ofNat 64 n := by
      rw [h.after s hkind]
      by_cases hs : s ∈ sites
      · rw [if_pos hs] at hg ⊢
        simp only [Emitted.runAll, Emitted.run, List.foldl_cons, List.foldl_nil, Function.update_self, hg]
        exact hpop
      · rw [if_neg hs] at hg ⊢
        exact hg
    simp [hback]
  | invoke a u =>
    cases o with
    | returned =>
      dsimp only
      rw [h.normalDest s a u hkind]
      by_cases hs : s ∈ sites
      · rw [if_pos hs]
        simp [NormalDest.reached, hs]
      · rw [if_neg hs] at hg ⊢
        simp [NormalDest.reached, NormalDest.ops, h.head, hs, Emitted.runAll, hg]
    | threw =>
      dsimp only
      rw [h.pad u, runAll_replicate_sub, hg]
      have hcount : BitVec.ofNat 64 (if s ∈ sites then n + 1 else n) -
          BitVec.ofNat 64 (sites.countP (unwindsTo inst u)) = BitVec.ofNat 64 n ↔
          BitVec.ofNat 64 (sites.countP (unwindsTo inst u)) = if s ∈ sites then 1 else 0 := by
        rw [sub_eq_iff_eq_add]
        by_cases hs : s ∈ sites
        · rw [if_pos hs, if_pos hs, ofNat_succ, add_right_inj]
          exact eq_comm
        · rw [if_neg hs, if_neg hs, left_eq_add]
      rw [hcount]
      simp [eq_comm]

/-- **The discipline holds exactly for supported calls**, and then the offset ends where it was. -/
theorem InLoop.disciplined_iff (h : InLoop inst sites c) {t : Trace} (ht : Resumable inst t)
    (hg : g.counters .offset = BitVec.ofNat 64 d) :
    (Disciplined stack sites c t d g ↔ Supported inst sites t d) ∧
      (Supported inst sites t d → (c.execute stack t g).counters .offset = BitVec.ofNat 64 d) := by
  induction t generalizing d g with
  | done => exact ⟨Iff.rfl, fun _ => hg⟩
  | enter b rest ih =>
    have hhead : Emitted.runAll stack 0 (c.head b) g = g := by rw [h.head b]; rfl
    unfold Disciplined Supported execute
    rw [hhead]
    exact ih ht hg
  | call s frame callee o rest ihCallee ihRest =>
    obtain ⟨hplain, hcallee, hrest⟩ := ht
    rw [execute_call]
    unfold Disciplined Supported
    dsimp only
    rw [h.sameInst]
    generalize hg₁ : Emitted.runAll stack frame (c.before s) g = g₁
    -- the offset in the callee
    have hoffset₁ : g₁.counters .offset = BitVec.ofNat 64 (if s ∈ sites then d + 1 else d) := by
      subst hg₁
      by_cases hs : s ∈ sites
      · rw [if_pos hs]
        exact (h.run_before hs hg).2
      · rw [if_neg hs, h.run_before_of_not_mem hs]
        exact hg
    have hstored : s ∈ sites → g₁.memory (stack + 8 * BitVec.ofNat 64 d) = frame := by
      intro hs
      subst hg₁
      exact (h.run_before hs hg).1
    obtain ⟨hiffCallee, hoffsetCallee⟩ := ihCallee hcallee hoffset₁
    rw [hiffCallee]
    constructor
    · constructor
      · rintro ⟨hslot, hreached, hback, hsupported, hdisciplined⟩
        obtain ⟨hreturn, hunwind⟩ := (h.resume_iff hplain (hoffsetCallee hsupported)).mp
          ⟨hreached, hback⟩
        exact ⟨fun hs => (hslot hs).2, hreturn, hunwind, hsupported,
          (ihRest hrest hback).1.mp hdisciplined⟩
      · rintro ⟨hslot, hreturn, hunwind, hsupported, hrestSupported⟩
        obtain ⟨hreached, hback⟩ := (h.resume_iff hplain (hoffsetCallee hsupported)).mpr
          ⟨hreturn, hunwind⟩
        exact ⟨fun hs => ⟨hstored hs, hslot hs⟩, hreached, hback, hsupported,
          (ihRest hrest hback).1.mpr hrestSupported⟩
    · rintro ⟨-, hreturn, hunwind, hsupported, hrestSupported⟩
      have hback : (Emitted.runAll stack frame (c.resume s o)
          (execute stack c callee g₁)).counters .offset = BitVec.ofNat 64 d :=
        ((h.resume_iff hplain (hoffsetCallee hsupported)).mpr ⟨hreturn, hunwind⟩).2
      exact (ihRest hrest hback).2 hrestSupported

/-- **Recursion-stack discipline.** Along every trace in which the callees return or unwind to the
destination of an invoke, every instrumented call stores its frame address at the slot of its depth
and leaves the offset as it was, with control where it was meant to go, exactly when the calls are
supported. -/
theorem recursion_stack_disciplined (hsites : sites.Nodup) {t : Trace} (ht : Resumable inst t)
    (hg : g.counters .offset = 0) :
    Disciplined stack sites (sites.foldl extendInLoopRecursiveCall (original inst)) t 0 g ↔
      Supported inst sites t 0 :=
  ((inLoop_fold inst hsites).disciplined_iff ht hg).1

/-- A call in a call, both instrumented: the frame addresses are stored, and the offset comes back. -/
theorem recursion_stack_disciplined_nested :
    Disciplined 0x1000 [0, 1] ([0, 1].foldl extendInLoopRecursiveCall (original fun _ => .call))
      (.call 0 64 (.call 1 128 .done .returned .done) .returned .done) 0
      ⟨fun _ => 0, 0, fun _ => 0⟩ := by
  refine (recursion_stack_disciplined (by decide) (by simp [Resumable]) rfl).mpr ?_
  simp [Supported, cssRecursiveStackBound]

/-- An invoke that returns comes to the empty block. -/
theorem invoke_return_undisciplined :
    Resumable (fun _ => .invoke 1 2) (.call 0 64 .done .returned .done) ∧
      ¬ Disciplined 0x1000 [0] ([0].foldl extendInLoopRecursiveCall (original fun _ => .invoke 1 2))
        (.call 0 64 .done .returned .done) 0 ⟨fun _ => 0, 0, fun _ => 0⟩ := by
  refine ⟨by simp [Resumable], ?_⟩
  rintro ⟨-, hreached, -⟩
  exact absurd (hreached 1 2 rfl rfl) (by decide)

/-! ## The hash of the stack -/

/-- The code before nested calls that `extendInLoopRecursiveCall` instruments, for their frame
addresses. -/
def recordFrames (stack : Word) (inst : Site → CallInst) (s : Site) (frames : List Word)
    (g : Globals) : Globals :=
  frames.foldl (fun g frame =>
    Emitted.runAll stack frame (((original inst).extendInLoopRecursiveCall s).before s) g) g

/-- Different slots have different addresses. -/
theorem slot_injective {i j : ℕ} (hi : i < 2 ^ 61) (hj : j < 2 ^ 61)
    (h : stack + 8 * BitVec.ofNat 64 i = stack + 8 * BitVec.ofNat 64 j) : i = j := by
  have heq := add_left_cancel h
  have hnat := congrArg BitVec.toNat heq
  rw [BitVec.toNat_mul, BitVec.toNat_mul, BitVec.toNat_ofNat, BitVec.toNat_ofNat] at hnat
  have height : (8 : Word).toNat = 8 := rfl
  rw [height, Nat.mod_eq_of_lt (a := i) (by omega), Nat.mod_eq_of_lt (a := j) (by omega),
    Nat.mod_eq_of_lt (by omega), Nat.mod_eq_of_lt (by omega)] at hnat
  omega

/-- **The frames are recorded** in the slots from the offset on, and the slots below stay. -/
theorem recordFrames_spec (frames : List Word) (hlen : d + frames.length < 2 ^ 61)
    (hg : g.counters .offset = BitVec.ofNat 64 d) :
    (recordFrames stack inst s frames g).counters .offset = BitVec.ofNat 64 (d + frames.length) ∧
      (∀ i < d, (recordFrames stack inst s frames g).memory (stack + 8 * BitVec.ofNat 64 i) =
        g.memory (stack + 8 * BitVec.ofNat 64 i)) ∧
      ∀ i < frames.length, (recordFrames stack inst s frames g).memory
        (stack + 8 * BitVec.ofNat 64 (d + i)) = frames.getD i 0 := by
  have hmem : s ∈ [s] := List.mem_singleton_self s
  have hin : InLoop inst [s] ((original inst).extendInLoopRecursiveCall s) :=
    (original_inLoop inst).extend List.not_mem_nil
  induction frames generalizing g d with
  | nil => exact ⟨hg, fun _ _ => rfl, fun i hi => absurd hi (Nat.not_lt_zero i)⟩
  | cons frame frames ih =>
    rw [List.length_cons] at hlen ⊢
    obtain ⟨hslot, hnext⟩ := hin.run_before hmem hg
    -- the slots below are not the one that is written
    have hbelow : ∀ i < d, (Emitted.runAll stack frame
        (((original inst).extendInLoopRecursiveCall s).before s) g).memory
          (stack + 8 * BitVec.ofNat 64 i) = g.memory (stack + 8 * BitVec.ofNat 64 i) := by
      intro i hi
      rw [hin.before s, if_pos hmem]
      simp only [Emitted.runAll, Emitted.run, List.foldl_cons, List.foldl_nil, hg]
      refine Function.update_of_ne (fun heq => ?_) _ _
      have hid := slot_injective (by omega) (by omega) heq
      omega
    obtain ⟨hoffset, hkept, hstored⟩ := ih (by omega) hnext
    refine ⟨?_, fun i hi => ?_, fun i hi => ?_⟩
    · rw [Nat.add_right_comm] at hoffset
      exact hoffset
    · exact (hkept i (by omega)).trans (hbelow i hi)
    · cases i with
      | zero => exact (hkept d (by omega)).trans hslot
      | succ i =>
        have hith := hstored i (by omega)
        rw [Nat.add_right_comm] at hith
        exact hith

/-- **The recursion hash.** Before a call out of a cycle the stored value is the hash of the recorded
frames exactly when the words in memory from the first frame address on agree with the frames in the
bits that are hashed. -/
theorem recursion_hash_recorded (frames : List Word) (hlen : frames.length ≤ cssRecursiveStackBound)
    (hg : g.counters .offset = 0) :
    let g' := recordFrames stack inst s frames g
    (Emitted.runAll stack frame (((original inst).extendOutBoundRecursiveCall s').before s') g').hash =
        cssHashFunction (fun i => frames.getD i 0) (BitVec.ofNat 64 frames.length) ↔
      ∀ i < min frames.length 7, frameBits (g'.memory (frames.getD 0 0 + 8 * BitVec.ofNat 64 i)) =
        frameBits (frames.getD i 0) := by
  intro g'
  have hbound : frames.length ≤ 1000 := hlen
  obtain ⟨hoffset, -, hstored⟩ :
      (recordFrames stack inst s frames g).counters .offset = BitVec.ofNat 64 (0 + frames.length) ∧ _ ∧
        ∀ i < frames.length, (recordFrames stack inst s frames g).memory
          (stack + 8 * BitVec.ofNat 64 (0 + i)) = frames.getD i 0 :=
    recordFrames_spec frames (by omega) hg
  rw [Nat.zero_add] at hoffset
  have hhash : (Emitted.runAll stack frame
      (((original inst).extendOutBoundRecursiveCall s').before s') g').hash =
        cssHashFunction (fun i => g'.memory (g'.memory stack + 8 * BitVec.ofNat 64 i))
          (BitVec.ofNat 64 frames.length) := by
    have hbefore : ((original inst).extendOutBoundRecursiveCall s').before s' =
        [.storeHash, .add .loopLayer 1] := by
      unfold extendOutBoundRecursiveCall
      dsimp only
      split
      · simp [insertAfter, insertBefore, original]
      · unfold insertAtNormalDest
        split <;> simp [insertAtUnwindDest, insertBefore, original]
    rw [hbefore]
    simp only [Emitted.runAll, Emitted.run, List.foldl_cons, List.foldl_nil]
    rw [show g'.counters .offset = _ from hoffset]
  have htoNat : (BitVec.ofNat 64 frames.length).toNat = frames.length := by
    rw [BitVec.toNat_ofNat, Nat.mod_eq_of_lt (by omega)]
  rw [hhash, cssHashFunction_eq_iff, htoNat]
  refine forall₂_congr fun i hi => ?_
  -- the word that is taken for the pointer is the first frame address
  have hfirst : g'.memory stack = frames.getD 0 0 := by
    have hzero := hstored 0 (by omega)
    have hslot : stack + 8 * BitVec.ofNat 64 (0 + 0) = stack := by simp
    rwa [hslot] at hzero
  rw [hfirst]

/-- One frame at address `64`, where memory has the word `64`: the stored value is the hash of the
frame. -/
theorem recursion_hash_recorded_one :
    let g' := recordFrames 0x1000 (fun _ => .call) 0 [64]
      ⟨fun _ => 0, 0, fun a => if a = 64 then 64 else 0⟩
    (Emitted.runAll 0x1000 0 (((original fun _ => .call).extendOutBoundRecursiveCall 1).before 1)
        g').hash = cssHashFunction (fun i => [64].getD i 0) (BitVec.ofNat 64 1) := by
  refine (recursion_hash_recorded [64] (by decide) rfl).mpr fun i hi => ?_
  have hzero : i = 0 := by
    change i < 1 at hi
    omega
  subst hzero
  decide

/-- One frame at address `64` over memory that is zero: the frame address is followed as a
pointer. -/
theorem recursion_hash_follows_frame :
    let g' := recordFrames 0x1000 (fun _ => .call) 0 [64] ⟨fun _ => 0, 0, fun _ => 0⟩
    (Emitted.runAll 0x1000 0 (((original fun _ => .call).extendOutBoundRecursiveCall 1).before 1)
        g').hash ≠ cssHashFunction (fun i => [64].getD i 0) (BitVec.ofNat 64 1) := by
  decide

end Code

end Semalloc
