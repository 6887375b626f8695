import Semalloc.Frontend.Instrumented

/-!
# Exceptions

An exception leaves a frame through a plain call without running the code behind it, until it comes
to an invoke. There the code behind the landing pad undoes the invoke, and every other instrumented
invoke with the same unwind destination; the code of the frames that were left is not undone.

## Main definitions

* `Ends`: how a frame ends
* `Survives`: the track variables come back with control
* `leftBehind`: what the frames of a callee have added and not undone
* `Undone`, `UndoneIn`: what is left behind is what the way back subtracts for other calls

## Main results

* `track_variables_survive`: the track variables come back exactly when what is left behind is undone
-/

set_option autoImplicit false

namespace Semalloc

namespace Code

variable {stack frame : Word} {c : Code} {inst : Site → CallInst} {marks : List Mark} {s : Site}
  {v : Counter} {g : Globals} {o : Outcome} {t : Trace}

/-- A frame ends in a way. An exception of a plain call leaves the frame. -/
def Ends (inst : Site → CallInst) : Trace → Outcome → Prop
  | .done, _ => True
  | .enter _ rest, o => Ends inst rest o
  | .call s _ callee o' rest, o => Ends inst callee o' ∧
    if inst s = .call ∧ o' = .threw then rest = .done ∧ o = .threw else Ends inst rest o

/-- Whenever control comes back to a frame after a call, the track variables have the values they had
there before the code before the call. -/
def Survives (stack : Word) (c : Code) : Trace → Globals → Prop
  | .done, _ => True
  | .enter b rest, g => Survives stack c rest (Emitted.runAll stack 0 (c.head b) g)
  | .call s frame callee o rest, g =>
    let g₁ := Emitted.runAll stack frame (c.before s) g
    let g₂ := Emitted.runAll stack frame (c.resume s o) (c.execute stack callee g₁)
    Survives stack c callee g₁ ∧
      (Resumes c.inst s o → g₂.counters .track = g.counters .track ∧
        g₂.counters .loopLayer = g.counters .loopLayer) ∧
      Survives stack c rest g₂

/-- What a frame has added to a counter when it ends: the code before a plain call that an exception
came through, and what the frames below left behind, less what the emitters for cycles subtract in
the blocks it entered. -/
def leftBehind (inst : Site → CallInst) (marks : List Mark) (v : Counter) : Trace → Word
  | .done => 0
  | .enter b rest => leftBehind inst marks v rest -
    ((marks.filter fun m => returnsTo inst b m.site).map (Mark.boundAmount · v)).sum
  | .call s _ callee o rest =>
    if inst s = .call ∧ o = .threw then amountOf marks s v + leftBehind inst marks v callee
    else leftBehind inst marks v rest

/-- Where control comes back, what was left behind is what the way back subtracts for other calls. -/
def Undone (inst : Site → CallInst) (marks : List Mark) : Trace → Prop
  | .done => True
  | .enter _ rest => Undone inst marks rest
  | .call s _ callee o rest => Undone inst marks callee ∧
    (Resumes inst s o → ∀ v ∈ [Counter.track, .loopLayer],
      leftBehind inst marks v callee = others inst marks s o v) ∧
    Undone inst marks rest

/-- Nothing runs when an exception comes through a plain call. -/
theorem Instrumented.resume_through (h : Instrumented inst marks c)
    (hthrough : inst s = .call ∧ o = .threw) : c.resume s o = [] := by
  obtain ⟨hcall, rfl⟩ := hthrough
  unfold resume
  rw [h.sameInst, hcall]

theorem resumes_of_not_through (hthrough : ¬ (inst s = .call ∧ o = .threw)) :
    Resumes inst s o := by
  intro hcall
  cases o with
  | returned => rfl
  | threw => exact absurd ⟨hcall, rfl⟩ hthrough

/-- As `Undone`, for one counter. -/
def UndoneIn (inst : Site → CallInst) (marks : List Mark) (v : Counter) : Trace → Prop
  | .done => True
  | .enter _ rest => UndoneIn inst marks v rest
  | .call s _ callee o rest => UndoneIn inst marks v callee ∧
    (Resumes inst s o → leftBehind inst marks v callee = others inst marks s o v) ∧
    UndoneIn inst marks v rest

theorem Undone.undoneIn (h : Undone inst marks t) (hv : v ∈ [Counter.track, .loopLayer]) :
    UndoneIn inst marks v t := by
  induction t with
  | done => trivial
  | enter b rest ih => exact ih h
  | call s frame callee o rest ihCallee ihRest =>
    obtain ⟨hcallee, hleft, hrest⟩ := h
    exact ⟨ihCallee hcallee, fun hr => hleft hr v hv, ihRest hrest⟩

/-- **What a frame leaves behind**, for one counter. -/
theorem Instrumented.execute_counters (h : Instrumented inst marks c)
    (hmarks : (marks.map Mark.site).Nodup) (ht : Ends inst t o) (hundone : UndoneIn inst marks v t) :
    (c.execute stack t g).counters v = g.counters v + leftBehind inst marks v t := by
  induction t generalizing g o with
  | done => exact (add_zero _).symm
  | enter b rest ih =>
    change (c.execute stack rest _).counters v = _
    rw [ih ht hundone, Emitted.runAll_counters, h.changes_head, add_assoc]
    congr 1
    rw [leftBehind, sub_eq_add_neg, add_comm]
  | call s frame callee o' rest ihCallee ihRest =>
    obtain ⟨hcallee, hrest⟩ := ht
    obtain ⟨hundoneCallee, hleft, hundoneRest⟩ := hundone
    by_cases hthrough : inst s = .call ∧ o' = .threw
    · -- the exception comes through: nothing runs behind the call, and the frame is left
      rw [if_pos hthrough] at hrest
      obtain ⟨rfl, -⟩ := hrest
      rw [execute_call, h.resume_through hthrough]
      change (c.execute stack callee _).counters v = _
      rw [ihCallee hcallee hundoneCallee, Emitted.runAll_counters, h.changes_before, leftBehind,
        if_pos hthrough, add_assoc]
    · rw [if_neg hthrough] at hrest
      have hresumes := resumes_of_not_through hthrough
      rw [execute_call, ihRest hrest hundoneRest, h.call_counters hmarks hresumes
        (ihCallee hcallee hundoneCallee), hleft hresumes, sub_self, add_zero, leftBehind,
        if_neg hthrough]

/-- **Along a trace.** -/
theorem Instrumented.survives_iff (h : Instrumented inst marks c)
    (hmarks : (marks.map Mark.site).Nodup) (ht : Ends inst t o) :
    Survives stack c t g ↔ Undone inst marks t := by
  induction t generalizing g o with
  | done => exact Iff.rfl
  | enter b rest ih => exact ih ht
  | call s frame callee o' rest ihCallee ihRest =>
    obtain ⟨hcallee, hrest⟩ := ht
    unfold Survives Undone
    dsimp only
    rw [ihCallee hcallee, h.sameInst]
    by_cases hthrough : inst s = .call ∧ o' = .threw
    · rw [if_pos hthrough] at hrest
      obtain ⟨rfl, -⟩ := hrest
      have hnot : ¬ Resumes inst s o' := fun hr => by
        rw [hthrough.2] at hr
        cases hr hthrough.1
      simp only [hnot, false_imp_iff, true_and, Survives, Undone]
    · rw [if_neg hthrough] at hrest
      rw [ihRest hrest]
      refine and_congr_right fun hundone => and_congr_left fun _ => imp_congr_right fun hresumes => ?_
      -- what the call changes, once the callee is known to be undone
      have hcall : ∀ v ∈ [Counter.track, .loopLayer],
          (Emitted.runAll stack frame (c.resume s o') (c.execute stack callee
            (Emitted.runAll stack frame (c.before s) g))).counters v =
              g.counters v + (leftBehind inst marks v callee - others inst marks s o' v) :=
        fun v hv => h.call_counters hmarks hresumes
          (h.execute_counters hmarks hcallee (hundone.undoneIn hv))
      rw [hcall .track (by simp), hcall .loopLayer (by simp), add_eq_left, add_eq_left, sub_eq_zero,
        sub_eq_zero]
      simp

/-- **Track variables and exceptions.** Along every call tree, the track variables come back with
control after each call exactly when, after each call, what the frames that were left had added is
what the code on the way back subtracts for other calls. -/
theorem track_variables_survive (hmarks : (marks.map Mark.site).Nodup) (ht : Ends inst t o) :
    Survives stack (marks.foldl instrumentMark (original inst)) t g ↔ Undone inst marks t :=
  (instrumented_fold inst hmarks).survives_iff hmarks ht

/-- An invoke at site `0`, and a plain call at site `1`. -/
def invokeAndCall : Site → CallInst := fun s => if s = 0 then .invoke 10 11 else .call

/-- The callee of an invoke throws after a call of its own returned. -/
theorem track_variables_survive_invoke :
    Survives 0x1000 ([⟨0, .markSimpleLoop, 5⟩, ⟨1, .markBranch, 3⟩].foldl instrumentMark
        (original invokeAndCall)) (.call 0 64 (.call 1 128 .done .returned .done) .threw .done)
      ⟨fun _ => 0, 0, fun _ => 0⟩ := by
  have hends : Ends invokeAndCall (.call 0 64 (.call 1 128 .done .returned .done) .threw .done)
      .returned := by
    simp [Ends, invokeAndCall]
  refine (track_variables_survive (by decide) hends).mpr ?_
  simp [Undone, Resumes, leftBehind, others, invokeAndCall, unwindsTo]

/-- **An exception that comes through a plain call**: what was added before the call is still there
at the unwind destination of the invoke. -/
theorem plain_call_not_undone :
    Ends invokeAndCall (.call 0 64 (.call 1 128 .done .threw .done) .threw .done) .returned ∧
    ¬ Survives 0x1000 ([⟨0, .markSimpleLoop, 5⟩, ⟨1, .markBranch, 3⟩].foldl instrumentMark
        (original invokeAndCall)) (.call 0 64 (.call 1 128 .done .threw .done) .threw .done)
      ⟨fun _ => 0, 0, fun _ => 0⟩ := by
  refine ⟨by simp [Ends, invokeAndCall], ?_⟩
  rintro ⟨-, hback, -⟩
  have htrack := (hback fun hcall => nomatch (show CallInst.invoke 10 11 = .call from hcall)).1
  exact absurd htrack (by decide)

end Code

end Semalloc
