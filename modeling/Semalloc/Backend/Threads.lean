import Semalloc.Backend.Housekeeping
import Semalloc.Backend.Run

/-!
# The manager a thread goes to

Each entry point goes to the manager its thread-local `thread_id` names. Only `init_thread`
changes that variable, and it takes a fresh index. Whatever the state of the heap, and also when
a call ends the process, the functions of the managers leave the thread tables alone.

`css_calloc` and `css_memalign`, with its two wrappers, do not check that the thread is
initialized, and `thread_id` starts at the first manager's index. Nor does `init_thread` bound its
index. So a thread goes to a manager of its own in the runs where it first calls one of the
checking entry points, while fewer than `maxThread` threads did before.

## Main definitions

* `Confined`: the thread tables are the same
* `OwnManagers`: every call went to the manager of the calling thread
* `Config.InitializedFirst`: the calls that find, or make, an initialized thread

## Main results

* `mallocMemory_confined`, `handleFreeList_confined`, …: the functions of the managers
* `threads_own_their_managers`: every call of every run
* `calloc_goes_to_foreign_manager`: a first call that goes to another thread's manager
-/

set_option autoImplicit false

namespace Semalloc

open ByteMemory Region Effect MemoryManager

/-- The thread tables are the same, and managers stay. -/
structure Confined (h h' : Heap) : Prop where
  tls : h'.tls = h.tls
  threadBump : h'.threadBump = h.threadBump
  calls : h'.calls = h.calls
  manager : ∀ t m, h.globalMemoryManager t = some m → ∃ m', h'.globalMemoryManager t = some m'

namespace Confined

theorem refl (h : Heap) : Confined h h := ⟨rfl, rfl, rfl, fun _ m hm => ⟨m, hm⟩⟩

theorem trans (h h₁ h₂ : Heap) (ha : Confined h h₁) (hb : Confined h₁ h₂) : Confined h h₂ :=
  ⟨hb.tls.trans ha.tls, hb.threadBump.trans ha.threadBump, hb.calls.trans ha.calls,
    fun t m hm => by
      obtain ⟨m', hm'⟩ := ha.manager t m hm
      exact hb.manager t m' hm'⟩

end Confined

/-- The program leaves the thread tables alone. -/
abbrev Confines {α : Type} (m : Proc α) : Prop := Keeps Confined m

namespace Confines

variable {α β : Type}

theorem pure (a : α) : Confines (Pure.pure a) := Keeps.pure Confined.refl a

theorem throw (e : Halt) : Confines (MonadExcept.throw e : Proc α) := Keeps.throw Confined.refl e

theorem get : Confines MonadState.get := Keeps.get Confined.refl

theorem bind {m : Proc α} {f : α → Proc β} (hm : Confines m) (hf : ∀ a, Confines (f a)) :
    Confines (m >>= f) := Keeps.bind Confined.trans hm hf

theorem ite {c : Prop} [Decidable c] {m m' : Proc α} (hm : Confines m) (hm' : Confines m') :
    Confines (if c then m else m') := Keeps.ite hm hm'

end Confines

/-! ## The machine -/

/-- Housekeeping leaves the thread tables alone. -/
theorem confined_housekeeping : Housekeeping Confined where
  refl := Confined.refl
  trans := Confined.trans
  mapping _ _ _ _ := ⟨rfl, rfl, rfl, fun _ m hm => ⟨m, hm⟩⟩
  attempt _ := ⟨rfl, rfl, rfl, fun _ m hm => ⟨m, hm⟩⟩
  bibop _ _ _ := ⟨rfl, rfl, rfl, fun _ m hm => ⟨m, hm⟩⟩
  manager h t m := by
    refine ⟨rfl, rfl, rfl, fun t' m' hm => ?_⟩
    by_cases htt : t' = t
    · exact ⟨m, by simp [htt]⟩
    · exact ⟨m', by simpa [htt] using hm⟩

theorem poke_confined (a n : ℕ) (f : ByteMemory → ByteMemory) : Confines (poke a n f) :=
  .bind .get fun _ => .ite (Keeps.modify fun _ => ⟨rfl, rfl, rfl, fun _ m hm => ⟨m, hm⟩⟩) (.throw _)

theorem munmap_confined (a len : ℕ) : Confines (munmap a len) :=
  .ite (Keeps.modify fun _ => ⟨rfl, rfl, rfl, fun _ m hm => ⟨m, hm⟩⟩) (.pure _)

theorem madvise_confined (a len : ℕ) : Confines (madvise a len) :=
  .ite (Keeps.modify fun _ => ⟨rfl, rfl, rfl, fun _ m hm => ⟨m, hm⟩⟩) (.pure _)

theorem serve_confined (origin : Origin) (base len ptr : ℕ) :
    Confines (serve origin base len ptr) :=
  Keeps.modify fun _ => ⟨rfl, rfl, rfl, fun _ m hm => ⟨m, hm⟩⟩

/-! ## BIBOPs and pools -/

theorem freeObject_confined (b ptr : ℕ) : Confines (SingleBIBOP.freeObject b ptr) := by
  have hR := confined_housekeeping
  unfold SingleBIBOP.freeObject
  exact .bind (hR.getBIBOP b) fun B => .bind (poke_confined _ _ _) fun _ =>
    .bind (hR.setBIBOP _ _) fun _ => .ite (madvise_confined _ _) (.pure _)

theorem freeGlobalObject_confined (ptr : ℕ) : Confines (GlobalBIBOP.freeGlobalObject ptr) := by
  have hR := confined_housekeeping
  unfold GlobalBIBOP.freeGlobalObject
  exact .bind (hR.peek _ _ _) fun _ => .bind (hR.getBIBOP _) fun _ =>
    .ite (madvise_confined _ _) (.pure _)

/-! ## The managers -/

theorem drainFreeList_confined (this n : ℕ) : Confines (drainFreeList this n) := by
  have hR := confined_housekeeping
  induction n with
  | zero => exact .throw _
  | succ n ih =>
    unfold drainFreeList
    refine .bind (hR.getManager _) fun m => .ite (.pure _) <|
      .bind (hR.peek _ _ _) fun _ => .bind (hR.setManager _ _) fun _ =>
      .bind (hR.peek _ _ _) fun _ => .ite (.bind (.throw _) fun _ => ?_) ?_
    all_goals
      refine .bind (hR.peek _ _ _) fun _ => .bind (hR.peek _ _ _) fun _ => .ite ?_ ?_
      · exact .bind (freeGlobalObject_confined _) fun _ => .bind (poke_confined _ _ _) fun _ => ih
      · exact .bind (freeObject_confined _ _) fun _ => .bind (poke_confined _ _ _) fun _ => ih

theorem handleFreeList_confined (this : ℕ) : Confines (handleFreeList this) :=
  drainFreeList_confined this _

theorem freeOtherThreadMemory_confined (this ptr : ℕ) :
    Confines (freeOtherThreadMemory this ptr) := by
  have hR := confined_housekeeping
  unfold freeOtherThreadMemory
  exact .bind (hR.getManager _) fun _ => .bind (poke_confined _ _ _) fun _ =>
    hR.setManager _ _

theorem freeRegularMemory_confined (this ptr : ℕ) : Confines (freeRegularMemory this ptr) := by
  have hR := confined_housekeeping
  unfold freeRegularMemory
  refine .bind (handleFreeList_confined _) fun _ => .ite (.pure _) <|
    .bind (hR.peek _ _ _) fun _ => .ite (.bind (.throw _) fun _ => ?_) ?_
  all_goals
    refine .bind (hR.peek _ _ _) fun _ => .bind (hR.peek _ _ _) fun _ =>
      .bind (hR.peek _ _ _) fun _ => .ite ?_ ?_
    · exact .bind (freeGlobalObject_confined _) fun _ => poke_confined _ _ _
    · exact .bind (freeObject_confined _ _) fun _ => poke_confined _ _ _

theorem allocateHuge_confined (size : Word) : Confines (allocateHuge size) := by
  have hR := confined_housekeeping
  unfold allocateHuge
  refine .bind (hR.mmap _) fun _ => .ite (.bind (.throw _) fun _ => ?_) ?_
  all_goals
    exact .bind (poke_confined _ _ _) fun _ => .bind (poke_confined _ _ _) fun _ =>
    .bind (serve_confined _ _ _ _) fun _ => .pure _

theorem freeHugeMemory_confined (ptr : ℕ) : Confines (freeHugeMemory ptr) := by
  have hR := confined_housekeeping
  unfold freeHugeMemory
  exact .bind (hR.peek _ _ _) fun _ => munmap_confined _ _

theorem allocateRegular_confined (this realSize : ℕ) (CSI : Word) (inLoop : Bool) :
    Confines (allocateRegular this realSize CSI inLoop) := by
  have hR := confined_housekeeping
  have hindividual : Confines (allocateIndividual this realSize CSI) := by
    unfold allocateIndividual
    exact .bind (hR.probeIndividualBIBOP _ _ _ _) fun _ =>
      .bind (hR.allocateFrom _ _) fun _ => .bind (hR.getManager _) fun _ =>
      .bind (poke_confined _ _ _) fun _ => .bind (serve_confined _ _ _ _) fun _ => .pure _
  have hglobal : Confines (allocateGlobal this realSize) := by
    unfold allocateGlobal
    exact .bind (hR.getManager _) fun _ => .bind (hR.allocateFrom _ _) fun _ =>
      .bind (hR.getManager _) fun _ => .bind (poke_confined _ _ _) fun _ =>
      .bind (serve_confined _ _ _ _) fun _ => .pure _
  unfold allocateRegular
  refine .ite (.bind (.bind (hR.probeLazyPool _ _ _) fun _ => .pure _) fun _ => ?_)
    (.bind (.pure _) fun _ => ?_)
  all_goals exact .ite hindividual hglobal

theorem mallocMemory_confined (this : ℕ) (size : Word) : Confines (mallocMemory this size) := by
  unfold mallocMemory
  exact .bind (handleFreeList_confined _) fun _ => .ite (allocateHuge_confined _) <|
    .ite (.pure _) (.ite (allocateHuge_confined _) (allocateRegular_confined _ _ _ _))

theorem mallocMemoryCSI_confined (this : ℕ) (realSize CSI : Word) (inLoop : Bool) :
    Confines (mallocMemoryCSI this realSize CSI inLoop) := by
  unfold mallocMemoryCSI
  exact .bind (handleFreeList_confined _) fun _ => .ite (.pure _) <|
    .ite (allocateHuge_confined _) (allocateRegular_confined _ _ _ _)

theorem cssMallocUsableSize_confined (ptr : ℕ) : Confines (cssMallocUsableSize ptr) := by
  have hR := confined_housekeeping
  unfold cssMallocUsableSize
  refine .bind (hR.peek _ _ _) fun _ => .ite (hR.peek _ _ _) ?_
  exact .bind (hR.peek _ _ _) fun _ => .bind (hR.getBIBOP _) fun _ => .pure _

theorem shiftHeader_confined (threadId addr newAddr : ℕ) :
    Confines (shiftHeader threadId addr newAddr) := by
  have hR := confined_housekeeping
  unfold shiftHeader
  exact .bind (hR.peek _ _ _) fun _ => .bind (poke_confined _ _ _) fun _ =>
    .bind (poke_confined _ _ _) fun _ => .bind (poke_confined _ _ _) fun _ =>
    .bind (hR.peek _ _ _) fun _ => .bind (poke_confined _ _ _) fun _ =>
    .bind (poke_confined _ _ _) fun _ => poke_confined _ _ _

/-! ## Initialized threads -/

/-- The thread tables of a process all of whose calls went to managers of their own. -/
structure ThreadsOk (h : Heap) : Prop where
  calls : ∀ u ∈ h.calls, u.thread ≠ 0 ∧ h.tls u.thread = ⟨u.thread, u.index⟩
  current : ∀ τ, τ ≠ 0 → (h.tls τ).tid = τ → (h.tls τ).threadId < h.threadBump ∧
    (h.tls τ).threadId < maxThread ∧ ∃ m, h.globalMemoryManager (h.tls τ).threadId = some m
  distinct : ∀ τ τ', τ ≠ 0 → τ' ≠ 0 → (h.tls τ).tid = τ → (h.tls τ').tid = τ' →
    (h.tls τ).threadId = (h.tls τ').threadId → τ = τ'

/-- Every call went to a manager that exists, below `maxThread`, and that belongs to the calling
thread and to no other. -/
def OwnManagers (h : Heap) : Prop :=
  ∀ u ∈ h.calls, h.tls u.thread = ⟨u.thread, u.index⟩ ∧ u.index < maxThread ∧
    (∃ m, h.globalMemoryManager u.index = some m) ∧
    ∀ τ, τ ≠ 0 → (h.tls τ).tid = τ → (h.tls τ).threadId = u.index → τ = u.thread

theorem ThreadsOk.own {h : Heap} (ht : ThreadsOk h) : OwnManagers h := by
  intro u hu
  obtain ⟨hne, htls⟩ := ht.calls u hu
  have htid : (h.tls u.thread).tid = u.thread := by rw [htls]
  obtain ⟨-, hlt, m, hm⟩ := ht.current u.thread hne htid
  rw [htls] at hlt hm
  refine ⟨htls, hlt, ⟨m, hm⟩, fun τ hτ hτ' he => ?_⟩
  exact ht.distinct τ u.thread hτ hne hτ' htid (by rw [he, htls])

theorem ThreadsOk.confined {h h' : Heap} (ht : ThreadsOk h) (hc : Confined h h') :
    ThreadsOk h' := by
  obtain ⟨htls, hbump, hcalls, hman⟩ := hc
  refine ⟨?_, ?_, ?_⟩
  · rw [hcalls, htls]
    exact ht.calls
  · rw [htls, hbump]
    intro τ hτ he
    obtain ⟨h₁, h₂, m, hm⟩ := ht.current τ hτ he
    exact ⟨h₁, h₂, hman _ m hm⟩
  · rw [htls]
    exact ht.distinct

/-- The thread is initialized, and the tables are in order. -/
structure Settled (τ : ℕ) (h : Heap) : Prop where
  ok : ThreadsOk h
  tid : (h.tls τ).tid = τ

/-- The program keeps a settled thread settled. -/
abbrev Settles {α : Type} (τ : ℕ) (m : Proc α) : Prop :=
  Keeps (fun h h' => Settled τ h → Settled τ h') m

namespace Settles

variable {α β : Type} {τ : ℕ}

theorem of_confines {m : Proc α} (hm : Confines m) : Settles τ m :=
  Keeps.imp hm fun _ _ hc hs => ⟨hs.ok.confined hc, by rw [hc.tls]; exact hs.tid⟩

theorem bind {m : Proc α} {f : α → Proc β} (hm : Settles τ m) (hf : ∀ a, Settles τ (f a)) :
    Settles τ (m >>= f) :=
  Keeps.bind (fun _ _ _ h₁ h₂ hs => h₂ (h₁ hs)) hm hf

theorem ite {c : Prop} [Decidable c] {m m' : Proc α} (hm : Settles τ m) (hm' : Settles τ m') :
    Settles τ (if c then m else m') := Keeps.ite hm hm'

theorem pure (a : α) : Settles τ (Pure.pure a : Proc α) := Keeps.pure (fun _ hs => hs) a

theorem throw (e : Halt) : Settles τ (MonadExcept.throw e : Proc α) :=
  Keeps.throw (fun _ hs => hs) e

end Settles

section Settled

variable {τ : ℕ}

theorem getThreadId_settles (hτ : τ ≠ 0) : Settles τ (getThreadId τ) := by
  intro h hs
  refine ⟨⟨fun u hu => ?_, hs.ok.current, hs.ok.distinct⟩, hs.tid⟩
  rcases List.mem_cons.mp hu with rfl | hu
  · have htls : h.tls τ = ⟨(h.tls τ).tid, (h.tls τ).threadId⟩ := rfl
    rw [hs.tid] at htls
    exact ⟨hτ, htls⟩
  · exact hs.ok.calls u hu

theorem ensureThread_eq (τ : ℕ) (h : Heap) :
    ensureThread τ h = if (h.tls τ).tid ≠ τ then initThread τ h else .ok () h := by
  change (if (h.tls τ).tid ≠ τ then initThread τ else pure ()) h = _
  split <;> rfl

/-- The initialization check of an initialized thread does nothing. -/
theorem ensureThread_initialized {h : Heap} (htid : (h.tls τ).tid = τ) :
    ensureThread τ h = .ok () h := by
  rw [ensureThread_eq, if_neg (not_not.mpr htid)]

theorem ensureThread_settles : Settles τ (ensureThread τ) := by
  intro h hs
  rw [ensureThread_initialized hs.tid]
  exact hs

theorem releaseBlock_settles (hτ : τ ≠ 0) (ptr : ℕ) : Settles τ (releaseBlock τ ptr) := by
  have hR := confined_housekeeping
  unfold releaseBlock
  refine .bind (.of_confines (hR.peek _ _ _)) fun _ =>
    .ite (.of_confines (freeHugeMemory_confined _)) ?_
  exact .bind (.of_confines (hR.peek _ _ _)) fun _ => .bind (getThreadId_settles hτ) fun _ =>
    .ite (.of_confines (freeRegularMemory_confined _ _))
      (.of_confines (freeOtherThreadMemory_confined _ _))

/-- `mallocMemory` of the calling thread. -/
theorem malloc_settles (hτ : τ ≠ 0) (size : Word) :
    Settles τ (do mallocMemory (← getThreadId τ) size) :=
  .bind (getThreadId_settles hτ) fun _ => .of_confines (mallocMemory_confined _ _)

theorem cssMalloc_settles (hτ : τ ≠ 0) (size : Word) : Settles τ (cssMalloc τ size) :=
  .bind ensureThread_settles fun _ => malloc_settles hτ size

theorem cssFree_settles (hτ : τ ≠ 0) (ptr : ℕ) : Settles τ (cssFree τ ptr) :=
  .bind ensureThread_settles fun _ => .ite (.pure _) (releaseBlock_settles hτ ptr)

theorem cssRealloc_settles (hτ : τ ≠ 0) (ptr : ℕ) (size : Word) :
    Settles τ (cssRealloc τ ptr size) := by
  have hR := confined_housekeeping
  refine .bind ensureThread_settles fun _ => .ite (malloc_settles hτ size) (.ite ?_ ?_)
  · exact .bind (cssFree_settles hτ ptr) fun _ => .pure _
  · refine .bind (.of_confines (cssMallocUsableSize_confined _)) fun _ => .ite (.pure _) ?_
    exact .bind (getThreadId_settles hτ) fun _ => .bind (.of_confines (mallocMemory_confined _ _))
      fun _ => .bind (.of_confines (hR.peek _ _ _)) fun _ =>
      .bind (.of_confines (poke_confined _ _ _)) fun _ =>
      .bind (releaseBlock_settles hτ ptr) fun _ => .pure _

theorem cssCalloc_settles (hτ : τ ≠ 0) (nmemb size : Word) :
    Settles τ (cssCalloc τ nmemb size) :=
  .bind (getThreadId_settles hτ) fun _ =>
    .bind (.of_confines (mallocMemoryCSI_confined _ _ _ _)) fun _ =>
    .bind (.of_confines (poke_confined _ _ _)) fun _ => .pure _

theorem cssMemalign_settles (hτ : τ ≠ 0) (alignment size : Word) :
    Settles τ (cssMemalign τ alignment size) := by
  unfold cssMemalign
  refine .ite (.bind (.throw _) fun _ => ?_) ?_
  all_goals
    refine .ite (.bind (.throw _) fun _ => ?_) ?_
    all_goals
      exact .bind (getThreadId_settles hτ) fun _ =>
        .bind (.of_confines (mallocMemoryCSI_confined _ _ _ _)) fun _ => .ite (.pure _)
        (.bind (.of_confines (shiftHeader_confined _ _ _)) fun _ => .pure _)

end Settled

/-! ## The first call of a thread -/

/-- **`init_thread`** leaves the thread settled, or ends the process with the tables in order. -/
theorem initThread_ends {τ : ℕ} {h : Heap} (ht : ThreadsOk h) (hτ : τ ≠ 0)
    (htid : (h.tls τ).tid ≠ τ) :
    Ends (initThread τ) h (fun _ h' => Settled τ h') ThreadsOk := by
  have hR := confined_housekeeping
  unfold initThread
  refine .bind ?_
  show Ends _ h _ _
  have hbump : ThreadsOk (h.setThreadBump (h.threadBump + 1)) := by
    refine ⟨ht.calls, fun τ' hτ' he => ?_, ht.distinct⟩
    obtain ⟨h₁, h₂, h₃⟩ := ht.current τ' hτ' he
    exact ⟨Nat.lt_succ_of_lt h₁, h₂, h₃⟩
  refine .bind ?_
  show Ends _ (h.setThreadBump (h.threadBump + 1)) _ _
  refine .bind (.of_keeps (hR.allocateMemoryManager _) ?_ fun h₂ hc => hbump.confined hc)
  intro m h₂ hc
  have ht₂ := hbump.confined hc
  unfold Ends
  by_cases hge : h.threadBump ≥ maxThread
  · rw [if_pos hge]
    exact ht₂
  rw [if_neg hge]
  have hc₃ : Confined h₂ (h₂.setManager h.threadBump m) := hR.setManager _ _ h₂
  have ht₃ := ht₂.confined hc₃
  have htls : h₂.tls = h.tls := hc.tls
  have hold : ∀ τ', τ' ≠ 0 → (h.tls τ').tid = τ' → (h.tls τ').threadId ≠ h.threadBump :=
    fun τ' hτ' he => Nat.ne_of_lt (ht.current τ' hτ' he).1
  show Settled τ ((h₂.setManager h.threadBump m).setThread τ ⟨τ, h.threadBump⟩)
  refine ⟨⟨fun u hu => ?_, fun τ' hτ' he => ?_, fun τ₁ τ₂ h₁ h₂' he₁ he₂ hsame => ?_⟩, by simp⟩
  · obtain ⟨hne, hcall⟩ := ht₃.calls u hu
    have hneτ : u.thread ≠ τ := fun he => by
      rw [Heap.setManager_tls, htls, he] at hcall
      exact htid (by rw [hcall])
    exact ⟨hne, by simpa [hneτ] using hcall⟩
  · by_cases heτ : τ' = τ
    · subst heτ
      refine ⟨?_, by simpa using Nat.lt_of_not_le hge, m, by simp⟩
      have : h₂.threadBump = h.threadBump + 1 := hc.threadBump
      simp [this]
    · simpa [heτ] using ht₃.current τ' hτ' (by simpa [heτ] using he)
  · by_cases heτ₁ : τ₁ = τ <;> by_cases heτ₂ : τ₂ = τ
    · rw [heτ₁, heτ₂]
    · subst heτ₁
      simp only [Heap.setThread_tls, Function.update_self, Function.update_of_ne heτ₂,
        Heap.setManager_tls, htls] at he₂ hsame
      exact absurd hsame.symm (hold τ₂ h₂' he₂)
    · subst heτ₂
      simp only [Heap.setThread_tls, Function.update_self, Function.update_of_ne heτ₁,
        Heap.setManager_tls, htls] at he₁ hsame
      exact absurd hsame (hold τ₁ h₁ he₁)
    · simp only [Heap.setThread_tls, Function.update_of_ne heτ₁, Function.update_of_ne heτ₂] at *
      exact ht₃.distinct τ₁ τ₂ h₁ h₂' he₁ he₂ hsame

theorem ensureThread_ends {τ : ℕ} {h : Heap} (ht : ThreadsOk h) (hτ : τ ≠ 0) :
    Ends (ensureThread τ) h (fun _ h' => Settled τ h') ThreadsOk := by
  by_cases htid : (h.tls τ).tid = τ
  · have hkeep := ensureThread_settles (τ := τ)
    exact .of_keeps hkeep (fun _ _ hs => hs ⟨ht, htid⟩) fun _ hs => (hs ⟨ht, htid⟩).ok
  · have hrun : ensureThread τ h = initThread τ h := by
      rw [ensureThread_eq, if_pos htid]
    unfold Ends
    rw [hrun]
    exact initThread_ends ht hτ htid

/-- An entry point that starts with the initialization check keeps the tables in order. -/
theorem ends_after_ensure {α : Type} {τ : ℕ} {h : Heap} {body : Unit → Proc α}
    (hm : Settles τ (ensureThread τ >>= body)) (ht : ThreadsOk h) (hτ : τ ≠ 0) :
    ThreadsOk (final ((ensureThread τ >>= body) h)) := by
  have hbind : ∀ h' : Heap, (ensureThread τ >>= body) h' = EStateM.bind (ensureThread τ) body h' :=
    fun _ => rfl
  have hensure := ensureThread_ends ht hτ
  unfold Ends at hensure
  rw [hbind, EStateM.bind]
  cases hrun : ensureThread τ h with
  | ok a h' =>
    rw [hrun] at hensure
    -- on the settled thread the whole entry point would run the same body
    have hsettled := hm h' hensure
    rw [hbind, EStateM.bind, ensureThread_initialized hensure.tid] at hsettled
    exact hsettled.ok
  | error e h' =>
    rw [hrun] at hensure
    exact hensure

/-! ## Runs -/

namespace Config

/-- The process after a call, whether it returned or ended the process. -/
def outcome (c : Config) (e : Event) : Heap :=
  match e.op with
  | .malloc size => final (cssMalloc e.thread size c.heap)
  | .calloc nmemb size => final (cssCalloc e.thread nmemb size c.heap)
  | .realloc ptr size => final (cssRealloc e.thread ptr size c.heap)
  | .free ptr => final (cssFree e.thread ptr c.heap)
  | .memalign alignment size => final (cssMemalign e.thread alignment size c.heap)
  | .write ptr offset byte =>
    final (poke (ptr + offset) 1 (writeByte · (ptr + offset) byte) c.heap)

/-- The call finds its thread initialized, or initializes it while managers are left. -/
def InitializedFirst (c : Config) (e : Event) : Prop :=
  match e.op with
  | .malloc _ | .realloc _ _ | .free _ => c.Initialized e.thread ∨ c.heap.threadBump < maxThread
  | .calloc _ _ | .memalign _ _ => c.Initialized e.thread
  | .write _ _ _ => True

instance (c : Config) (e : Event) : Decidable (c.InitializedFirst e) :=
  match e with
  | ⟨τ, .malloc _⟩ | ⟨τ, .realloc _ _⟩ | ⟨τ, .free _⟩ =>
    inferInstanceAs (Decidable (c.Initialized τ ∨ c.heap.threadBump < maxThread))
  | ⟨τ, .calloc _ _⟩ | ⟨τ, .memalign _ _⟩ => inferInstanceAs (Decidable (c.Initialized τ))
  | ⟨_, .write _ _ _⟩ => .isTrue trivial

/-- The call does not run out of manager indices. -/
def HasIndex (c : Config) (τ : ℕ) : Prop := ∀ h, ensureThread τ c.heap ≠ .error .undefined h

/-- The configurations at the end of a run of calls by threads whose system identifiers are not
null, on whatever pointers. -/
def ThreadRun (os : Kernel) : Config → Prop :=
  Transition.Reachable (· = initial os) (fun _ e => e.thread ≠ 0) step

/-- The runs in which each call finds or makes an initialized thread. -/
def InitializedRun (os : Kernel) : Config → Prop :=
  Transition.Reachable (· = initial os) (fun c e => e.thread ≠ 0 ∧ c.InitializedFirst e) step

end Config

/-- **One call** keeps the thread tables in order, also when it ends the process. -/
theorem ThreadsOk.outcome {c : Config} {e : Event} (ht : ThreadsOk c.heap) (hτ : e.thread ≠ 0)
    (hi : c.InitializedFirst e) : ThreadsOk (c.outcome e) := by
  obtain ⟨τ, op⟩ := e
  have hsettled : ∀ {α : Type} {m : Proc α}, Settles τ m → c.Initialized τ →
      ThreadsOk (final (m c.heap)) := fun hm htid => (hm c.heap ⟨ht, htid⟩).ok
  cases op with
  | malloc size => exact ends_after_ensure (cssMalloc_settles hτ size) ht hτ
  | calloc nmemb size => exact hsettled (cssCalloc_settles hτ nmemb size) hi
  | realloc ptr size => exact ends_after_ensure (cssRealloc_settles hτ ptr size) ht hτ
  | free ptr => exact ends_after_ensure (cssFree_settles hτ ptr) ht hτ
  | memalign alignment size => exact hsettled (cssMemalign_settles hτ alignment size) hi
  | write ptr offset byte => exact ht.confined (poke_confined _ _ _ c.heap)

/-- A call that returned left the process its outcome says. -/
theorem Config.step_heap {c c' : Config} {e : Event} (hs : c.step e = some c') :
    c'.heap = c.outcome e := by
  have hreturned : ∀ {α : Type} {r : EStateM.Result Halt Heap α} {live : α → Heap → List Block},
      Config.returned r live = some c' → c'.heap = final r := by
    intro α r live h
    cases r with
    | ok a t => rw [← Option.some.inj h]; rfl
    | error e t => cases h
  obtain ⟨τ, op⟩ := e
  cases op <;> exact hreturned hs

/-- **Every reachable process** has its thread tables in order. -/
theorem Config.InitializedRun.threadsOk {os : Kernel} {c : Config}
    (hr : Config.InitializedRun os c) : ThreadsOk c.heap := by
  refine Transition.Reachable.invariant (I := fun c => ThreadsOk c.heap) hr ?_
    fun c e c' ht ha hs => ?_
  · rintro _ rfl
    exact ⟨by simp [initial], fun τ hτ he => absurd he.symm hτ, fun τ _ hτ _ he => absurd he.symm hτ⟩
  · rw [Config.step_heap hs]
    exact ht.outcome ha.1 ha.2

/-! ## Manager indices -/

/-- Building a manager ends the process only for want of memory. -/
theorem allocateMemoryManager_throws (t : ℕ) :
    Throws (fun e => e ≠ .undefined) (allocateMemoryManager t) := by
  have hmmap : ∀ len, Throws (fun e => e ≠ .undefined) (mmap len) := fun len => by
    refine .bind .get fun h => ?_
    split
    · exact .bind .modify fun _ => .pure _
    · refine .bind .modify fun _ => ?_
      split
      · exact .throw (by simp)
      · exact .pure _
  have hpoke : ∀ a n f, Throws (fun e => e ≠ .undefined) (poke a n f) := fun a n f =>
    .bind .get fun _ => .ite (fun _ => .modify) fun _ => .throw (by simp)
  have hpool : ∀ n, Throws (fun e => e ≠ .undefined) (MemoryPool.allocateMemoryPool n) := fun n =>
    .bind (hmmap _) fun _ => .bind (hpoke _ _ _) fun _ => .bind (hmmap _) fun _ => .pure _
  have hsingle : ∀ a k n, Throws (fun e => e ≠ .undefined)
      (SingleBIBOP.allocateSingleBIBOP a k n) := fun a k n =>
    .bind (hmmap _) fun _ => .ite
      (fun _ => .bind (.throw (by simp)) fun _ => .bind (hpoke _ _ _) fun _ =>
        .bind .modify fun _ => .pure _)
      fun _ => .bind (hpoke _ _ _) fun _ => .bind .modify fun _ => .pure _
  have hglobal : ∀ n objects, Throws (fun e => e ≠ .undefined) (initGlobalBIBOP objects n) := by
    intro n
    induction n with
    | zero => exact fun _ => .pure _
    | succ n ih =>
      intro objects
      exact .bind (hmmap _) fun _ => .bind (hsingle _ _ _) fun _ => ih _
  exact .bind (hmmap _) fun _ => .bind (hpoke _ _ _) fun _ => .bind (hpool _) fun _ =>
    .bind (hpool _) fun _ => .bind (hpoke _ _ _) fun _ => .bind (hglobal _ _) fun _ => .pure _

theorem Config.hasIndex {c : Config} {τ : ℕ}
    (hi : c.Initialized τ ∨ c.heap.threadBump < maxThread) : c.HasIndex τ := by
  intro h hrun
  by_cases htid : c.Initialized τ
  · rw [ensureThread_initialized htid] at hrun
    cases hrun
  have hlt := hi.resolve_left htid
  have hinit : ensureThread τ c.heap = initThread τ c.heap :=
    (ensureThread_eq τ c.heap).trans (if_pos htid)
  have hprogram : initThread τ c.heap = EStateM.bind (allocateMemoryManager c.heap.threadBump)
      (fun m => if c.heap.threadBump ≥ maxThread then throw .undefined else do
        setManager c.heap.threadBump m
        modify fun h => h.setThread τ { tid := τ, threadId := c.heap.threadBump })
      (c.heap.setThreadBump (c.heap.threadBump + 1)) := rfl
  rw [hinit, hprogram, EStateM.bind] at hrun
  cases hm : allocateMemoryManager c.heap.threadBump
    (c.heap.setThreadBump (c.heap.threadBump + 1)) with
  | ok m h₂ =>
    rw [hm] at hrun
    simp only [if_neg (Nat.not_le.mpr hlt)] at hrun
    cases hrun
  | error e h₂ =>
    rw [hm] at hrun
    cases hrun
    exact allocateMemoryManager_throws _ _ _ _ hm rfl

/-- **Threads go to their own managers**: in every run in which each call finds its thread
initialized or initializes it while managers are left, every call so far, and every further one
whether it returns or ends the process, goes to the manager of its own thread only, and an
initialization finds an index. -/
theorem threads_own_their_managers {os : Kernel} {c : Config} (hr : Config.InitializedRun os c) :
    OwnManagers c.heap ∧
      (∀ e, e.thread ≠ 0 → c.InitializedFirst e → OwnManagers (c.outcome e)) ∧
      ∀ τ, c.Initialized τ ∨ c.heap.threadBump < maxThread → c.HasIndex τ := by
  have ht := hr.threadsOk
  exact ⟨ht.own, fun e hτ hi => (ht.outcome hτ hi).own, fun τ hi => Config.hasIndex hi⟩

/-- Two threads, each with a first call that initializes it. -/
theorem threads_own_their_managers_pair :
    ∃ c, Config.InitializedRun (bumpKernel 0 .excluded) c ∧
      c.heap.calls = [⟨2, 1⟩, ⟨2, 1⟩, ⟨1, 0⟩] ∧ OwnManagers c.heap := by
  have hrun : ((Transition.exec (fun c e => e.thread ≠ 0 ∧ c.InitializedFirst e) Config.step
      (Config.initial (bumpKernel 0 .excluded))
      [⟨1, .malloc 24⟩, ⟨2, .malloc 24⟩, ⟨2, .calloc 3 8⟩]).map fun c => c.heap.calls) =
      some [⟨2, 1⟩, ⟨2, 1⟩, ⟨1, 0⟩] := by decide +kernel
  obtain ⟨c, hc, hcalls⟩ := Option.map_eq_some_iff.mp hrun
  have hr : Config.InitializedRun (bumpKernel 0 .excluded) c := .of_exec (.start rfl) hc
  exact ⟨c, hr, hcalls, (threads_own_their_managers hr).1⟩

/-- A thread whose first call is `css_calloc` goes to the manager of another thread. -/
theorem calloc_goes_to_foreign_manager :
    ∃ c, Config.ThreadRun (bumpKernel 0 .excluded) c ∧ ¬ OwnManagers c.heap := by
  have hrun : ((Transition.exec (fun _ e => e.thread ≠ 0) Config.step
      (Config.initial (bumpKernel 0 .excluded))
      [⟨1, .malloc 24⟩, ⟨2, .calloc 3 8⟩]).map fun c => (c.heap.calls, (c.heap.tls 2).tid)) =
      some ([⟨2, 0⟩, ⟨1, 0⟩], 0) := by decide +kernel
  obtain ⟨c, hc, heq⟩ := Option.map_eq_some_iff.mp hrun
  obtain ⟨hcalls, htid⟩ := Prod.mk.inj heq
  refine ⟨c, .of_exec (.start rfl) hc, fun hown => ?_⟩
  have htls := (hown ⟨2, 0⟩ (by simp [hcalls])).1
  rw [htls] at htid
  cases htid

end Semalloc
