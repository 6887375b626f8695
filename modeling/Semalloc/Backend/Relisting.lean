import Semalloc.Backend.Threads

/-!
# Programs that do not look at the remote free lists

Only the drain and the remote free read or move the head of a remote free list. Every other program
does the same whatever those heads are, and leaves them alone. So a process may be looked at with
all its remote free lists empty, and what a program does there is what it does in the process itself.

## Main definitions

* `Heap.heads`, `Heap.relist`, `Heap.mute`: the heads, other heads, and no heads at all
* `Relists`, `Oblivious`: what a program does, or another one does, with other heads
* `Drained`: the function drains its list first

## Main results

* `allocateRegular_oblivious`, …: the functions of the managers
* `ensureThread_relist`: a new manager starts with an empty list
* `Oblivious.spec`, `Drained.spec`: specifications from the muted process
-/

set_option autoImplicit false

namespace Semalloc

open ByteMemory Region Effect MemoryManager

variable {h h' : Heap} {f : ℕ → ℕ} {t : ℕ} {α : Type}

namespace Heap

/-- The head of the remote free list of a manager. -/
def heads (h : Heap) (t : ℕ) : ℕ := ((h.globalMemoryManager t).map MemoryManager.freeList).getD 0

/-- The process with other heads of its remote free lists. -/
@[simps -fullyApplied] def relist (h : Heap) (f : ℕ → ℕ) : Heap :=
  { h with
    globalMemoryManager := fun t =>
      (h.globalMemoryManager t).map fun m => { m with freeList := f t } }

/-- The process with all its remote free lists empty. -/
def mute (h : Heap) : Heap := h.relist fun _ => 0

theorem heads_eq {m : MemoryManager} (hm : h.globalMemoryManager t = some m) :
    h.heads t = m.freeList := by
  simp [heads, hm]

theorem heads_of_none (hm : h.globalMemoryManager t = none) : h.heads t = 0 := by
  simp [heads, hm]

theorem relist_relist (h : Heap) (f f' : ℕ → ℕ) : (h.relist f).relist f' = h.relist f' := by
  have hsame : ((h.relist f).relist f').globalMemoryManager =
      (h.relist f').globalMemoryManager := by
    funext t
    simp only [relist_globalMemoryManager, Option.map_map]
    rfl
  exact congrArg (fun managers => { h with globalMemoryManager := managers }) hsame

theorem relist_heads (h : Heap) : h.relist h.heads = h := by
  have hsame : (h.relist h.heads).globalMemoryManager = h.globalMemoryManager := by
    funext t
    rcases hm : h.globalMemoryManager t with - | m
    · simp [hm]
    · simp [hm, heads_eq hm]
  exact congrArg (fun managers => { h with globalMemoryManager := managers }) hsame

theorem mute_relist (h : Heap) : h.mute.relist h.heads = h := by
  rw [mute, relist_relist, relist_heads]

theorem mute_mute (h : Heap) : h.mute.mute = h.mute := relist_relist h _ _

theorem relist_mute (h : Heap) (f : ℕ → ℕ) : (h.relist f).mute = h.mute := relist_relist h _ _

theorem manager_relist {m : MemoryManager} (hm : h.globalMemoryManager t = some m) :
    (h.relist f).globalMemoryManager t = some { m with freeList := f t } := by
  simp [hm]

theorem manager_of_relist {m' : MemoryManager}
    (hm : (h.relist f).globalMemoryManager t = some m') :
    ∃ m, h.globalMemoryManager t = some m ∧ m' = { m with freeList := f t } := by
  obtain ⟨m, hm', rfl⟩ := Option.map_eq_some_iff.mp hm
  exact ⟨m, hm', rfl⟩

theorem setManager_relist (h : Heap) (t : ℕ) (m : MemoryManager) :
    (h.setManager t m).relist f = (h.relist f).setManager t { m with freeList := f t } := by
  have hsame : ((h.setManager t m).relist f).globalMemoryManager =
      ((h.relist f).setManager t { m with freeList := f t }).globalMemoryManager := by
    funext t'
    by_cases htt : t' = t
    · subst htt
      simp
    · simp [htt]
  exact congrArg (fun managers => { h with globalMemoryManager := managers }) hsame

end Heap

/-- `m'` does with other heads what `m` does. -/
abbrev Relists (f : ℕ → ℕ) (m m' : Proc α) : Prop := Mirrors (fun h => h.relist f) m m'

/-- The program does the same with other heads. -/
abbrev Oblivious (f : ℕ → ℕ) (m : Proc α) : Prop := Relists f m m

/-! ## The machine -/

theorem peek_oblivious (a n : ℕ) (r : ByteMemory → α) : Oblivious f (peek a n r) :=
  .get_bind fun h => by
    by_cases hc : covers h.maps a n = true
    · simp only [Heap.relist_maps, Heap.relist_mem, if_pos hc]
      rfl
    · simp only [Heap.relist_maps, if_neg hc]
      rfl

theorem poke_oblivious (a n : ℕ) (w : ByteMemory → ByteMemory) :
    Oblivious f (poke a n w) :=
  .get_bind fun h => by
    by_cases hc : covers h.maps a n = true
    · simp only [Heap.relist_maps, if_pos hc]
      rfl
    · simp only [Heap.relist_maps, if_neg hc]
      rfl

theorem mmap_oblivious (len : ℕ) : Oblivious f (mmap len) :=
  .get_bind fun h => by
    simp only [Heap.relist_os, Heap.relist_mmapCount, Heap.relist_maps]
    cases h.os.mmap h.mmapCount h.maps len with
    | some a => rfl
    | none =>
      cases h.os.failure with
      | excluded => rfl
      | returned => rfl

theorem munmap_oblivious (a len : ℕ) : Oblivious f (munmap a len) :=
  .ite (.modify fun _ => rfl) (.pure _)

theorem madvise_oblivious (a len : ℕ) : Oblivious f (madvise a len) :=
  .ite (.modify fun _ => rfl) (.pure _)

theorem getBIBOP_oblivious (b : ℕ) : Oblivious f (getBIBOP b) :=
  .get_bind fun h => by
    simp only [Heap.relist_bibops]
    cases h.bibops b <;> rfl

theorem setBIBOP_oblivious (b : ℕ) (B : SingleBIBOP) : Oblivious f (setBIBOP b B) :=
  .modify fun _ => rfl

theorem serve_oblivious (origin : Origin) (base len ptr : ℕ) :
    Oblivious f (serve origin base len ptr) := .modify fun _ => rfl

theorem getManager_of_some {m : MemoryManager} (hm : h.globalMemoryManager t = some m) :
    getManager t h = .ok m h := by
  unfold getManager
  rw [run_get, hm]
  rfl

theorem getManager_of_none (hm : h.globalMemoryManager t = none) :
    getManager t h = .error .undefined h := by
  unfold getManager
  rw [run_get, hm]
  rfl

/-- A manager is read with another head. -/
theorem getManager_relists {k k' : MemoryManager → Proc α}
    (hk : ∀ m, Relists f (k m) (k' { m with freeList := f t })) :
    Relists f (getManager t >>= k) (getManager t >>= k') := by
  intro h
  change EStateM.bind (getManager t) k' (h.relist f) =
    mapState _ (EStateM.bind (getManager t) k h)
  unfold EStateM.bind
  rcases hm : h.globalMemoryManager t with - | m
  · rw [getManager_of_none hm, getManager_of_none (by simp [hm])]
    rfl
  · rw [getManager_of_some hm, getManager_of_some (Heap.manager_relist hm)]
    exact hk m h

/-- A manager is written with another head. -/
theorem setManager_relists {m m' : MemoryManager} (hm : m' = { m with freeList := f t }) :
    Relists f (setManager t m) (setManager t m') :=
  .modify fun h => by rw [hm, Heap.setManager_relist]

/-! ## BIBOPs and pools -/

theorem allocateObject_oblivious (b : ℕ) :
    Oblivious f (SingleBIBOP.allocateObject b) := by
  unfold SingleBIBOP.allocateObject
  refine .bind (getBIBOP_oblivious b) fun B => .ite ?_ ?_
  · exact .bind (peek_oblivious _ _ _) fun _ => .bind (setBIBOP_oblivious _ _) fun _ => .pure _
  · exact .bind (setBIBOP_oblivious _ _) fun _ => .ite (.pure _) (.pure _)

theorem freeObject_oblivious (b ptr : ℕ) :
    Oblivious f (SingleBIBOP.freeObject b ptr) := by
  unfold SingleBIBOP.freeObject
  exact .bind (getBIBOP_oblivious b) fun _ => .bind (poke_oblivious _ _ _) fun _ =>
    .bind (setBIBOP_oblivious _ _) fun _ => .ite (madvise_oblivious _ _) (.pure _)

theorem freeGlobalObject_oblivious (ptr : ℕ) :
    Oblivious f (GlobalBIBOP.freeGlobalObject ptr) := by
  unfold GlobalBIBOP.freeGlobalObject
  exact .bind (peek_oblivious _ _ _) fun _ => .bind (getBIBOP_oblivious _) fun _ =>
    .ite (madvise_oblivious _ _) (.pure _)

theorem allocateSingleBIBOP_oblivious (base objectSize capacity : ℕ) :
    Oblivious f (SingleBIBOP.allocateSingleBIBOP base objectSize capacity) := by
  unfold SingleBIBOP.allocateSingleBIBOP
  refine .bind (mmap_oblivious _) fun sb => .ite (.bind (.throw _) fun _ => ?_) ?_
  all_goals
    exact .bind (poke_oblivious _ _ _) fun _ => .bind (setBIBOP_oblivious _ _) fun _ => .pure _

theorem allocateMemoryPool_oblivious (size : ℕ) :
    Oblivious f (MemoryPool.allocateMemoryPool size) := by
  unfold MemoryPool.allocateMemoryPool
  exact .bind (mmap_oblivious _) fun _ => .bind (poke_oblivious _ _ _) fun _ =>
    .bind (mmap_oblivious _) fun _ => .pure _

/-! ## The managers -/

theorem acquireIndividualDataPool_oblivious (this : ℕ) :
    Oblivious f (acquireIndividualDataPool this) := by
  unfold acquireIndividualDataPool
  refine getManager_relists fun m => .bind (setManager_relists rfl) fun _ => .ite ?_ (.pure _)
  refine getManager_relists fun _ => .bind (setManager_relists rfl) fun _ =>
    .ite (.bind (.throw _) fun _ => ?_) ?_
  all_goals
    exact .bind (allocateMemoryPool_oblivious _) fun _ => getManager_relists fun _ =>
      .bind (setManager_relists rfl) fun _ => .pure _

theorem allocateIndividualBIBOP_oblivious (this objectSize : ℕ) :
    Oblivious f (allocateIndividualBIBOP this objectSize) := by
  unfold allocateIndividualBIBOP
  exact getManager_relists fun _ => .bind (setManager_relists rfl) fun _ =>
    .bind (acquireIndividualDataPool_oblivious _) fun _ => .bind (poke_oblivious _ _ _) fun _ =>
    .bind (setBIBOP_oblivious _ _) fun _ => .pure _

theorem enterIndividualBIBOP_oblivious (this index k : ℕ) (CSI : Word) :
    Oblivious f (enterIndividualBIBOP this index k CSI) := by
  unfold enterIndividualBIBOP
  exact .bind (allocateIndividualBIBOP_oblivious _ _) fun _ => getManager_relists fun _ =>
    .bind (setManager_relists rfl) fun _ => .pure _

theorem probeIndividualBIBOP_oblivious (this : ℕ) (CSI : Word) (k n : ℕ) :
    Oblivious f (probeIndividualBIBOP this CSI k n) := by
  induction n with
  | zero => exact .throw _
  | succ n ih =>
    unfold probeIndividualBIBOP
    refine getManager_relists fun _ => .ite (.ite (.pure _) ?_) (.ite ?_ ih)
    all_goals exact enterIndividualBIBOP_oblivious _ _ _ _

theorem probeLazyPool_oblivious (this : ℕ) (CSI : Word) (n : ℕ) :
    Oblivious f (probeLazyPool this CSI n) := by
  induction n with
  | zero => exact .throw _
  | succ n ih =>
    unfold probeLazyPool
    refine getManager_relists fun _ => .ite (.ite ?_ (.pure _)) (.ite ?_ ih)
    all_goals exact .bind (setManager_relists rfl) fun _ => .pure _

theorem allocateFrom_oblivious (this b : ℕ) :
    Oblivious f (allocateFrom this b) := by
  unfold allocateFrom
  refine .bind (allocateObject_oblivious _) fun _ => .ite ?_ (.pure _)
  exact .bind (acquireIndividualDataPool_oblivious _) fun _ =>
    .bind (.bind (getBIBOP_oblivious _) fun _ => setBIBOP_oblivious _ _) fun _ =>
    allocateObject_oblivious _

theorem allocateHuge_oblivious (size : Word) : Oblivious f (allocateHuge size) := by
  unfold allocateHuge
  refine .bind (mmap_oblivious _) fun _ => .ite (.bind (.throw _) fun _ => ?_) ?_
  all_goals
    exact .bind (poke_oblivious _ _ _) fun _ => .bind (poke_oblivious _ _ _) fun _ =>
      .bind (serve_oblivious _ _ _ _) fun _ => .pure _

theorem freeHugeMemory_oblivious (ptr : ℕ) :
    Oblivious f (freeHugeMemory ptr) := by
  unfold freeHugeMemory
  exact .bind (peek_oblivious _ _ _) fun _ => munmap_oblivious _ _

theorem allocateRegular_oblivious (this realSize : ℕ) (CSI : Word) (inLoop : Bool) :
    Oblivious f (allocateRegular this realSize CSI inLoop) := by
  have hindividual : Oblivious f (allocateIndividual this realSize CSI) := by
    unfold allocateIndividual
    exact .bind (probeIndividualBIBOP_oblivious _ _ _ _) fun _ =>
      .bind (allocateFrom_oblivious _ _) fun _ => getManager_relists fun _ =>
      .bind (poke_oblivious _ _ _) fun _ => .bind (serve_oblivious _ _ _ _) fun _ => .pure _
  have hglobal : Oblivious f (allocateGlobal this realSize) := by
    unfold allocateGlobal
    exact getManager_relists fun _ => .bind (allocateFrom_oblivious _ _) fun _ =>
      getManager_relists fun _ => .bind (poke_oblivious _ _ _) fun _ =>
      .bind (serve_oblivious _ _ _ _) fun _ => .pure _
  unfold allocateRegular
  refine .ite (.bind (.bind (probeLazyPool_oblivious _ _ _) fun _ => .pure _) fun _ => ?_)
    (.bind (.pure _) fun _ => ?_)
  all_goals exact .ite hindividual hglobal

theorem cssMallocUsableSize_oblivious (ptr : ℕ) :
    Oblivious f (cssMallocUsableSize ptr) := by
  unfold cssMallocUsableSize
  refine .bind (peek_oblivious _ _ _) fun _ => .ite (peek_oblivious _ _ _) ?_
  exact .bind (peek_oblivious _ _ _) fun _ => .bind (getBIBOP_oblivious _) fun _ => .pure _

theorem allocateMemoryManager_oblivious (t : ℕ) : Oblivious f (allocateMemoryManager t) := by
  have hglobal : ∀ n objects, Oblivious f (initGlobalBIBOP objects n) := by
    intro n
    induction n with
    | zero => exact fun _ => .pure _
    | succ n ih =>
      intro objects
      unfold initGlobalBIBOP
      exact .bind (mmap_oblivious _) fun _ => .bind (allocateSingleBIBOP_oblivious _ _ _)
        fun _ => ih _
  unfold allocateMemoryManager
  exact .bind (mmap_oblivious _) fun _ => .bind (poke_oblivious _ _ _) fun _ =>
    .bind (allocateMemoryPool_oblivious _) fun _ => .bind (allocateMemoryPool_oblivious _) fun _ =>
    .bind (poke_oblivious _ _ _) fun _ => .bind (hglobal _ _) fun _ => .pure _

theorem allocateMemoryManager_freeList (t : ℕ) (h : Heap) :
    Spec (allocateMemoryManager t) h (fun m _ => m.freeList = 0) fun _ => True := by
  unfold allocateMemoryManager
  refine Spec.seq Spec.trivial fun _ _ _ => Spec.seq Spec.trivial fun _ _ _ => ?_
  refine Spec.seq Spec.trivial fun _ _ _ => Spec.seq Spec.trivial fun _ _ _ => ?_
  refine Spec.seq Spec.trivial fun _ _ _ => Spec.seq Spec.trivial fun _ _ _ => ?_
  exact Spec.pure rfl

/-- A new manager gets no head, so it does not matter either when none is waiting for it. -/
theorem initThread_relist (τ : ℕ) (hf : f h.threadBump = 0) :
    initThread τ (h.relist f) = mapState (·.relist f) (initThread τ h) := by
  have hrest : ∀ t, f t = 0 → Oblivious f (do
      modify fun h => h.setThreadBump (h.threadBump + 1)
      let m ← allocateMemoryManager t
      if t ≥ maxThread then throw .undefined
      setManager t m
      modify fun h => h.setThread τ { tid := τ, threadId := t }) := by
    intro t ht
    refine .bind (.modify fun _ => rfl) fun _ =>
      .bind_of (allocateMemoryManager_freeList t) (allocateMemoryManager_oblivious t) ?_
    intro m hm
    have hset : Oblivious f (setManager t m) := setManager_relists (by rw [ht, ← hm])
    exact .ite (.bind (.throw _) fun _ => .bind hset fun _ => .modify fun _ => rfl)
      (.bind hset fun _ => .modify fun _ => rfl)
  exact hrest h.threadBump hf h

theorem ensureThread_relist (τ : ℕ) (hf : f h.threadBump = 0) :
    ensureThread τ (h.relist f) = mapState (·.relist f) (ensureThread τ h) := by
  rw [ensureThread_eq, ensureThread_eq, Heap.relist_tls]
  by_cases he : (h.tls τ).tid ≠ τ
  · rw [if_pos he, if_pos he]
    exact initThread_relist τ hf
  · rw [if_neg he, if_neg he]
    rfl

/-! ## What follows the drain -/

/-- The function drains the remote free list of its manager and does not look at it again. -/
def Drained (this : ℕ) (m : Proc α) : Prop :=
  ∃ rest : Proc α, m = (handleFreeList this >>= fun _ => rest) ∧ ∀ f, Oblivious f rest

theorem mallocMemory_drained (this : ℕ) (size : Word) : Drained this (mallocMemory this size) := by
  unfold mallocMemory
  refine ⟨_, rfl, fun f => .ite (allocateHuge_oblivious _) ?_⟩
  exact .ite (.pure _) (.ite (allocateHuge_oblivious _) (allocateRegular_oblivious _ _ _ _))

theorem mallocMemoryCSI_drained (this : ℕ) (realSize CSI : Word) (inLoop : Bool) :
    Drained this (mallocMemoryCSI this realSize CSI inLoop) := by
  unfold mallocMemoryCSI
  refine ⟨_, rfl, fun f => .ite (.pure _) ?_⟩
  exact .ite (allocateHuge_oblivious _) (allocateRegular_oblivious _ _ _ _)

theorem freeRegularMemory_drained (this ptr : ℕ) : Drained this (freeRegularMemory this ptr) := by
  unfold freeRegularMemory
  refine ⟨_, rfl, fun f => .ite (.pure _) <|
    .bind (peek_oblivious _ _ _) fun _ => .ite (.bind (.throw _) fun _ => ?_) ?_⟩
  all_goals
    refine .bind (peek_oblivious _ _ _) fun _ => .bind (peek_oblivious _ _ _) fun _ =>
      .bind (peek_oblivious _ _ _) fun _ => .ite ?_ ?_
    · exact .bind (freeGlobalObject_oblivious _) fun _ => poke_oblivious _ _ _
    · exact .bind (freeObject_oblivious _ _) fun _ => poke_oblivious _ _ _

/-- An empty list is drained at once. -/
theorem handleFreeList_of_empty {m : MemoryManager} (hm : h.globalMemoryManager t = some m)
    (he : m.freeList = 0) : handleFreeList t h = .ok () h := by
  unfold handleFreeList drainFreeList
  change EStateM.bind (getManager t) _ h = _
  unfold EStateM.bind
  rw [getManager_of_some hm]
  exact congrFun (if_pos he) h

/-! ## From the muted process -/

section Muted

variable {m : Proc α} {post : α → Heap → Prop} {halt : Halt → Prop}

/-- What a program does in the muted process, it does in the process itself. -/
theorem muted_spec (hown : m h = mapState (·.relist h.heads) (m h.mute))
    (hmute : m h.mute = mapState Heap.mute (m h.mute)) (hs : Spec m h.mute post halt) :
    Spec m h (fun a h' => m h.mute = .ok a h'.mute ∧ post a h'.mute ∧
      h' = h'.mute.relist h.heads) halt := by
  unfold Spec at hs ⊢
  rw [hown]
  rcases hrun : m h.mute with ⟨a, t⟩ | ⟨e, t⟩
  · rw [hrun] at hs hmute
    have hfix : t = t.mute := by injection hmute
    have hback : (t.relist h.heads).mute = t := by rw [Heap.relist_mute, ← hfix]
    refine ⟨?_, ?_, ?_⟩
    · rw [hback]
    · rw [hback]
      exact hs
    · rw [hback]
  · rw [hrun] at hs
    exact hs

theorem Oblivious.spec (hm : ∀ f, Oblivious f m) (hs : Spec m h.mute post halt) :
    Spec m h (fun a h' => m h.mute = .ok a h'.mute ∧ post a h'.mute ∧
      h' = h'.mute.relist h.heads) halt := by
  refine muted_spec ?_ ?_ hs
  · have hrun := hm h.heads h.mute
    dsimp only at hrun
    rwa [Heap.mute_relist] at hrun
  · have hrun := hm (fun _ => 0) h.mute
    change m h.mute.mute = _ at hrun
    rwa [Heap.mute_mute] at hrun

/-- What a function that starts with the drain does, from what it does in the muted process after
the drain. -/
theorem Drained.spec {Q : Heap → Prop} (hd : Drained t m)
    (hdrain : Spec (handleFreeList t) h (fun _ h₁ => Q h₁) fun _ => True)
    (hQ : ∀ h₁, Q h₁ → ∃ mm, h₁.globalMemoryManager t = some mm) :
    Spec m h (fun a h' => ∃ h₁, Q h₁ ∧ m h₁.mute = .ok a h'.mute ∧
      h' = h'.mute.relist h₁.heads) fun _ => True := by
  obtain ⟨rest, rfl, hrest⟩ := hd
  refine Spec.seq hdrain fun _ h₁ hQ₁ => ?_
  obtain ⟨mm, hmm⟩ := hQ h₁ hQ₁
  have hempty : handleFreeList t h₁.mute = .ok () h₁.mute :=
    handleFreeList_of_empty (Heap.manager_relist hmm) rfl
  have hsame : (handleFreeList t >>= fun _ => rest) h₁.mute = rest h₁.mute := by
    change EStateM.bind (handleFreeList t) _ h₁.mute = _
    unfold EStateM.bind
    rw [hempty]
  have hmuted : Spec rest h₁.mute (fun _ _ => True) fun _ => True := Spec.trivial
  refine (Oblivious.spec hrest hmuted).imp ?_
  rintro a h' ⟨hrun, -, hrelist⟩
  exact ⟨h₁, hQ₁, hsame.trans hrun, hrelist⟩

end Muted

end Semalloc
