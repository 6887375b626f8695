import Semalloc.Backend.AllocationSpec

/-!
# Specifications of thread creation

The first call of a thread builds its manager: two pools, and a global BIBOP for each size class.

## Main results

* `initGlobalBIBOP_spec`, `allocateMemoryManager_spec`: the manager
* `ensureThread_spec`: afterwards the thread is initialized and its manager exists
-/

set_option autoImplicit false

namespace Semalloc

open ByteMemory Region Effect MemoryManager

variable {P : Promise} {g : Ghost} {live : List Block} {h h' : Heap} {own own' : ℕ → Owner}
  {reg : ℕ → Option Compartment}

/-- Bytes keep their owners, unless the allocator held them. -/
def Retains (own own' : ℕ → Owner) : Prop :=
  ∀ a, own a ≠ .nobody → own a ≠ .fresh → own' a = own a

namespace Retains

theorem refl (own : ℕ → Owner) : Retains own own := fun _ _ _ => rfl

theorem trans {own'' : ℕ → Owner} (h : Retains own own') (h' : Retains own' own'') :
    Retains own own'' := by
  intro a h₁ h₂
  have he := h a h₁ h₂
  rw [h' a (by rw [he]; exact h₁) (by rw [he]; exact h₂), he]

theorem relabel {r : Region} {o o₀ : Owner} (hR : ∀ a, r.Contains a → own a = o₀)
    (ho : o₀ = .nobody ∨ o₀ = .fresh) : Retains own (relabel own r o) := by
  intro a h₁ h₂
  refine relabel_of_ne hR rfl fun he => ?_
  rcases ho with ho | ho
  · exact h₁ (he.trans ho)
  · exact h₂ (he.trans ho)

theorem pool (h : Retains own own') {o : Owner} {p : MemoryPool} (hp : PoolOk own o p)
    (h₁ : o ≠ .nobody) (h₂ : o ≠ .fresh) : PoolOk own' o p :=
  ⟨hp.base_pos, hp.bump_le, hp.top, fun a ha ha' => by
    have ho := hp.own a ha ha'
    rw [h a (by rw [ho]; exact h₁) (by rw [ho]; exact h₂), ho]⟩

end Retains

/-- The parts of the process that building a manager leaves alone. -/
structure SameThreads (h h' : Heap) : Prop where
  manager : h'.globalMemoryManager = h.globalMemoryManager
  threadBump : h'.threadBump = h.threadBump
  tls : h'.tls = h.tls

theorem SameThreads.trans {h₁ h₂ : Heap} (ha : SameThreads h h₁) (hb : SameThreads h₁ h₂) :
    SameThreads h h₂ :=
  ⟨hb.manager.trans ha.manager, hb.threadBump.trans ha.threadBump, hb.tls.trans ha.tls⟩

/-- What building a part of a manager leaves. -/
structure Built (P : Promise) (g : Ghost) (h : Heap) (live : List Block) (g' : Ghost)
    (h' : Heap) : Prop where
  after : After P Spared g h live g' h'
  retains : Retains g.own g'.own
  threads : SameThreads h h'

theorem Built.trans {g₁ g₂ : Ghost} {h₁ h₂ : Heap} (ha : Built P g h live g₁ h₁)
    (hb : Built P g₁ h₁ live g₂ h₂) : Built P g h live g₂ h₂ :=
  ⟨ha.after.trans hb.after, ha.retains.trans hb.retains, ha.threads.trans hb.threads⟩

/-- A mapping for the allocator. -/
theorem Inv.build_mmap (hi : Inv P g live h) (hready : Ready h) {a len : ℕ}
    (hf : Fresh h.maps a len) :
    Built P g h live (g.relabel ⟨a, pageCeil len⟩ .fresh) (h.addMapping a len) := by
  obtain ⟨hi₁, hg₁⟩ := hi.mmap (x := Spared) hf
  exact ⟨⟨hi₁, hready, hg₁⟩, Retains.relabel (fun _ hy => hi.layout.fresh_own hf hy) (.inl rfl),
    rfl, rfl, rfl⟩

/-- A range the allocator held gets an owner. -/
theorem Inv.build_assign (hi : Inv P g live h) (hready : Ready h) {r : Region} {o : Owner}
    (hR : ∀ a, r.Contains a → g.own a = .fresh) (ho : ∀ b s, o ≠ .slot b s) :
    Built P g h live (g.relabel r o) h := by
  obtain ⟨hi₁, hg₁⟩ := hi.assign (x := Spared) hR ho
  exact ⟨⟨hi₁, hready, hg₁⟩, Retains.relabel hR (.inr rfl), rfl, rfl, rfl⟩

/-! ## The global BIBOPs -/

/-- **`AllocateSingleBIBOP`** makes a BIBOP of a chunk, in a mapping of its own. -/
theorem allocateSingleBIBOP_spec {a n i : ℕ} {c : Compartment} (hi : Inv P g live h)
    (hready : Ready h) (hc : Chunk g.own a n) (ht : c.thread < maxThread)
    (hi' : c.sizeClass = i) (hk : i < globalBagN) :
    Spec (SingleBIBOP.allocateSingleBIBOP a (minBagSize <<< i) n) h
      (fun sb h' => ∃ g', Built P g h live g' h' ∧ g'.reg sb = some c) Halt.NoRoom := by
  unfold SingleBIBOP.allocateSingleBIBOP
  refine Spec.bind (mmap_spec hi.layout.excluded trivial fun sb hsb => ?_)
  refine Spec.ite (fun _ => Spec.bind (Spec.throw trivial)) fun _ => ?_
  refine Spec.bind (poke_spec (.inl (covers_addMapping sb 40)) fun _ => ?_)
  refine Spec.bind (setBIBOP_spec (Spec.pure ?_))
  have hb₁ := hi.build_mmap hready hsb
  have hnobody := fun y => hi.layout.fresh_own hsb (y := y)
  have htop := hsb.2.2.2.1
  have hpage := le_pageCeil 40
  have hself : Region.Contains ⟨sb, pageCeil 40⟩ sb := ⟨le_rfl, by simp only; omega⟩
  have hnone := hb₁.after.inv.layout.unregistered (b := sb) (relabel_inside hself)
  -- the object's page, and nothing of the chunk, becomes metadata
  have hb₂ := hb₁.after.inv.build_assign hready (r := ⟨sb, pageCeil 40⟩) (o := .metadata)
    (fun y hy => relabel_inside hy) (by simp)
  have hc₂ : Chunk ((g.relabel ⟨sb, pageCeil 40⟩ .fresh).relabel ⟨sb, pageCeil 40⟩
      .metadata).own a n := by
    refine ⟨hc.aligned, hc.pos, hc.top, fun y h₁ h₂ => ?_⟩
    have hout := not_contains_of_ne hnobody (hc.own y h₁ h₂) (by simp)
    exact (relabel_outside hout).trans ((relabel_outside hout).trans (hc.own y h₁ h₂))
  have hcreate := hb₂.after.inv.create hready (b := sb) (c := c) (k := i) hnone
    (relabel_inside hself) (by omega) hi' hk ht hc₂
  have hb₃ : Built P _ _ live _ _ :=
    ⟨hcreate, Retains.relabel (fun y hy => hc₂.own y hy.1 hy.2) (.inr rfl), rfl, rfl, rfl⟩
  exact ⟨_, (hb₁.trans hb₂).trans hb₃, by simp⟩

/-- **`InitGlobalBIBOP`** makes a BIBOP for each size class from `globalBagN - n` up. -/
theorem initGlobalBIBOP_spec {t n : ℕ} {objects : ℕ → ℕ} (hi : Inv P g live h)
    (hready : Ready h) (ht : t < maxThread) (hn : n ≤ globalBagN)
    (hobjects : ∀ k, k < globalBagN - n → g.reg (objects k) = some ⟨t, none, k⟩) :
    Spec (initGlobalBIBOP objects n) h
      (fun objects' h' => ∃ g', Built P g h live g' h' ∧
        ∀ k, k < globalBagN → g'.reg (objects' k) = some ⟨t, none, k⟩) Halt.NoRoom := by
  induction n generalizing g h objects with
  | zero => exact Spec.pure ⟨g, ⟨⟨hi, hready, .refl _ _ _⟩, .refl _, rfl, rfl, rfl⟩, hobjects⟩
  | succ n ih =>
    unfold initGlobalBIBOP
    dsimp only
    refine Spec.bind (mmap_spec hi.layout.excluded trivial fun a ha => ?_)
    have hb₁ := hi.build_mmap hready ha
    obtain ⟨-, halign, hpage, htop, -⟩ := ha
    have hceil : pageCeil globalSingleBIBOPSize = globalSingleBIBOPSize :=
      pageCeil_of_mod (by norm_num [globalSingleBIBOPSize])
    rw [hceil] at hb₁ htop
    simp only [pageSize] at halign hpage
    have hc : Chunk (g.relabel ⟨a, globalSingleBIBOPSize⟩ .fresh).own a globalSingleBIBOPSize :=
      ⟨by omega, by omega, htop, fun y h₁ h₂ => relabel_inside ⟨h₁, h₂⟩⟩
    refine Spec.seq (allocateSingleBIBOP_spec (c := ⟨t, none, globalBagN - (n + 1)⟩) hb₁.after.inv
      hready hc ht rfl (by omega)) ?_
    rintro sb h₂ ⟨g₂, hb₂, hreg⟩
    refine (ih hb₂.after.inv hb₂.after.ready (by omega) fun k hk => ?_).imp ?_
    · by_cases hkk : k = globalBagN - (n + 1)
      · subst hkk
        rw [Function.update_self]
        exact hreg
      · rw [Function.update_of_ne hkk]
        exact (hb₁.trans hb₂).after.grows.reg _ _ (hobjects k (by omega))
    · rintro objects' h₃ ⟨g₃, hb₃, hall⟩
      exact ⟨g₃, (hb₁.trans hb₂).trans hb₃, hall⟩

/-! ## The manager -/

/-- **A new pool** owns the mapping of its memory. -/
theorem newPool_spec {size : ℕ} {o : Owner} (hi : Inv P g live h) (hready : Ready h)
    (hsize : size % 4096 = 0) (ho : ∀ b s, o ≠ .slot b s) :
    Spec (MemoryPool.allocateMemoryPool size) h
      (fun p h' => ∃ g', Built P g h live g' h' ∧ PoolOk g'.own o p ∧ p.bumpMemory % 16 = 0 ∧
        p.bumpMemory + size = p.boundaryMemory) Halt.NoRoom := by
  refine allocateMemoryPool_spec hi.layout.excluded hsize fun mp base hmp hbase => ?_
  have hb₁ := hi.build_mmap hready hmp
  rw [← Heap.addMapping_maps] at hbase
  have hb₂ := hb₁.after.inv.build_mmap hready hbase
  obtain ⟨-, halign, hpage, htop, -⟩ := hbase
  rw [pageCeil_of_mod hsize] at hb₂ htop
  simp only [pageSize] at halign hpage
  have hb₃ := hb₂.after.inv.build_assign hready (r := ⟨base, size⟩) (o := o)
    (fun y hy => relabel_inside hy) ho
  exact ⟨_, (hb₁.trans hb₂).trans hb₃,
    ⟨by simp only; omega, by simp, htop, fun y h₁ h₂ => relabel_inside ⟨h₁, h₂⟩⟩,
    by simp only; omega, rfl⟩

/-- **`AllocateMemoryManager`** builds a well-formed manager and touches no other. -/
theorem allocateMemoryManager_spec {t : ℕ} (hi : Inv P g live h) (hready : Ready h)
    (ht : t < maxThread) :
    Spec (allocateMemoryManager t) h
      (fun m h' => ∃ g', Built P g h live g' h' ∧ ManagerOk g'.own g'.reg t m ∧ m.freeList = 0)
      Halt.NoRoom := by
  unfold allocateMemoryManager
  refine Spec.bind (mmap_spec hi.layout.excluded trivial fun mm hmm => ?_)
  have hb₁ := hi.build_mmap hready hmm
  refine Spec.bind (poke_spec (.inl (covers_addMapping mm _)) fun _ => ?_)
  refine Spec.seq (newPool_spec (o := .dataPool t) hb₁.after.inv hready individualDataPoolSize_mod
    (by simp)) ?_
  rintro dataPool h₂ ⟨g₂, hb₂, hdata, halign, -⟩
  refine Spec.seq (newPool_spec (o := .metaPool t) hb₂.after.inv hb₂.after.ready
    (by norm_num [metadataPoolSize]) (by simp)) ?_
  rintro metadataPool h₃ ⟨g₃, hb₃, hmeta, -, hbound⟩
  have hfit : metadataPool.bumpMemory + 120 ≤ metadataPool.boundaryMemory := by
    have hsize : metadataPoolSize = 2 ^ 33 := rfl
    omega
  dsimp only
  rcases hmeta.allocateMemory_cases (show 120 ≤ 2 ^ 62 by norm_num) with ⟨-, heq⟩ | ⟨hno, -⟩
  swap
  · omega
  rw [heq]
  have hcov : covers h₃.maps metadataPool.bumpMemory 120 = true := covers_iff.mpr fun x h₁ h₂ =>
    hb₃.after.inv.layout.mapped x (by
      rw [hmeta.own x h₁ (by omega)]
      simp)
  refine Spec.bind (poke_spec (.inl hcov) fun _ => ?_)
  refine Spec.seq (initGlobalBIBOP_spec (t := t) hb₃.after.inv hb₃.after.ready ht le_rfl
    (fun k hk => by omega)) ?_
  rintro objects h₄ ⟨g₄, hb₄, hobjects⟩
  refine Spec.pure ⟨g₄, ((hb₁.trans hb₂).trans hb₃).trans hb₄, ?_, rfl⟩
  have hkept := hb₃.retains.trans hb₄.retains
  refine ⟨Nat.mod_eq_of_lt (ht.trans (by norm_num [maxThread])), ht,
    hkept.pool hdata (by simp) (by simp), halign,
    hb₄.retains.pool (hmeta.advance hfit) (by simp) (by simp), hobjects, ?_, fun _ _ _ => rfl⟩
  intro i k _ hne
  exact absurd (by simp [allOnes]) hne

/-- The index only goes into the manager that is returned. -/
theorem allocateMemoryManager_threadId (t t' : ℕ) : allocateMemoryManager t =
    (fun m => { m with threadId := t % 2 ^ 16 }) <$> allocateMemoryManager t' := by
  simp only [allocateMemoryManager, map_bind, map_pure]

/-- Building a manager for any index at all ends the process only where nothing has room. -/
theorem allocateMemoryManager_halts {t : ℕ} (hi : Inv P g live h) (hready : Ready h) :
    Spec (allocateMemoryManager t) h (fun _ _ => True) Halt.NoRoom := by
  rw [allocateMemoryManager_threadId t 0, map_eq_pure_bind]
  exact Spec.seq (allocateMemoryManager_spec hi hready (by decide)) fun _ _ _ => Spec.pure trivial

/-! ## The first call of a thread -/

/-- The thread is initialized, and its manager exists. -/
def Started (h : Heap) (τ : ℕ) : Prop :=
  (h.tls τ).tid = τ ∧ ∃ m, h.globalMemoryManager (h.tls τ).threadId = some m

theorem Inv.started (hi : Inv P g live h) {τ : ℕ} (hτ : τ ≠ 0) (htid : (h.tls τ).tid = τ) :
    Started h τ :=
  ⟨htid, hi.layout.thread τ hτ htid⟩

/-- The manager a thread goes to is history. -/
theorem Inv.addCall (hi : Inv P g live h) {x : ℕ → Prop} (u : ManagerCall) :
    Inv P g live (h.addCall u) ∧ Grows x g h g (h.addCall u) := by
  have hc := hi.contents
  refine ⟨⟨hi.layout.congr rfl rfl rfl rfl rfl rfl, ⟨hc.zero, hc.clean, hc.used, hc.freeChain,
    hc.freeSlot, hc.freeNodup, hc.pendingChain, hc.pendingBlock, hc.pendingNodup,
    hc.pendingUnborn, hc.liveNodup, hc.live⟩, hi.history.congr rfl rfl rfl rfl rfl⟩, ?_⟩
  exact Grows.of_same rfl rfl (fun _ _ hs _ => hs) (fun _ _ _ _ => rfl) List.suffix_rfl rfl
    fun _ m hm => ⟨m, hm⟩

theorem Started.grows {x : ℕ → Prop} {g' : Ghost} {τ : ℕ} (hs : Started h τ)
    (hg : Grows x g h g' h') : Started h' τ := by
  obtain ⟨htid, m, hm⟩ := hs
  have htls := hg.thread τ htid
  exact ⟨by rw [htls]; exact htid, by rw [htls]; exact hg.manager _ m hm⟩

theorem getThreadId_spec {τ : ℕ} {post : ℕ → Heap → Prop} {halt : Halt → Prop}
    (hp : post (h.tls τ).threadId (h.addCall ⟨τ, (h.tls τ).threadId⟩)) :
    Spec (getThreadId τ) h post halt := by
  unfold getThreadId
  exact Spec.bind (Spec.get (Spec.bind (Spec.modify (Spec.pure hp))))

/-- **`init_thread`** gives the thread a manager of its own. -/
theorem initThread_spec {τ : ℕ} (hi : Inv P g live h) (hready : Ready h) (hτ : τ ≠ 0)
    (htid : (h.tls τ).tid ≠ τ) :
    Spec (initThread τ) h (fun _ h' => ∃ g', After P Spared g h live g' h' ∧ Started h' τ)
      fun e => e.NoRoom ∨ e = .undefined ∧ maxThread ≤ h.threadBump := by
  unfold initThread
  refine Spec.bind (Spec.get ?_)
  dsimp only
  refine Spec.bind (Spec.modify ?_)
  obtain ⟨hi₁, hg₁⟩ := hi.setThreadBump (x := Spared) (n := h.threadBump + 1) (by omega)
  have hnone := hi.layout.unborn h.threadBump le_rfl
  by_cases ht : h.threadBump < maxThread
  · refine Spec.seq ((allocateMemoryManager_spec hi₁ hready ht).halts fun _ => .inl) ?_
    rintro m h₂ ⟨g₂, hb, hok, hfree⟩
    refine Spec.ite (fun hge => by omega) fun _ => ?_
    refine Spec.bind (setManager_spec (Spec.modify ?_))
    obtain ⟨hi₃, hg₃⟩ := hb.after.inv.newManager (x := Spared) (t := h.threadBump)
      (by rw [hb.threads.manager]; exact hnone)
      (by rw [hb.threads.threadBump]; exact Nat.lt_succ_self _) hok hfree
    obtain ⟨hi₄, hg₄⟩ := hi₃.setThread (x := Spared) (τ := τ)
      (by rw [Heap.setManager_tls, hb.threads.tls]; exact htid) (Function.update_self ..)
    refine ⟨_, ⟨hi₄, hb.after.ready, ((hg₁.trans hb.after.grows).trans hg₃).trans hg₄⟩, ?_⟩
    exact hi₄.started hτ (by simp)
  · -- the index is out of range, whatever the manager
    have hfull : maxThread ≤ h.threadBump := not_lt.mp ht
    refine Spec.seq ((allocateMemoryManager_halts hi₁ hready).halts fun _ => .inl) fun _ _ _ => ?_
    exact Spec.ite (fun _ => Spec.bind (Spec.throw (.inr ⟨rfl, hfull⟩))) fun hlt => by omega

/-- **`ensureThread`**: afterwards the thread is initialized and has a manager. A first call may
find that all indices are given out. -/
theorem ensureThread_spec {τ : ℕ} (hi : Inv P g live h) (hready : Ready h) (hτ : τ ≠ 0) :
    Spec (ensureThread τ) h (fun _ h' => ∃ g', After P Spared g h live g' h' ∧ Started h' τ)
      fun e => (h.tls τ).tid ≠ τ ∧ (e.NoRoom ∨ e = .undefined ∧ maxThread ≤ h.threadBump) := by
  unfold ensureThread
  refine Spec.bind (Spec.get ?_)
  refine Spec.ite (fun hne => (initThread_spec hi hready hτ hne).halts fun _ hx => ⟨hne, hx⟩)
    fun he => Spec.pure ?_
  exact ⟨g, ⟨hi, hready, .refl _ _ _⟩, hi.started hτ (not_not.mp he)⟩

end Semalloc
