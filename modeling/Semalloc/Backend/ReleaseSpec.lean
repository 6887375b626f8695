import Semalloc.Backend.CreationSpec

/-!
# Specifications of release

`css_free` and `css_realloc` dispatch on the header before the pointer. A mapping is unmapped; a
slot goes back to its BIBOP when its owner frees it, and to the owner's remote free list when
another thread does. The double-free check never fires on a block that was not shifted.

## Main definitions

* `Freed`: the slot is at the head of its BIBOP's free list, and nothing else happened

## Main results

* `freeHugeMemory_spec`, `freeRegularMemory_spec`, `freeOtherThreadMemory_spec`
* `releaseBlock_spec`: the dispatch
-/

set_option autoImplicit false

namespace Semalloc

open ByteMemory Region Effect MemoryManager Config

variable {P : Promise} {g : Ghost} {live : List Block} {h h' : Heap} {B : Block}
  {halt : Halt → Prop}

/-! ## Mappings -/

/-- **`freeHugeMemory`** unmaps exactly the block's mapping. -/
theorem freeHugeMemory_spec {post : Unit → Heap → Prop} (hi : Inv P g live h) (hready : Ready h)
    (hB : HugeLive g.own h.mem B)
    (hp : ∀ g', After P (· = B.ptr) g h (dropLive live B.ptr) g' (h.setMaps (removeRange h.maps
      (B.ptr - pageSize) (HugeHeader.size h.mem (B.ptr - headerSize) + pageSize))) →
      post () (h.setMaps (removeRange h.maps (B.ptr - pageSize)
        (HugeHeader.size h.mem (B.ptr - headerSize) + pageSize)))) :
    Spec (freeHugeMemory B.ptr) h post halt := by
  have hmod := hB.size_mod
  have halign := hB.aligned
  have hge := hB.ptr_ge
  have htop := hB.top
  simp only [pageSize] at hmod halign hge
  have hwrap : (HugeHeader.size h.mem (B.ptr - headerSize) + pageSize) % 2 ^ 64 =
      HugeHeader.size h.mem (B.ptr - headerSize) + pageSize :=
    Nat.mod_eq_of_lt (by simp only [pageSize]; omega)
  have hceil : pageCeil (HugeHeader.size h.mem (B.ptr - headerSize) + pageSize) =
      HugeHeader.size h.mem (B.ptr - headerSize) + pageSize :=
    pageCeil_of_mod (by simp only [pageSize]; omega)
  have hmem : ∀ B' ∈ dropLive live B.ptr, B' ∈ live ∧ B'.ptr ≠ B.ptr := fun B' hB' => by
    simpa [dropLive] using hB'
  have hi₁ : Inv P g (dropLive live B.ptr) h :=
    hi.setLive (fun B' hB' => hi.contents.live B' (hmem B' hB').1)
      (fun B' hB' => ⟨B', (hmem B' hB').1, rfl⟩)
      (hi.contents.liveNodup.sublist (List.filter_sublist.map _))
  obtain ⟨hi₂, hg₂⟩ := hi₁.munmap (p := B.ptr)
    (r := ⟨B.ptr - pageSize, HugeHeader.size h.mem (B.ptr - headerSize) + pageSize⟩)
    (fun a ha => hB.own a ha.1 (by have := ha.2; simp only [pageSize] at this ⊢; omega))
    fun B' hB' => (hmem B' hB').2
  unfold freeHugeMemory
  refine Spec.bind (peek_spec (.inl (hB.head_covers hi.layout)) fun _ => ?_)
  rw [hwrap]
  refine munmap_spec (by simp only [pageSize]; omega) ?_
  rw [hceil]
  exact hp _ ⟨hi₂, hready, hg₂⟩

/-! ## Slots -/

/-- The slot `s` was linked at the head of the free list of `b`, with its allocation bit cleared
and maybe its data zeroed. -/
def Freed (h : Heap) (b s size : ℕ) (h' : Heap) : Prop :=
  ∃ B m', h.bibops b = some B ∧ Released h.mem m' s size B.freeList ∧
    h' = (h.setMem (RegularHeader.setFree m' s)).setBIBOP b { B with freeList := s }

/-- The block may be released under the promise of the run. -/
def Releasable (P : Promise) (g : Ghost) (p : ℕ) : Prop :=
  ∀ b s c, g.own (p - headerSize) = .slot b s → g.reg b = some c → ¬ P.kept c

theorem Grows.dropSlot {b s : ℕ} {c : Compartment}
    (hB : SlotLive P g.own g.reg g.use h.mem b c s B) :
    Grows (· = B.ptr) g h (g.setUse s .limbo) h := by
  refine Grows.setUse fun p hp => .inr ?_
  rw [hB.use] at hp
  exact (Use.live.inj hp).symm

/-- A live block in a slot stays one when the process grows. -/
theorem SlotLive.grows {x : ℕ → Prop} {g' : Ghost} {b s : ℕ} {c : Compartment}
    (hB : SlotLive P g.own g.reg g.use h.mem b c s B) (hl : Layout g.own g.reg h)
    (hg : Grows x g h g' h') (hx : ¬ x B.ptr) :
    SlotLive P g'.own g'.reg g'.use h'.mem b c s B := by
  have hle := hB.block.slot_le
  have hs : SameHeader h.mem h'.mem (B.ptr - headerSize) := by
    rintro a ⟨h₁, h₂⟩
    have ho := hB.block.head_own hl h₁ (by simp only [headerSize] at *; omega)
    exact hg.held a B.ptr (.slot ho hB.use) hx
  exact ⟨(hB.block.congr hs).of_own (hg.slot _ _ _ hB.block.own) (hg.reg _ _ hB.block.reg),
    hg.use _ _ hB.use hx, hB.count_le, hB.limit_le⟩

/-- **`freeRegularMemory`** drains the remote free list and links the slot at the head of its
BIBOP's free list. -/
theorem freeRegularMemory_spec {this b s : ℕ} {c : Compartment} {m : MemoryManager}
    {post : Unit → Heap → Prop} (hi : Inv P g live h) (hready : Ready h)
    (hm : h.globalMemoryManager this = some m)
    (hB : SlotLive P g.own g.reg g.use h.mem b c s B) (hk : ¬ P.kept c)
    (hdouble : P.shifted → halt .doubleFree)
    (hp : ∀ h₁ g' h', handleFreeList this h = .ok () h₁ →
      After P (· = B.ptr) g h (dropLive live B.ptr) g' h' → B.ptr = s + headerSize →
      Freed h₁ b s (slotSize c.sizeClass) h' → post () h') :
    Spec (freeRegularMemory this B.ptr) h post halt := by
  unfold freeRegularMemory
  refine Spec.seq_run ((handleFreeList_spec hi hready hm).mono (fun _ _ ha => ha)
    fun e he => he.2 ▸ hdouble he.1) ?_
  rintro ⟨⟩ h₁ hrun ⟨⟨g₁, ha₁⟩, -⟩
  have hB₁ := hB.grows hi.layout ha₁.grows (fun hf => hf)
  have hi₁ := ha₁.inv
  have hblock := hB₁.block
  have hcov := hblock.head_covers hi₁.layout
  have hs := hi₁.layout.slotRange_of_reg hblock.own hblock.reg
  have hle := hblock.slot_le
  have hi₂ := hi₁.dropSlot hB₁
  obtain ⟨B₁, hB₁', hok⟩ := hi₁.layout.bibop b c hblock.reg
  refine Spec.ite (fun hz => ?_) fun _ => ?_
  · simp only [headerSize] at hle
    omega
  dsimp only
  refine Spec.bind (peek_spec (.inl hcov) fun _ => ?_)
  rcases hblock.kind with ⟨hptr, hregular, halloc, hoffset⟩ | ⟨hshift, -, halloc⟩
  swap
  · -- a shifted block fails the double-free check
    simp only [halloc, Bool.not_false, if_true]
    exact Spec.bind (Spec.throw (hdouble hshift))
  have hhead : B.ptr - headerSize = s := by omega
  have hbibop := hblock.bibop
  rw [hhead] at hregular halloc hoffset hbibop hcov
  simp only [hhead, halloc, Bool.not_true, Bool.false_eq_true, if_false]
  refine Spec.bind (peek_spec (.inl hcov) fun _ => ?_)
  refine Spec.bind (peek_spec (.inl hcov) fun _ => ?_)
  refine Spec.bind (peek_spec (.inl hcov) fun _ => ?_)
  simp only [hregular, hoffset, hbibop, Nat.sub_zero, Bool.not_true, Bool.false_eq_true, if_false]
  refine Spec.bind (freeObject_spec hi₂.layout hs hB₁' (hi₂.freeList_lt hB₁') fun m₁ hm₁ => ?_)
  refine poke_spec (.inl hcov) fun _ => ?_
  obtain ⟨hi₃, hg₃⟩ := hi₂.release hB₁' hblock.own hblock.reg (by simp) hk hm₁
  refine hp h₁ _ _ hrun ⟨hi₃, ?_, ?_⟩ hptr ⟨B₁, m₁, hB₁', hm₁, rfl⟩
  · exact Ready.setBIBOP (h := h₁.setMem _) ha₁.ready (ha₁.ready b B₁ hB₁')
  · exact (ha₁.grows.mono fun _ hf => hf.elim).trans
      ((Grows.dropSlot hB₁).trans (hg₃.mono fun _ hf => hf.elim))

/-- **`freeOtherThreadMemory`** links the block at the head of its owner's remote free list. -/
theorem freeOtherThreadMemory_spec {b s : ℕ} {c : Compartment} {m : MemoryManager}
    {post : Unit → Heap → Prop} (hi : Inv P g live h) (hready : Ready h)
    (hm : h.globalMemoryManager c.thread = some m)
    (hB : SlotLive P g.own g.reg g.use h.mem b c s B) (hk : ¬ P.kept c)
    (hp : ∀ g' h', After P (· = B.ptr) g h (dropLive live B.ptr) g' h' → post () h') :
    Spec (freeOtherThreadMemory c.thread B.ptr) h post halt := by
  have hblock := hB.block
  have hs := hi.layout.slotRange_of_reg hblock.own hblock.reg
  have hle := hblock.slot_le
  have hle' := hblock.le_slot
  have hhead : m.freeList < 2 ^ 64 := by
    by_cases hne : m.freeList = 0
    · omega
    · obtain ⟨l, b', c', s', -, -, hblock', -, -⟩ := hi.popPending hm hne
      have hs' := hi.layout.slotRange_of_reg hblock'.own hblock'.reg
      have := hs'.top
      have := hblock'.le_slot
      simp only [headerSize] at *
      omega
  unfold freeOtherThreadMemory
  refine Spec.bind (getManager_spec hm ?_)
  refine Spec.bind (poke_spec (.inl (hi.layout.slot_covers hs (by omega)
    (by simp only [headerSize] at *; omega))) fun _ => ?_)
  refine setManager_spec ?_
  -- the block goes to limbo first, so that its bytes are scratch
  have hi₁ := hi.dropSlot hB
  have hchanged : ∀ a, writeLE h.mem B.ptr 8 m.freeList a ≠ h.mem a →
      B.ptr ≤ a ∧ a < B.ptr + 8 := by
    intro a hne
    by_contra hout
    exact hne (writeLE_of_outside (by omega))
  have hown : ∀ a, B.ptr ≤ a → a < B.ptr + 8 → g.own a = .slot b s := fun a h₁ h₂ =>
    hblock.head_own hi.layout (by omega) (by simp only [headerSize]; omega)
  have hi₂ : Inv P (g.setUse s .limbo) (dropLive live B.ptr)
      (h.setMem (writeLE h.mem B.ptr 8 m.freeList)) := by
    refine hi₁.write (fun a hne => ?_) fun b' s' ho _ => ?_
    · obtain ⟨h₁, h₂⟩ := hchanged a hne
      exact .limbo (hown a h₁ h₂) (by simp)
    · by_contra hne
      obtain ⟨h₁, h₂⟩ := hchanged _ hne
      have h₃ := hi.layout.slot_head ho (a := s' + 15) (by omega) (by omega)
      rw [hown _ h₁ h₂] at h₃
      obtain rfl := (Owner.slot.inj h₃).2
      simp only [headerSize] at hle
      omega
  have hsame : SameHeader h.mem (writeLE h.mem B.ptr 8 m.freeList) (B.ptr - headerSize) := by
    rintro a ⟨h₁, h₂⟩
    exact writeLE_of_outside (by simp only [headerSize] at *; omega)
  have hlink : link (writeLE h.mem B.ptr 8 m.freeList) B.ptr = m.freeList :=
    readLE_writeLE (by norm_num; exact hhead)
  have hi₃ := hi₂.pushPending (m := m) hm (hblock.congr hsame) rfl (by simp) hk hlink
  refine hp _ _ ⟨hi₃, hready, ?_⟩
  have hg₁ : Grows (· = B.ptr) g h (g.setUse s .limbo)
      (h.setMem (writeLE h.mem B.ptr 8 m.freeList)) := by
    refine (Grows.dropSlot hB).trans (Grows.setMem fun a p hne ha => ?_)
    obtain ⟨h₁, h₂⟩ := hchanged a hne
    have h₃ := hown a h₁ h₂
    cases ha with
    | slot ho hu =>
      rw [Ghost.setUse_own, h₃] at ho
      cases ho
      simp at hu
    | huge ho => rw [Ghost.setUse_own, h₃] at ho; cases ho
  refine hg₁.trans (Grows.of_same rfl rfl (fun s' p hu _ => ?_) (fun _ _ _ _ => rfl)
    List.suffix_rfl rfl fun _ _ => Heap.setManager_kept)
  have hne : s' ≠ s := fun he => by simp [he] at hu
  simpa [hne] using hu

/-! ## The dispatch -/

theorem SlotBlock.owner_exists {own : ℕ → Owner} {reg : ℕ → Option Compartment} {m : ByteMemory}
    {b s p : ℕ} {c : Compartment} (hp : SlotBlock P own reg m b c s p) (hl : Layout own reg h) :
    ∃ mm, h.globalMemoryManager c.thread = some mm := by
  obtain ⟨-, c', B', hr, -, -, -, hm⟩ := hl.slot _ _ _ hp.own
  rw [hp.reg] at hr
  cases hr
  exact hm

/-- **The release** of a live block halts only in the double-free check of a shifted one. -/
theorem releaseBlock_spec {τ : ℕ} (hi : Inv P g live h) (hready : Ready h) (hs : Started h τ)
    (hB : B ∈ live) (hk : Releasable P g B.ptr) :
    Spec (releaseBlock τ B.ptr) h
      (fun _ h' => ∃ g', After P (· = B.ptr) g h (dropLive live B.ptr) g' h')
      fun e => P.shifted ∧ e = .doubleFree := by
  obtain ⟨-, m, hm⟩ := hs
  unfold releaseBlock
  dsimp only
  cases hi.contents.live B hB with
  | huge hh =>
    refine Spec.bind (peek_spec (.inl (hh.head_covers hi.layout)) fun _ => ?_)
    rw [if_pos hh.isHuge]
    exact freeHugeMemory_spec hi hready hh fun g' ha => ⟨g', ha⟩
  | @slot b s c hs =>
    have hcov := hs.block.head_covers hi.layout
    have hge := hs.block.slot_le
    have hkept := hk b s c (hs.block.head_own hi.layout le_rfl (by
      simp only [headerSize] at *
      omega)) hs.block.reg
    refine Spec.bind (peek_spec (.inl hcov) fun _ => ?_)
    rw [if_neg (by simp [hs.block.notHuge])]
    refine Spec.bind (peek_spec (.inl hcov) fun _ => ?_)
    refine Spec.bind (getThreadId_spec ?_)
    obtain ⟨hi₁, hg₁⟩ := hi.addCall (x := (· = B.ptr)) ⟨τ, (h.tls τ).threadId⟩
    rw [hs.block.threadId]
    refine Spec.imp (Spec.ite (fun he => ?_) fun _ => ?_) fun _ h' (ha : ∃ g', After P (· = B.ptr)
      g (h.addCall _) (dropLive live B.ptr) g' h') => ha.imp fun g' ha =>
      ⟨ha.inv, ha.ready, hg₁.trans ha.grows⟩
    · refine freeRegularMemory_spec hi₁ hready hm hs hkept (fun hsh => ⟨hsh, rfl⟩) ?_
      exact fun _ g' _ _ ha _ _ => ⟨g', ha⟩
    · obtain ⟨m', hm'⟩ := hs.block.owner_exists hi.layout
      exact freeOtherThreadMemory_spec hi₁ hready hm' hs hkept fun g' _ ha => ⟨g', ha⟩

end Semalloc
