import Semalloc.Backend.LayoutMoves

/-!
# Specifications of the machine operations and of BIBOPs

Each function has one specification: what it leaves behind, and why it may halt. Programs that
allocate may halt for many reasons; programs that free are shown not to, so the halting condition
is kept as a parameter.

## Main results

* `peek_spec`, `poke_spec`, `mmap_spec`, `madvise_spec`, `munmap_spec`: the machine
* `allocateMemoryPool_spec`, `allocateMemory_cases`: memory pools
* `allocateObject_spec`, `freeObject_spec`, `Inv.release`: slots of a BIBOP
-/

set_option autoImplicit false

namespace Semalloc

open ByteMemory Region Effect

variable {P : Promise} {g : Ghost} {live : List Block} {h h' : Heap} {own : ℕ → Owner}
  {reg : ℕ → Option Compartment} {halt : Halt → Prop}

/-! ## The machine -/

theorem peek_spec {α : Type} {a n : ℕ} {f : ByteMemory → α} {post : α → Heap → Prop}
    (hseg : covers h.maps a n = true ∨ halt .segv)
    (hp : covers h.maps a n = true → post (f h.mem) h) : Spec (peek a n f) h post halt := by
  unfold peek
  refine Spec.bind (Spec.get ?_)
  refine Spec.ite (fun hc => Spec.pure (hp hc)) fun hc => Spec.throw ?_
  exact hseg.resolve_left hc

theorem poke_spec {a n : ℕ} {f : ByteMemory → ByteMemory} {post : Unit → Heap → Prop}
    (hseg : covers h.maps a n = true ∨ halt .segv)
    (hp : covers h.maps a n = true → post () (h.setMem (f h.mem))) :
    Spec (poke a n f) h post halt := by
  unfold poke
  refine Spec.bind (Spec.get ?_)
  refine Spec.ite (fun hc => Spec.modify (hp hc)) fun hc => Spec.throw ?_
  exact hseg.resolve_left hc

theorem mmap_spec {len : ℕ} {post : ℕ → Heap → Prop} (hos : h.os.failure = .excluded)
    (hh : halt .mmapExcluded) (hp : ∀ a, Fresh h.maps a len → post a (h.addMapping a len)) :
    Spec (mmap len) h post halt := by
  unfold mmap
  refine Spec.bind (Spec.get ?_)
  cases hm : h.os.mmap h.mmapCount h.maps len with
  | some a => exact Spec.bind (Spec.modify (Spec.pure (hp a (h.os.mmap_fresh hm))))
  | none =>
    refine Spec.bind (Spec.modify ?_)
    rw [hos]
    exact Spec.throw hh

theorem madvise_spec {a len : ℕ} {post : Unit → Heap → Prop}
    (hp : a % pageSize = 0 → post () (h.setMem (fill h.mem a (pageCeil len) 0)))
    (hn : a % pageSize ≠ 0 → post () h) : Spec (madvise a len) h post halt :=
  Spec.ite (fun ha => Spec.modify (hp ha)) fun ha => Spec.pure (hn ha)

theorem munmap_spec {a len : ℕ} {post : Unit → Heap → Prop}
    (ha : a % pageSize = 0)
    (hp : post () (h.setMaps (removeRange h.maps a (pageCeil len)))) :
    Spec (munmap a len) h post halt :=
  Spec.ite (fun _ => Spec.modify hp) fun hn => absurd ha hn

theorem getBIBOP_spec {b : ℕ} {B : SingleBIBOP} {post : SingleBIBOP → Heap → Prop}
    (hB : h.bibops b = some B) (hp : post B h) : Spec (getBIBOP b) h post halt := by
  unfold getBIBOP
  refine Spec.bind (Spec.get ?_)
  rw [hB]
  exact Spec.pure hp

theorem setBIBOP_spec {b : ℕ} {B : SingleBIBOP} {post : Unit → Heap → Prop}
    (hp : post () (h.setBIBOP b B)) : Spec (setBIBOP b B) h post halt := Spec.modify hp

theorem getManager_spec {t : ℕ} {m : MemoryManager} {post : MemoryManager → Heap → Prop}
    (hm : h.globalMemoryManager t = some m) (hp : post m h) : Spec (getManager t) h post halt := by
  unfold getManager
  refine Spec.bind (Spec.get ?_)
  rw [hm]
  exact Spec.pure hp

theorem getManager_unmanaged {t : ℕ} {post : MemoryManager → Heap → Prop}
    (hm : h.globalMemoryManager t = none) : Spec (getManager t) h post fun _ => True := by
  unfold getManager
  refine Spec.bind (Spec.get ?_)
  rw [hm]
  exact Spec.throw trivial

theorem setManager_spec {t : ℕ} {m : MemoryManager} {post : Unit → Heap → Prop}
    (hp : post () (h.setManager t m)) : Spec (setManager t m) h post halt := Spec.modify hp

theorem serve_spec {origin : Origin} {base len ptr : ℕ} {post : Unit → Heap → Prop}
    (hp : post () (h.addServed ⟨origin, ⟨base, len⟩, ptr⟩)) :
    Spec (serve origin base len ptr) h post halt := Spec.modify hp

/-- Nothing is mapped in the first page. -/
theorem Layout.not_covers (hl : Layout own reg h) {a n : ℕ} (ha : a < pageSize) (hn : 0 < n) :
    covers h.maps a n = false := by
  rw [Bool.eq_false_iff]
  intro hc
  have := (hl.userSpace a (covers_iff.mp hc a le_rfl (by omega))).1
  omega

/-- A new mapping is mapped. -/
theorem covers_addMapping (a len : ℕ) : covers (h.addMapping a len).maps a len = true := by
  have hlen := le_pageCeil len
  exact covers_iff.mpr fun x h₁ h₂ => mapped_cons.mpr (.inl ⟨h₁, by simp only; omega⟩)

/-! ## Pools -/

/-- A request either fits, or leaves the pool as it was. -/
theorem PoolOk.allocateMemory_cases {o : Owner} {p : MemoryPool} {size : ℕ} (hp : PoolOk own o p)
    (hsize : size ≤ 2 ^ 62) :
    (p.bumpMemory + size ≤ p.boundaryMemory ∧
      p.allocateMemory size = ({ p with bumpMemory := p.bumpMemory + size }, p.bumpMemory)) ∨
    (p.boundaryMemory < p.bumpMemory + size ∧ p.allocateMemory size = (p, 0)) := by
  have hle := hp.bump_le
  have htop := hp.top
  have hmod : (p.bumpMemory + size) % 2 ^ 64 = p.bumpMemory + size := Nat.mod_eq_of_lt (by omega)
  have hback : sub64 (p.bumpMemory + size) size = p.bumpMemory := by
    unfold sub64
    omega
  simp only [MemoryPool.allocateMemory, hmod, hback]
  by_cases hfit : p.bumpMemory + size ≤ p.boundaryMemory
  · exact .inl ⟨hfit, by rw [if_neg (by omega)]⟩
  · exact .inr ⟨by omega, by rw [if_pos (by omega)]⟩

/-- The rest of a pool after a request that fits. -/
theorem PoolOk.advance {o : Owner} {p : MemoryPool} {size : ℕ}
    (hp : PoolOk own o p) (hfit : p.bumpMemory + size ≤ p.boundaryMemory) :
    PoolOk own o { p with bumpMemory := p.bumpMemory + size } where
  base_pos := by have := hp.base_pos; simp only; omega
  bump_le := hfit
  top := hp.top
  own a h₁ h₂ := hp.own a (by simp only at h₁; omega) h₂

theorem pageCeil_of_mod {n : ℕ} (hn : n % 4096 = 0) : pageCeil n = n := by
  unfold pageCeil
  omega

/-- A new pool takes two mappings, one for the object and one for its memory. -/
theorem allocateMemoryPool_spec {size : ℕ} {post : MemoryPool → Heap → Prop}
    (hos : h.os.failure = .excluded) (hsize : size % 4096 = 0)
    (hp : ∀ mp base, Fresh h.maps mp 24 → Fresh (⟨mp, pageCeil 24⟩ :: h.maps) base size →
      post ⟨base, base, base + size⟩ ((h.addMapping mp 24).addMapping base size)) :
    Spec (MemoryPool.allocateMemoryPool size) h post Halt.NoRoom := by
  unfold MemoryPool.allocateMemoryPool
  refine Spec.bind (mmap_spec hos trivial fun mp hmp => ?_)
  refine Spec.bind (poke_spec (.inl (covers_addMapping mp 24)) fun _ => ?_)
  refine Spec.bind (mmap_spec hos trivial fun base hbase => Spec.pure ?_)
  have htop := hbase.2.2.2.1
  rw [pageCeil_of_mod hsize] at htop
  rw [Nat.mod_eq_of_lt (show base + size < 2 ^ 64 by omega)]
  exact hp mp base hmp hbase

/-! ## Slots -/

/-- A slot that was just taken from the BIBOP at `b`. -/
structure Taken (P : Promise) (g : Ghost) (h : Heap) (b : ℕ) (c : Compartment) (s : ℕ) : Prop where
  own : g.own s = .slot b s
  reg : g.reg b = some c
  use : g.use s = .limbo
  idle : RegularHeader.isAllocation h.mem s = false
  servable : ¬ P.kept c ∨ Unserved h s

/-- **`allocateObject`** takes a slot, or runs over the end of the chunk. -/
theorem allocateObject_spec (hi : Inv P g live h) {b : ℕ} {c : Compartment} {B : SingleBIBOP}
    {m : MemoryManager} (hr : g.reg b = some c) (hB : h.bibops b = some B)
    (hm : h.globalMemoryManager c.thread = some m) (hready : B.bump ≤ B.base + B.capacity) :
    Spec (SingleBIBOP.allocateObject b) h
      (fun s h' => ∃ g', Inv P g' live h' ∧ Grows (fun _ => False) g h g' h' ∧
        (s ≠ 0 ∧ Taken P g' h' b c s ∧ (Ready h → Ready h') ∨
        s = 0 ∧ B.freeList = 0 ∧ B.base + B.capacity ≤ B.bump + slotSize c.sizeClass ∧
          h' = h.setBIBOP b { B with bump := B.bump + slotSize c.sizeClass }))
      Halt.NoRoom := by
  have hl := hi.layout
  obtain ⟨B', hB', hok⟩ := hl.bibop b c hr
  obtain rfl : B = B' := by simpa [hB] using hB'
  unfold SingleBIBOP.allocateObject
  refine Spec.bind (getBIBOP_spec hB ?_)
  refine Spec.ite (fun hne => ?_) fun he => ?_
  · -- the head of the free list
    obtain ⟨l, hfree, hi'⟩ := hi.popFree hB hne
    obtain ⟨ho, hu, ha⟩ := hi.contents.freeSlot b B.freeList (by simp [hfree])
    have hsize := slotSize_ge c.sizeClass
    have hcov : covers h.maps B.freeList 8 = true :=
      hl.slot_covers (hl.slotRange_of_reg ho hr) le_rfl (by omega)
    refine Spec.bind (peek_spec (.inl hcov) fun _ => ?_)
    refine Spec.bind (setBIBOP_spec (Spec.pure ?_))
    refine ⟨_, hi', ?_, .inl ⟨hne, ⟨ho, hr, by simp, ha, .inl ?_⟩, fun hrd => ?_⟩⟩
    · refine Grows.of_same rfl rfl (fun s p hs _ => ?_) (fun _ _ _ _ => rfl) List.suffix_rfl rfl
        fun _ m hm => ⟨m, hm⟩
      have hne' : s ≠ B.freeList := fun heq => by rw [heq, hu] at hs; cases hs
      simpa [hne'] using hs
    · exact hi.not_kept_of_free (s := B.freeList) (by simp [hfree]) hr
    · exact hrd.setBIBOP hready
  · -- the bump pointer
    have hfl : B.freeList = 0 := not_not.mp he
    have hsize := slotSize_le hok.sizeClass
    have hmod := slotSize_mod c.sizeClass
    have halign := hok.aligned
    have hbase := hok.base_le
    have hpos := hok.base_pos
    have htop := hok.top
    have hbump : (B.bump + B.objectSize) % 2 ^ 64 = B.bump + slotSize c.sizeClass := by
      rw [hok.objectSize]
      exact Nat.mod_eq_of_lt (by omega)
    have hsub : sub64 (B.bump + slotSize c.sizeClass) B.base =
        B.bump + slotSize c.sizeClass - B.base := by
      unfold sub64
      omega
    dsimp only
    rw [hbump, hsub]
    refine Spec.bind (setBIBOP_spec ?_)
    -- moving the bump pointer alone keeps the invariant
    have hok' : BIBOPOk g.own b c { B with bump := B.bump + slotSize c.sizeClass } :=
      ⟨hok.sizeClass, hok.thread, hok.objectSize, hok.object, hok.bound, by simp only; omega, hpos,
        by simp only; omega, htop, hok.chunk,
        fun a h₁ h₂ => hok.spare a (by simp only at h₁; omega) h₂⟩
    obtain ⟨hi₁, hg₁⟩ :=
      hi.setBIBOP (x := fun _ => False) hr hB hok' (List.Subset.refl _) rfl
    by_cases hfit : B.bump + slotSize c.sizeClass < B.base + B.capacity
    · rw [if_neg (by omega)]
      refine Spec.pure ?_
      obtain ⟨hi₂, hg₂, hu, ha, hun⟩ := hi₁.carve (x := fun _ => False)
        (B := { B with bump := B.bump + slotSize c.sizeClass }) hr (by simp) hm rfl halign ⟨_, hok.chunk, hbase, by simp only; omega⟩
        fun a h₁ h₂ => hok.spare a h₁ (by omega)
      have hsz := slotSize_ge c.sizeClass
      refine ⟨_, hi₂, hg₁.trans hg₂, .inl ⟨by omega,
        ⟨relabel_inside ⟨le_rfl, by simp only; omega⟩, hr, hu, ha, .inr hun⟩, fun hrd => ?_⟩⟩
      exact hrd.setBIBOP (by simp only; omega)
    · rw [if_pos (by omega)]
      exact Spec.pure ⟨g, hi₁, hg₁, .inr ⟨rfl, hfl, by omega, rfl⟩⟩

/-- The memory after `freeObject`: a link in the slot's first bytes, maybe zeroed data. -/
structure Released (m m' : ByteMemory) (s size next : ℕ) : Prop where
  link : link m' s = next
  header : ∀ a, s + 8 ≤ a → a < s + headerSize → m' a = m a
  outside : ∀ a, a < s ∨ s + size ≤ a → m' a = m a

/-- **`freeObject`** links a slot at the head of the free list. -/
theorem freeObject_spec (hl : Layout g.own g.reg h) {b s : ℕ} {c : Compartment} {B : SingleBIBOP}
    {post : Unit → Heap → Prop} (hs : SlotRange g.own g.reg b c s) (hB : h.bibops b = some B)
    (hnext : B.freeList < 2 ^ 64)
    (hp : ∀ m', Released h.mem m' s (slotSize c.sizeClass) B.freeList →
      post () ((h.setMem m').setBIBOP b { B with freeList := s })) :
    Spec (SingleBIBOP.freeObject b s) h post halt := by
  obtain ⟨B', hB', hok⟩ := hl.bibop b c hs.reg
  obtain rfl : B = B' := by simpa [hB] using hB'
  have hsize := slotSize_ge c.sizeClass
  have hcov : covers h.maps s 8 = true := hl.slot_covers hs le_rfl (by omega)
  have hlink : readLE (writeLE h.mem s 8 B.freeList) s 8 = B.freeList :=
    readLE_writeLE (by norm_num; exact hnext)
  have hobj : SingleBIBOP.getObjectSize { B with freeList := s } + headerSize =
      slotSize c.sizeClass := by
    simp only [SingleBIBOP.getObjectSize, hok.objectSize, headerSize]
    omega
  have hobj' : SingleBIBOP.getObjectSize B = SingleBIBOP.getObjectSize { B with freeList := s } :=
    rfl
  unfold SingleBIBOP.freeObject
  refine Spec.bind (getBIBOP_spec hB ?_)
  refine Spec.bind (poke_spec (.inl hcov) fun _ => ?_)
  refine Spec.bind (setBIBOP_spec ?_)
  have hplain : Released h.mem (writeLE h.mem s 8 B.freeList) s (slotSize c.sizeClass)
      B.freeList :=
    ⟨hlink, fun a h₁ _ => writeLE_of_outside (by omega),
      fun a ha => writeLE_of_outside (by omega)⟩
  refine Spec.ite (fun _ => madvise_spec (fun _ => ?_) fun _ => hp _ hplain) fun _ =>
    Spec.pure (hp _ hplain)
  -- whole pages of the data, and nothing else, are zeroed
  rw [hobj']
  have hlen : pageCeil ((SingleBIBOP.getObjectSize { B with freeList := s } >>> pageSizeBit) <<<
      pageSizeBit) + headerSize ≤ slotSize c.sizeClass := by
    rw [Nat.shiftRight_eq_div_pow, Nat.shiftLeft_eq, pageCeil_of_mod (by simp [pageSizeBit])]
    simp only [pageSizeBit, headerSize] at *
    omega
  refine hp _ ⟨?_, fun a h₁ h₂ => ?_, fun a ha => ?_⟩
  · refine (readLE_congr fun a h₁ h₂ => ?_).trans hlink
    exact fill_of_outside (by simp only [headerSize]; omega)
  · exact (fill_of_outside (by simp only [headerSize] at *; omega)).trans
      (writeLE_of_outside (by omega))
  · exact (fill_of_outside (by simp only [headerSize] at *; omega)).trans
      (writeLE_of_outside (by omega))

/-- Clearing the allocation bit changes the control byte only. -/
theorem setFree_of_ne (m : ByteMemory) {s a : ℕ} (ha : a ≠ s + 14) :
    RegularHeader.setFree m s a = m a := writeByte_of_ne _ ha

theorem isAllocation_setFree (m : ByteMemory) (s : ℕ) :
    RegularHeader.isAllocation (RegularHeader.setFree m s) s = false := by
  have hbit : ∀ b : BitVec 8, b &&& 0xFB#8 &&& 0x04#8 = 0#8 := by decide
  simp only [RegularHeader.isAllocation, RegularHeader.setFree, RegularHeader.setControlByte,
    RegularHeader.controlByte, writeByte_self, hbit]
  simp

/-- **A slot in limbo is released** to the free list of its BIBOP. -/
theorem Inv.release (hi : Inv P g live h) {b s : ℕ} {c : Compartment} {B : SingleBIBOP}
    {m₁ : ByteMemory} (hB : h.bibops b = some B) (ho : g.own s = .slot b s)
    (hr : g.reg b = some c) (hu : g.use s = .limbo) (hk : ¬ P.kept c)
    (hm₁ : Released h.mem m₁ s (slotSize c.sizeClass) B.freeList) :
    let h' := (h.setMem (RegularHeader.setFree m₁ s)).setBIBOP b { B with freeList := s }
    let g' := (g.setFree b (s :: g.free b)).setUse s .free
    Inv P g' live h' ∧ Grows (fun _ => False) g h g' h' := by
  have hs := hi.layout.slotRange_of_reg ho hr
  have hsize := slotSize_ge c.sizeClass
  have hlast : RegularHeader.setFree m₁ s (s + 15) = h.mem (s + 15) := by
    rw [setFree_of_ne _ (by omega), hm₁.header _ (by omega) (by simp [headerSize])]
  have hchanged : ∀ a, RegularHeader.setFree m₁ s a ≠ h.mem a →
      s ≤ a ∧ a < s + slotSize c.sizeClass := by
    intro a hne
    by_contra hout
    refine hne ?_
    rw [setFree_of_ne _ (by omega), hm₁.outside a (by omega)]
  have hi₁ : Inv P g live (h.setMem (RegularHeader.setFree m₁ s)) := by
    refine hi.scratch (fun a hne => ?_) fun b' s' ho' hu' => ?_
    · obtain ⟨h₁, h₂⟩ := hchanged a hne
      exact .limbo (hs.own a h₁ h₂) hu
    · have hclean := hi.contents.clean b' s' ho'
      have hbyte : RegularHeader.setFree m₁ s (s' + 15) = h.mem (s' + 15) := by
        by_cases hss : s' = s
        · rw [hss]
          exact hlast
        · by_contra hne
          obtain ⟨h₁, h₂⟩ := hchanged _ hne
          have h₃ := hs.own _ h₁ h₂
          rw [hi.layout.slot_head ho' (by omega) (by omega)] at h₃
          exact hss (Owner.slot.inj h₃).2
      rw [HugeHeader.isHuge, HugeHeader.controlByte, hbyte]
      exact hclean
  have hlink : link (h.setMem (RegularHeader.setFree m₁ s)).mem s = B.freeList := by
    refine (readLE_congr fun a h₁ h₂ => ?_).trans hm₁.link
    exact setFree_of_ne _ (by omega)
  have hi₂ := hi₁.pushFree hB ho hu hr hk hlink (isAllocation_setFree m₁ s)
  refine ⟨hi₂, ?_⟩
  refine Grows.of_same rfl rfl (fun s' p hs' _ => ?_) (fun a p ha _ => ?_) List.suffix_rfl rfl
    fun _ m hm => ⟨m, hm⟩
  · have hne : s' ≠ s := fun he => by rw [he, hu] at hs'; cases hs'
    simpa [hne] using hs'
  · by_contra hne
    obtain ⟨h₁, h₂⟩ := hchanged a hne
    have h₃ := hs.own a h₁ h₂
    cases ha with
    | slot ho' hu' =>
      rw [h₃] at ho'
      cases ho'
      rw [hu] at hu'
      cases hu'
    | huge ho' => rw [h₃] at ho'; cases ho'

/-- The head of a free list is an address. -/
theorem Inv.freeList_lt (hi : Inv P g live h) {b : ℕ} {B : SingleBIBOP}
    (hB : h.bibops b = some B) : B.freeList < 2 ^ 64 := by
  by_cases hne : B.freeList = 0
  · omega
  · obtain ⟨l, hl, -⟩ := (hi.contents.freeChain b B hB).pop hne
    obtain ⟨ho, -⟩ := hi.contents.freeSlot b B.freeList (by simp [hl])
    obtain ⟨c, hr, -⟩ := hi.layout.slotRange ho
    have := hr.top
    omega

/-- **A new chunk** of an exhausted BIBOP. -/
theorem Inv.extend (hi : Inv P g live h) {b a n : ℕ} {c : Compartment} {B : SingleBIBOP}
    (hr : g.reg b = some c) (hB : h.bibops b = some B) (ha : a % 16 = 0) (hpos : 0 < a)
    (htop : a + n ≤ 2 ^ 63) (hR : ∀ y, a ≤ y → y < a + n → g.own y = .fresh) :
    let B' := { B with
      bump := a, base := a, capacity := n, chunks := ⟨a, n⟩ :: B.chunks }
    Inv P (g.relabel ⟨a, n⟩ (.spare b)) live (h.setBIBOP b B') ∧
      Grows (fun _ => False) g h (g.relabel ⟨a, n⟩ (.spare b)) (h.setBIBOP b B') := by
  obtain ⟨hi₁, hg₁⟩ := hi.assign (x := fun _ => False) (r := ⟨a, n⟩) (o := .spare b)
    (fun y hy => hR y hy.1 hy.2) (by simp)
  obtain ⟨B', hB', hok⟩ := hi₁.layout.bibop b c hr
  obtain rfl : B = B' := by simpa [hB] using hB'
  have hok' : BIBOPOk (g.relabel ⟨a, n⟩ (.spare b)).own b c
      { B with bump := a, base := a, capacity := n, chunks := ⟨a, n⟩ :: B.chunks } :=
    ⟨hok.sizeClass, hok.thread, hok.objectSize, hok.object, hok.bound, ha, hpos, le_rfl, htop,
      List.mem_cons_self, fun y h₁ h₂ => relabel_inside ⟨h₁, h₂⟩⟩
  obtain ⟨hi₂, hg₂⟩ :=
    hi₁.setBIBOP (x := fun _ => False) hr hB hok' (List.subset_cons_self _ _) rfl
  exact ⟨hi₂, hg₁.trans hg₂⟩

end Semalloc
