import Semalloc.Backend.Isolation

/-!
# The control byte of regular headers

The three low bits of the control byte say whether a block is huge, whether it comes from the global
pool, and whether it is allocated. `setGlobal` and `setAllocation` toggle their bits. The allocation
bit of a slot is always clear when `setAllocation` toggles it; the global bit is clear when the slot
was never handed out, but set when a slot of the global pool is handed out again.

## Main definitions

* `Marked`, `Fits`: the global bit of a header and of a block tells its compartment
* `Tracked`: a configuration with the compartments of which a block was released
* `ControlBytes`: the bits of all live blocks and of all free slots

## Main results

* `mallocMemory_fits`, `cssRealloc_fits`: what the allocation functions leave
* `control_byte_invariant`: runs in which no slot of the global pool is handed out again
-/

set_option autoImplicit false

namespace Semalloc

open ByteMemory Region Effect MemoryManager Config

variable {P P' : Promise} {g g' : Ghost} {live live' : List Block} {h h' : Heap} {B B' : Block}
  {K : Compartment → Prop} {τ : ℕ}

/-- The bit `B` of the control byte, `1` for a block of the global pool. -/
def RegularHeader.isGlobal (m : ByteMemory) (header : ℕ) : Bool :=
  controlByte m header &&& 0x02#8 ≠ 0

/-! ## Fewer promises -/

/-- What holds under a promise holds under a weaker one. -/
theorem Inv.weaken (hi : Inv P g live h) (hk : ∀ k, P'.kept k → P.kept k)
    (hs : P.shifted → P'.shifted) : Inv P' g live h := by
  have hblock : ∀ {b c s p}, SlotBlock P g.own g.reg h.mem b c s p →
      SlotBlock P' g.own g.reg h.mem b c s p := fun hb =>
    ⟨hb.reg, hb.own, hb.bibop, hb.threadId, hb.notHuge, hb.aligned, hb.slot_le, hb.le_slot,
      hb.kind.imp_right fun hsh => ⟨hs hsh.1, hsh.2⟩⟩
  refine ⟨hi.layout, { hi.contents with pendingBlock := ?_, live := ?_ },
    { hi.history with isolated := ?_, kept := ?_ }⟩
  · intro t p hp
    obtain ⟨b, c, s, hc, hb, hu⟩ := hi.contents.pendingBlock t p hp
    exact ⟨b, c, s, hc, hblock hb, hu⟩
  · intro B hB
    cases hi.contents.live B hB with
    | slot hB => exact .slot ⟨hblock hB.block, hB.use, hB.count_le, hB.limit_le⟩
    | huge hB => exact .huge hB
  · exact hi.history.isolated.imp fun hr c ho hover =>
      ⟨(hr c ho hover).1, fun hkept => (hr c ho hover).2 (hk c hkept)⟩
  · exact fun b s c ho hr hkept => hi.history.kept b s c ho hr (hk c hkept)

/-! ## Headers -/

/-- The bits a header initialization leaves. -/
theorem isGlobal_writeHeader (m : ByteMemory) (s t b : ℕ) (c : BitVec 8) :
    RegularHeader.isGlobal (writeHeader m s t b c) s = decide (c &&& 0x02#8 ≠ 0) := by
  have hbyte : RegularHeader.controlByte (writeHeader m s t b c) s = c := by
    unfold RegularHeader.controlByte writeHeader
    rw [writeLE_of_outside (by omega), writeByte_self]
  rw [RegularHeader.isGlobal, hbyte]

/-- `setIndividual` clears the bit. -/
theorem isGlobal_initIndividual (m : ByteMemory) (s t b : ℕ) :
    RegularHeader.isGlobal (RegularHeader.initIndividual m s t b) s = false := by
  have hbits : ∀ c : BitVec 8, (c &&& 0xFE#8 &&& 0xFD#8 ^^^ 0x04#8) &&& 0x02#8 = 0 := by decide
  rw [initIndividual_eq, isGlobal_writeHeader, hbits]
  rfl

/-- `setGlobal` toggles the bit. -/
theorem isGlobal_initGlobal (m : ByteMemory) (s t b : ℕ) :
    RegularHeader.isGlobal (RegularHeader.initGlobal m s t b) s = !RegularHeader.isGlobal m s := by
  have hbits : ∀ c : BitVec 8, decide ((c &&& 0xFE#8 ^^^ 0x02#8 ^^^ 0x04#8) &&& 0x02#8 ≠ 0) =
      !decide (c &&& 0x02#8 ≠ 0) := by decide
  rw [initGlobal_eq, isGlobal_writeHeader, hbits]
  rfl

/-- The global bit of the header tells the compartment, at least for those in `K`. -/
def Marked (K : Compartment → Prop) (m : ByteMemory) (header : ℕ) (k : Compartment) : Prop :=
  (RegularHeader.isGlobal m header = true → k.Global) ∧
    (k.Global → K k → RegularHeader.isGlobal m header = true)

/-- The bit is read from one byte. -/
theorem Marked.congr {m m' : ByteMemory} {header : ℕ} {k : Compartment} (hm : Marked K m header k)
    (hbyte : m' (header + 14) = m (header + 14)) : Marked K m' header k := by
  have hbit : RegularHeader.isGlobal m' header = RegularHeader.isGlobal m header := by
    unfold RegularHeader.isGlobal RegularHeader.controlByte
    rw [hbyte]
  rw [Marked, hbit]
  exact hm

/-- The global bit of the block at `p` tells the compartment it was served from. -/
def Fits (K : Compartment → Prop) (h : Heap) (p : ℕ) : Prop :=
  ∀ r k, h.newest (p - headerSize) = some r → r.origin = .pool k →
    Marked K h.mem (p - headerSize) k

theorem Fits.congr {p : ℕ} (hf : Fits K h p) (hserved : h'.served = h.served)
    (hbyte : h'.mem (p - headerSize + 14) = h.mem (p - headerSize + 14)) : Fits K h' p := by
  intro r k hr ho
  rw [Heap.newest, hserved] at hr
  exact (hf r k hr ho).congr hbyte

/-- **A live block that is spared** keeps its header and its compartment. -/
theorem Fits.grows {x : ℕ → Prop} (hf : Fits K h B.ptr) (hi : Inv P g live h)
    (hi' : Inv P' g' live' h') (hg : Grows x g h g' h') (hB : B ∈ live) (hB' : B' ∈ live')
    (hptr : B'.ptr = B.ptr) (hx : ¬ x B.ptr) : Fits K h' B.ptr := by
  have hsame := (hi.contents.live B hB).grows hi.layout hg hx
  have hpos := (hi.contents.live B hB).headerSize_lt
  obtain ⟨r₀, hr₀, hlog₀⟩ := hi.history.logged B hB
  obtain ⟨r₁, hr₁, hlog₁⟩ := hi'.history.logged B' hB'
  rw [hptr] at hr₁
  intro r k hr ho
  rw [hr₁] at hr
  cases hr
  -- the two records are of the compartment of the BIBOP that owns the header
  have hk : r₀.origin = .pool k := by
    cases hlog₁ with
    | @pool b c ho₁ hreg₁ _ _ hhead₁ =>
      rw [ho] at ho₁
      cases ho₁
      rw [hptr] at hhead₁
      cases hlog₀ with
      | @pool b₀ c₀ ho₀ hreg₀ _ _ hhead₀ =>
        have hown := hg.slot _ _ _ hhead₀
        rw [hhead₁] at hown
        obtain ⟨rfl, -⟩ := Owner.slot.inj hown
        have hreg := hg.reg _ _ hreg₀
        rw [hreg₁] at hreg
        cases hreg
        exact ho₀
      | huge ho₀ _ hown₀ hhead₀ =>
        have hown := hg.huge _ _ hhead₀ hx
        rw [hhead₁] at hown
        cases hown
    | huge ho₁ => rw [ho] at ho₁; cases ho₁
  exact (hf r₀ k hr₀ hk).congr (hsame _ ⟨by omega, by omega⟩)

/-! ## Allocation -/

/-- A slot of a kept compartment was never handed out, and its bytes are zero. -/
theorem allocateObject_blank (hi : Inv P g live h) {b : ℕ} {c : Compartment} {B : SingleBIBOP}
    (hr : g.reg b = some c) (hB : h.bibops b = some B) (hready : B.bump ≤ B.base + B.capacity)
    (hk : P.kept c) :
    Spec (SingleBIBOP.allocateObject b) h
      (fun s h' => s ≠ 0 → RegularHeader.controlByte h'.mem s = 0) fun _ => True := by
  obtain ⟨B', hB', hok⟩ := hi.layout.bibop b c hr
  obtain rfl : B = B' := by simpa [hB] using hB'
  unfold SingleBIBOP.allocateObject
  refine Spec.bind (getBIBOP_spec hB ?_)
  refine Spec.ite (fun hne => ?_) fun _ => ?_
  · -- its free list is empty
    obtain ⟨l, hfree, -⟩ := hi.popFree hB hne
    exact absurd hk (hi.not_kept_of_free (s := B.freeList) (by simp [hfree]) hr)
  · refine Spec.bind (setBIBOP_spec ?_)
    refine Spec.ite (fun _ => Spec.pure fun hz => absurd rfl hz) fun hfit => Spec.pure fun _ => ?_
    have hsize := slotSize_ge c.sizeClass
    have hbase := hok.base_le
    have htop := hok.top
    have hle := slotSize_le hok.sizeClass
    have hspare : g.own (B.bump + 14) = .spare b := by
      refine hok.spare _ (by omega) ?_
      rw [hok.objectSize] at hfit
      simp only [sub64] at hfit
      omega
    exact hi.contents.zero _ (by rw [hspare]; trivial)

theorem allocateFrom_blank {this b : ℕ} {c : Compartment} {m : MemoryManager} (hi : Inv P g live h)
    (hready : Ready h) (hr : g.reg b = some c) (hc : c.thread = this)
    (hm : h.globalMemoryManager this = some m) :
    Spec (allocateFrom this b) h
      (fun s h' => P.kept c → s ≠ 0 → RegularHeader.controlByte h'.mem s = 0) fun _ => True := by
  by_cases hk : P.kept c
  swap
  · exact Spec.trivial.imp fun _ _ _ hk' => absurd hk' hk
  refine Spec.imp ?_ fun s h' (hblank : s ≠ 0 → RegularHeader.controlByte h'.mem s = 0) _ => hblank
  obtain ⟨B, hB, hok⟩ := hi.layout.bibop b c hr
  unfold allocateFrom
  refine Spec.seq ((allocateObject_spec hi hr hB (by rw [hc]; exact hm) (hready b B hB)).any.both
    (allocateObject_blank hi hr hB (hready b B hB) hk)) ?_
  rintro s h₁ ⟨⟨g₁, hi₁, hg₁, ⟨hne, -, -⟩ | ⟨rfl, -, -, rfl⟩⟩, hblank⟩
  · rw [if_neg hne]
    exact Spec.pure hblank
  · -- the chunk is exhausted
    rw [if_pos rfl]
    refine Spec.seq (acquireIndividualDataPool_spec hi₁ hm).any ?_
    rintro a h₂ ⟨g₂, m₂, hacq⟩
    have hB₂ : h₂.bibops b = some { B with bump := B.bump + slotSize c.sizeClass } := by
      rw [hacq.bibops]
      simp
    have hr₂ : g₂.reg b = some c := by
      rw [hacq.reg]
      exact hg₁.reg b c hr
    unfold SingleBIBOP.extendSingleBIBOP
    refine Spec.bind (Spec.bind (getBIBOP_spec hB₂ (setBIBOP_spec ?_)))
    obtain ⟨hi₃, -⟩ := hacq.inv.extend hr₂ hB₂ hacq.chunk.aligned hacq.chunk.pos hacq.chunk.top
      hacq.chunk.own
    exact allocateObject_blank hi₃ hr₂ (Function.update_self ..) (Nat.le_add_right _ _) hk

/-- The newest record tells the compartment of the block it is about. -/
theorem Fits.of_served {r : Served} {rest : List Served} {p : ℕ} (hs : h.served = r :: rest)
    (hc : r.range.Contains (p - headerSize))
    (hm : ∀ k, r.origin = .pool k → Marked K h.mem (p - headerSize) k) : Fits K h p := by
  intro r' k hr ho
  have hnewest : h.newest (p - headerSize) = some r := by
    rw [Heap.newest, hs]
    exact List.find?_cons_of_pos (decide_eq_true hc)
  rw [hnewest] at hr
  cases hr
  exact hm k ho

section Regular

variable {this realSize : ℕ} {m : MemoryManager}

theorem allocateGlobal_fits (hi : Inv P g live h) (hready : Ready h)
    (hm : h.globalMemoryManager this = some m) (hsize : realSize < bagThreshold) :
    Spec (allocateGlobal this realSize) h (fun p h' => Fits P.kept h' p) fun _ => True := by
  have hok := hi.layout.manager this m hm
  have hreg := hok.globalBIBOP _ (computeSizeIndex_lt hsize)
  unfold allocateGlobal
  refine Spec.bind (getManager_spec hm ?_)
  dsimp only
  refine Spec.seq ((allocateFrom_spec hi hready hreg rfl hm).any.both
    (allocateFrom_blank hi hready hreg rfl hm)) ?_
  rintro s h₁ ⟨⟨g₁, ha, ht⟩, hblank⟩
  obtain ⟨m₁, hm₁⟩ := ha.grows.manager this m hm
  refine Spec.bind (getManager_spec hm₁ ?_)
  refine Spec.bind (poke_spec (.inr trivial) fun _ => ?_)
  refine Spec.bind (serve_spec (Spec.pure ?_))
  have hsize := slotSize_ge (BIBOP.computeSizeIndex realSize)
  refine Fits.of_served rfl ⟨by simp, by simp only [Nat.add_sub_cancel]; omega⟩ fun k ho => ?_
  cases ho
  rw [Nat.add_sub_cancel]
  refine ⟨fun _ => rfl, fun _ hk => ?_⟩
  have hclear : RegularHeader.isGlobal h₁.mem s = false := by
    rw [RegularHeader.isGlobal, hblank hk (ha.inv.layout.slot_pos ht.own)]
    decide
  exact (isGlobal_initGlobal h₁.mem s _ _).trans (by rw [hclear]; rfl)

theorem allocateIndividual_fits (hi : Inv P g live h) (hready : Ready h)
    (hm : h.globalMemoryManager this = some m) (hsize : realSize < bagThreshold) {CSI : Word}
    (hCSI : CSI.toNat ≠ allOnes) :
    Spec (allocateIndividual this realSize CSI) h (fun p h' => Fits K h' p) fun _ => True := by
  unfold allocateIndividual
  refine Spec.seq (getIndividualBIBOPbyCSI_spec hi hready hm hsize hCSI).any ?_
  rintro b h₁ ⟨g₁, ha₁, hr⟩
  obtain ⟨m₁, hm₁⟩ := ha₁.grows.manager this m hm
  refine Spec.seq (allocateFrom_spec ha₁.inv ha₁.ready hr rfl hm₁).any ?_
  rintro s h₂ ⟨g₂, ha₂, ht⟩
  obtain ⟨m₂, hm₂⟩ := ha₂.grows.manager this m₁ hm₁
  refine Spec.bind (getManager_spec hm₂ ?_)
  refine Spec.bind (poke_spec (.inr trivial) fun _ => ?_)
  refine Spec.bind (serve_spec (Spec.pure ?_))
  have hsize := slotSize_ge (BIBOP.computeSizeIndex realSize)
  refine Fits.of_served rfl ⟨by simp, by simp only [Nat.add_sub_cancel]; omega⟩ fun k ho => ?_
  cases ho
  rw [Nat.add_sub_cancel]
  have hclear := isGlobal_initIndividual h₂.mem s m₂.threadId b
  exact ⟨fun hset => absurd (hclear.symm.trans hset) Bool.false_ne_true, fun hk => by cases hk⟩

theorem allocateRegular_fits (hi : Inv P g live h) (hready : Ready h)
    (hm : h.globalMemoryManager this = some m) (hsize : realSize < bagThreshold) {CSI : Word}
    {inLoop : Bool} (hCSI : CSI.toNat ≠ allOnes) :
    Spec (allocateRegular this realSize CSI inLoop) h (fun p h' => Fits P.kept h' p)
      fun _ => True := by
  unfold allocateRegular
  dsimp only
  refine Spec.ite (fun _ => ?_) fun _ => ?_
  · unfold tryPutToLazyPool
    refine Spec.bind (Spec.seq (tryPutToLazyPool_spec hi hready hm).any ?_)
    rintro kept h₁ ⟨ha, -⟩
    refine Spec.pure ?_
    obtain ⟨m₁, hm₁⟩ := ha.grows.manager this m hm
    refine Spec.ite (fun _ => ?_) fun _ => ?_
    · exact allocateIndividual_fits ha.inv ha.ready hm₁ hsize hCSI
    · exact allocateGlobal_fits ha.inv ha.ready hm₁ hsize
  · exact Spec.bind (Spec.pure (allocateGlobal_fits hi hready hm hsize))

end Regular

/-- A mapping has no bit for the pools. -/
theorem allocateHuge_fits {size : Word} (hi : Inv P g live h) :
    Spec (allocateHuge size) h (fun p h' => Fits K h' p) fun _ => True := by
  have hmod := hugeRound_mod size
  have hlt : hugeRound size < 2 ^ 64 := BitVec.isLt _
  have hlen : (((size + 4096#64 - 1#64) &&& ~~~4095#64) + 4096#64).toNat =
      (hugeRound size + 4096) % 2 ^ 64 := BitVec.toNat_add _ _
  unfold allocateHuge
  dsimp only
  rw [hlen]
  refine Spec.bind (mmap_spec hi.layout.excluded trivial fun a hf => ?_)
  refine Spec.ite (fun _ => Spec.bind (Spec.throw trivial)) fun _ => ?_
  obtain ⟨hpos, -, hpage, htop, -⟩ := hf
  have hdata : (a + pageSize) % 2 ^ 64 = a + pageSize := by
    simp only [pageSize]
    omega
  rw [hdata]
  refine Spec.bind (poke_spec (.inr trivial) fun _ => ?_)
  refine Spec.bind (poke_spec (.inr trivial) fun _ => ?_)
  refine Spec.bind (serve_spec (Spec.pure ?_))
  refine Fits.of_served rfl ⟨?_, ?_⟩ fun k ho => by cases ho
  all_goals simp only [pageSize, headerSize]; omega

/-! ## The overloads -/

/-- **`mallocMemory(size_t)`** leaves a header that tells the compartment. -/
theorem mallocMemory_fits {this : ℕ} {size : Word} {m : MemoryManager} (hi : Inv P g live h)
    (hready : Ready h) (hm : h.globalMemoryManager this = some m) :
    Spec (mallocMemory this size) h (fun p h' => p ≠ 0 → Fits P.kept h' p) fun _ => True := by
  unfold mallocMemory
  refine Spec.seq (handleFreeList_spec hi hready hm).any ?_
  rintro - h₁ ⟨⟨g₁, ha⟩, -⟩
  obtain ⟨m₁, hm₁⟩ := ha.grows.manager this m hm
  refine Spec.ite (fun _ => (allocateHuge_fits ha.inv).imp fun _ _ hf _ => hf) fun _ => ?_
  refine Spec.ite (fun _ => Spec.pure fun hz => absurd rfl hz) fun _ => ?_
  refine Spec.ite (fun _ => (allocateHuge_fits ha.inv).imp fun _ _ hf _ => hf) fun hlt => ?_
  exact (allocateRegular_fits ha.inv ha.ready hm₁ (by omega) (getCSI_ne_allOnes size)).imp
    fun _ _ hf _ => hf

/-- **`mallocMemory(size_t, size_t, bool)`** leaves a header that tells the compartment. -/
theorem mallocMemoryCSI_fits {this : ℕ} {realSize CSI : Word} {inLoop : Bool}
    (hi : Inv P g live h) (hready : Ready h) (hCSI : CSI.toNat ≠ allOnes) :
    Spec (mallocMemoryCSI this realSize CSI inLoop) h (fun p h' => p ≠ 0 → Fits P.kept h' p)
      fun _ => True := by
  unfold mallocMemoryCSI
  rcases hm : h.globalMemoryManager this with - | m
  · exact Spec.bind (drainFreeList_unmanaged hm)
  refine Spec.seq (handleFreeList_spec hi hready hm).any ?_
  rintro - h₁ ⟨⟨g₁, ha⟩, -⟩
  obtain ⟨m₁, hm₁⟩ := ha.grows.manager this m hm
  refine Spec.ite (fun _ => Spec.pure fun hz => absurd rfl hz) fun _ => ?_
  refine Spec.ite (fun _ => (allocateHuge_fits ha.inv).imp fun _ _ hf _ => hf) fun hlt => ?_
  exact (allocateRegular_fits ha.inv ha.ready hm₁ (by omega) hCSI).imp fun _ _ hf _ => hf

/-! ## Entry points -/

/-- `mallocMemory` of the calling thread. -/
theorem mallocMemory_thread_fits {size : Word} (hi : Inv P g live h) (hready : Ready h)
    (hs : Started h τ) :
    Spec (do mallocMemory (← getThreadId τ) size) h (fun p h' => p ≠ 0 → Fits P.kept h' p)
      fun _ => True := by
  obtain ⟨-, m, hm⟩ := hs
  refine Spec.bind (getThreadId_spec ?_)
  exact mallocMemory_fits (hi.addCall (x := Spared) ⟨τ, (h.tls τ).threadId⟩).1 hready hm

theorem cssMalloc_fits {size : Word} (hi : Inv P g live h) (hready : Ready h) (hτ : τ ≠ 0) :
    Spec (cssMalloc τ size) h (fun p h' => p ≠ 0 → Fits P.kept h' p) fun _ => True := by
  unfold cssMalloc
  refine Spec.seq (ensureThread_spec hi hready hτ).any ?_
  rintro - h₁ ⟨g₁, ha, hs⟩
  exact mallocMemory_thread_fits ha.inv ha.ready hs

theorem cssCalloc_fits {nmemb size : Word} (hi : Inv P g live h) (hready : Ready h) :
    Spec (cssCalloc τ nmemb size) h (fun p h' => p ≠ 0 → Fits P.kept h' p) fun _ => True := by
  unfold cssCalloc
  dsimp only
  refine Spec.bind (getThreadId_spec ?_)
  refine Spec.seq ((mallocMemoryCSI_spec (n := 0) (hi.addCall (x := Spared) _).1 hready
    (getCSI_ne_allOnes size) (Nat.zero_le _)).any.both
    (mallocMemoryCSI_fits (hi.addCall (x := Spared) _).1 hready (getCSI_ne_allOnes size))) ?_
  rintro p h₁ ⟨hp, hf⟩
  refine Spec.bind (poke_spec (.inr trivial) fun _ => Spec.pure fun hne => ?_)
  have hge : headerSize ≤ p := by
    rcases hp with ⟨hz, -⟩ | ⟨-, ha⟩
    · exact absurd hz hne
    · exact ha.headerSize_le
  exact (hf hne).congr rfl (fill_of_outside (by simp only [headerSize] at *; omega))

/-- The runs with the same shifts that promise nothing about releases. -/
def Promise.unkept (P : Promise) : Promise := ⟨fun _ => False, P.shifted⟩

theorem Inv.unkept (hi : Inv P g live h) : Inv P.unkept g live h :=
  hi.weaken (fun _ hf => hf.elim) id

/-- The block that takes the place of another one. -/
theorem moveBlock_fits {size : Word} {oldSize : ℕ} (hi : Inv P g live h) (hready : Ready h)
    (hs : Started h τ) (hB : B ∈ live) (hsize : oldSize < (getRealSize size).toNat) :
    Spec (do
      let newObject ← mallocMemory (← getThreadId τ) size
      peek B.ptr oldSize fun _ => ()
      poke newObject oldSize (copy · newObject B.ptr oldSize)
      releaseBlock τ B.ptr
      return newObject) h
      (fun r h' => r ≠ B.ptr ∧ Fits P.kept h' r) fun _ => True := by
  have hd := realSize_le_decodedSize size
  have hu := decodedSize_le_mallocUsable size
  obtain ⟨-, m, hm⟩ := id hs
  refine Spec.bind (getThreadId_spec ?_)
  obtain ⟨hi₁, hg₁⟩ := hi.addCall (x := Spared) ⟨τ, (h.tls τ).threadId⟩
  refine Spec.seq ((mallocMemory_spec hi₁ hready hm hu).any.both (mallocMemory_fits hi₁ hready hm)) ?_
  rintro r h₁ ⟨⟨-, -, hz, -⟩ | ⟨-, ha₁⟩, hfits⟩
  · rw [hz] at hsize
    exact absurd hsize (Nat.not_lt_zero _)
  have ha := ha₁.after_spared hg₁
  have hr := ha.ptr_pos
  have hge := ha.headerSize_le
  have hf₁ := hfits (by omega)
  refine Spec.bind (peek_spec (.inr trivial) fun _ => ?_)
  refine Spec.bind (poke_spec (.inr trivial) fun _ => ?_)
  have hcopy : ∀ a, copy h₁.mem r B.ptr oldSize a ≠ h₁.mem a →
      r ≤ a ∧ a < r + mallocUsable size := fun a hchanged => by
    by_contra hout
    exact hchanged (copy_of_outside (by omega))
  -- the copy leaves the header as it is
  have hbyte : copy h₁.mem r B.ptr oldSize (r - headerSize + 14) =
      h₁.mem (r - headerSize + 14) := copy_of_outside (by simp only [headerSize] at hge ⊢; omega)
  have hf₂ : Fits P.kept (h₁.setMem (copy h₁.mem r B.ptr oldSize)) r := hf₁.congr rfl hbyte
  obtain ⟨-, hf, -⟩ | ⟨-, -, ⟨g₂, ha₂⟩, -⟩ := ha.write not_false hcopy
  · exact hf.elim
  have hne : B.ptr ≠ r := ha₂.inv.outside B hB
  -- the release spares the new block
  refine Spec.seq ((releaseBlock_spec ha₂.inv.unkept ha₂.ready (hs.grows ha₂.grows)
    (List.mem_cons_of_mem _ hB) fun _ _ _ _ _ hf => hf).mono (fun _ _ hr => hr)
    fun _ _ => trivial) ?_
  rintro - h₃ ⟨g₃, ha₃⟩
  have hmem : (⟨r, decodedSize size, mallocUsable size⟩ : Block) ∈
      dropLive (⟨r, decodedSize size, mallocUsable size⟩ :: live) B.ptr :=
    List.mem_filter.mpr ⟨List.mem_cons_self, decide_eq_true hne.symm⟩
  have hf₃ : Fits P.kept h₃ r :=
    Fits.grows (B := ⟨r, decodedSize size, mallocUsable size⟩) hf₂ ha₂.inv ha₃.inv ha₃.grows
      List.mem_cons_self hmem rfl hne.symm
  exact Spec.pure ⟨hne.symm, hf₃⟩

/-- **`css_realloc`** answers the block it was given, whose bits stay, or one with a header that
tells the compartment. -/
theorem cssRealloc_fits {ptr : ℕ} {size : Word} (hi : Inv P g live h) (hready : Ready h)
    (hτ : τ ≠ 0) (hptr : ptr = 0 ∨ ∃ B ∈ live, B.ptr = ptr) :
    Spec (cssRealloc τ ptr size) h (fun r h' => r ≠ 0 →
      (r = ptr ∧ ∀ K, Fits K h ptr → Fits K h' ptr) ∨ (r ≠ ptr ∧ Fits P.kept h' r))
      fun _ => True := by
  unfold cssRealloc
  refine Spec.seq (ensureThread_spec hi hready hτ).any ?_
  rintro - h₁ ⟨g₁, ha, hs⟩
  by_cases hz : ptr = 0
  · rw [if_pos hz, hz]
    exact (mallocMemory_thread_fits ha.inv ha.ready hs).imp fun r h' hf hne => .inr ⟨hne, hf hne⟩
  obtain ⟨B, hB, rfl⟩ := hptr.resolve_left hz
  rw [if_neg hz]
  refine Spec.ite (fun _ => ?_) fun _ => ?_
  · exact Spec.seq Spec.trivial fun _ _ _ => Spec.pure fun hne => absurd rfl hne
  · obtain ⟨hu, -⟩ := (ha.inv.contents.live B hB).usable ha.inv.layout
    have hold : Spec (cssMallocUsableSize B.ptr) h₁
        (fun n h₂ => n = usableSize h₁ B.ptr ∧ h₂ = h₁) fun _ => True := by
      unfold Spec
      rw [hu]
      exact ⟨rfl, rfl⟩
    refine Spec.seq hold ?_
    rintro oldSize h₂ ⟨rfl, rfl⟩
    dsimp only
    refine Spec.ite (fun _ => Spec.pure fun _ => .inl ⟨rfl, fun K hf => ?_⟩) fun hlt => ?_
    · exact hf.grows hi ha.inv ha.grows hB hB rfl not_false
    · exact (moveBlock_fits ha.inv ha.ready hs hB (by omega)).imp fun r h' hr _ => .inr hr

/-! ## Runs -/

/-- The compartment a record is about. -/
def Served.compartment (r : Served) : Option Compartment :=
  match r.origin with
  | .pool k => some k
  | .huge => none

theorem Served.mem_compartment {r : Served} {k : Compartment} :
    k ∈ r.compartment ↔ r.origin = .pool k := by
  unfold compartment
  cases r.origin <;> simp [eq_comm]

/-- The compartment the block at `p` was served from, none for a mapping. -/
def Heap.compartmentOf (h : Heap) (p : ℕ) : Option Compartment :=
  (h.newest (p - headerSize)).bind Served.compartment

theorem Heap.mem_compartmentOf {p : ℕ} {k : Compartment} :
    k ∈ h.compartmentOf p ↔
      ∃ r, h.newest (p - headerSize) = some r ∧ r.origin = .pool k := by
  unfold compartmentOf
  rw [Option.mem_def, Option.bind_eq_some_iff]
  simp only [← Option.mem_def, Served.mem_compartment]

namespace Config

/-- The compartments of the recorded slots around a pointer. -/
def compartmentsAt (c : Config) (ptr : ℕ) : List Compartment :=
  (c.heap.served.filter fun r => r.range.Contains ptr).filterMap Served.compartment

/-- The compartments of which the event releases a block. -/
def releasedBy (c : Config) (e : Event) : List Compartment :=
  match e.op with
  | .free ptr => c.compartmentsAt ptr
  | .realloc ptr size => if c.Releases ptr size then c.compartmentsAt ptr else []
  | _ => []

end Config

/-- A call that aligns nothing. -/
def Op.Unaligned : Op → Prop
  | .memalign _ _ => False
  | _ => True

instance : DecidablePred Op.Unaligned := fun op => by
  cases op <;> unfold Op.Unaligned <;> infer_instance

/-- A configuration with the compartments of which a block was released on the way to it. -/
structure Tracked where
  config : Config
  released : List Compartment

namespace Tracked

def step (s : Tracked) (e : Event) : Option Tracked :=
  (s.config.step e).map fun c => ⟨c, s.config.releasedBy e ++ s.released⟩

/-- The event hands out no block from a compartment of the global pool of which a block was
released before. -/
def Unrecycled (s : Tracked) (e : Event) : Prop :=
  ∀ c ∈ s.config.step e, ∀ B ∈ c.live, ¬ s.config.Owned B.ptr →
    ∀ k ∈ c.heap.compartmentOf B.ptr, k.Global → k ∉ s.released

instance (s : Tracked) (e : Event) : Decidable (s.Unrecycled e) := by
  unfold Unrecycled
  infer_instance

/-- The runs of `css_malloc`, `css_calloc`, `css_realloc` and `css_free` in which no compartment of
the global pool hands out a block after one of its blocks was released. -/
def Run (os : Kernel) : Tracked → Prop :=
  Transition.Reachable (· = ⟨initial os, []⟩)
    (fun s e => s.config.Permitted e ∧ e.op.Unaligned ∧ s.Unrecycled e) step

end Tracked

/-- No block of the compartments of the global pool outside `R` is released. -/
def Promise.unreleased (R : List Compartment) : Promise := ⟨fun k => k.Global ∧ k ∉ R, False⟩

/-- What holds along the runs: the invariant, with a promise about the compartments without a
release, and headers that tell the compartment. -/
def Tracked.Sound (s : Tracked) : Prop :=
  ∃ g, Inv (.unreleased s.released) g s.config.live s.config.heap ∧ Ready s.config.heap ∧
    ∀ B ∈ s.config.live, Fits (fun _ => True) s.config.heap B.ptr

/-- The compartments of which the event releases a block are recorded as such. -/
theorem Config.honours_unreleased {c : Config} {e : Event} (R : List Compartment)
    (hop : e.op.Unaligned) : c.Honours (.unreleased (c.releasedBy e ++ R)) e := by
  have hnot : ∀ ptr, (∀ k ∈ c.compartmentsAt ptr, k ∈ c.releasedBy e) →
      c.NotKept (.unreleased (c.releasedBy e ++ R)) ptr := by
    intro ptr hsub r hr hfrom hcontains
    obtain ⟨k, ho, -, hk⟩ := hfrom.pool
    refine hk (List.mem_append_left _ (hsub k ?_))
    exact List.mem_filterMap.mpr ⟨r, List.mem_filter.mpr ⟨hr, decide_eq_true hcontains⟩,
      Served.mem_compartment.mpr ho⟩
  obtain ⟨τ, op⟩ := e
  cases op with
  | free ptr => exact hnot ptr fun k hk => hk
  | realloc ptr size =>
    intro hrel
    refine hnot ptr fun k hk => ?_
    rw [releasedBy]
    simp only [if_pos hrel]
    exact hk
  | memalign alignment size => exact hop.elim
  | malloc _ | calloc _ _ | write _ _ _ => exact trivial

/-- A new block whose compartment has seen no release. -/
theorem Fits.of_unreleased {R : List Compartment} {p : ℕ}
    (hf : Fits (Promise.unreleased R).kept h p)
    (hnew : ∀ k ∈ h.compartmentOf p, k.Global → k ∉ R) : Fits (fun _ => True) h p := by
  intro r k hr ho
  have hmarked := hf r k hr ho
  exact ⟨hmarked.1, fun hk _ => hmarked.2 hk ⟨hk, hnew k (Heap.mem_compartmentOf.mpr ⟨r, hr, ho⟩) hk⟩⟩

/-- **One event** leaves headers that tell the compartment. -/
theorem Tracked.Sound.step {s s' : Tracked} {e : Event} (hs : s.Sound)
    (hp : s.config.Permitted e) (hop : e.op.Unaligned) (hun : s.Unrecycled e)
    (hstep : s.step e = some s') : s'.Sound := by
  obtain ⟨g, hi, hready, hfits⟩ := hs
  obtain ⟨c', hc', rfl⟩ := Option.map_eq_some_iff.mp hstep
  have hh := s.config.honours_unreleased s.released hop
  have hi₁ : Inv (.unreleased (s.config.releasedBy e ++ s.released)) g s.config.live
      s.config.heap :=
    hi.weaken (fun k hk => ⟨hk.1, fun hmem => hk.2 (List.mem_append_right _ hmem)⟩) id
  obtain ⟨g', ha⟩ := step_after hi₁ hready hp hh hc'
  refine ⟨g', ha.inv, ha.ready, ?_⟩
  -- blocks other than the one the event is given are spared
  have hold : ∀ B ∈ s.config.live, ∀ B' ∈ c'.live, B'.ptr = B.ptr → B.ptr ≠ e.op.pointer →
      Fits (fun _ => True) c'.heap B'.ptr := by
    intro B hB B' hB' hptr hne
    rw [hptr]
    refine (hfits B hB).grows hi ha.inv ha.grows hB hB' hptr ?_
    rintro (hpointer | hout)
    · exact hne hpointer
    · exact hout B hB rfl
  have hnew : ∀ B' ∈ c'.live, Outside s.config.live B'.ptr →
      Fits (Promise.unreleased s.released).kept c'.heap B'.ptr →
      Fits (fun _ => True) c'.heap B'.ptr := by
    intro B' hB' hout hf
    refine hf.of_unreleased (hun c' hc' B' hB' ?_)
    rintro (hz | ⟨B, hB, hptr⟩)
    · exact (ha.inv.ptr_pos hB').ne' hz
    · exact hout B hB hptr
  have hadd : ∀ live₀ r n l, c'.live = addLive live₀ r n l →
      (∀ B ∈ live₀, B ∈ s.config.live ∧ B.ptr ≠ e.op.pointer) →
      (∀ B ∈ s.config.live, B ∈ live₀ ∨ B.ptr ≠ r) →
      (r ≠ 0 → Fits (Promise.unreleased s.released).kept c'.heap r) →
      ∀ B' ∈ c'.live, Fits (fun _ => True) c'.heap B'.ptr := by
    intro live₀ r n l hlive hsub hrest hf B' hB'
    have hcases := hB'
    have hinv := ha.inv
    rw [hlive, addLive] at hcases hinv
    split at hcases
    · obtain ⟨hB, hne⟩ := hsub B' hcases
      exact hold B' hB B' hB' rfl hne
    · rename_i hr
      rw [if_neg hr] at hinv
      rcases List.mem_cons.mp hcases with rfl | hB
      · refine hnew _ hB' (fun B hB hptr => ?_) (hf hr)
        rcases hrest B hB with hmem | hne
        · exact hinv.outside B hmem hptr
        · exact hne hptr
      · obtain ⟨hB, hne⟩ := hsub B' hB
        exact hold B' hB B' hB' rfl hne
  obtain ⟨τ, op⟩ := e
  obtain ⟨hτ, hp⟩ := hp
  have hpos : ∀ B ∈ s.config.live, B ∈ s.config.live ∧ B.ptr ≠ 0 := fun B hB =>
    ⟨hB, (hi.ptr_pos hB).ne'⟩
  cases op with
  | malloc size =>
    obtain ⟨r, t, hrun, rfl⟩ := returned_eq hc'
    exact hadd _ r _ _ rfl hpos (fun B hB => .inl hB) ((cssMalloc_fits hi hready hτ).of_ok hrun)
  | calloc nmemb size =>
    obtain ⟨r, t, hrun, rfl⟩ := returned_eq hc'
    exact hadd _ r _ _ rfl hpos (fun B hB => .inl hB) ((cssCalloc_fits hi hready).of_ok hrun)
  | realloc ptr size =>
    obtain ⟨r, t, hrun, rfl⟩ := returned_eq hc'
    have hre := (cssRealloc_fits hi hready hτ hp).of_ok hrun
    by_cases hr : r = ptr
    · -- the same block, or null for null
      intro B' hB'
      have hcases := hB'
      simp only [if_pos hr, resizeLive, List.mem_map] at hcases
      obtain ⟨B, hB, rfl⟩ := hcases
      have hptr : (if B.ptr = ptr then { B with count := (getRealSize size).toNat } else B).ptr =
          B.ptr := by split <;> rfl
      by_cases hne : B.ptr = ptr
      · have hpos := (hi.ptr_pos hB).ne'
        obtain ⟨-, hkeep⟩ := (hre (by rw [hr, ← hne]; exact hpos)).resolve_right fun h => h.1 hr
        rw [hptr, hne]
        exact hkeep _ (hne ▸ hfits B hB)
      · exact hold B hB _ hB' hptr hne
    · refine hadd (dropLive s.config.live ptr) r _ _ (if_neg hr) (fun B hB => ?_)
        (fun B hB => ?_) fun hne => ?_
      · obtain ⟨hB, hne⟩ := List.mem_filter.mp hB
        exact ⟨hB, of_decide_eq_true hne⟩
      · by_cases hne : B.ptr = ptr
        · exact .inr fun he => hr (he.symm.trans hne)
        · exact .inl (List.mem_filter.mpr ⟨hB, decide_eq_true hne⟩)
      · exact ((hre hne).resolve_left fun h => hr h.1).2
  | free ptr =>
    obtain ⟨r, t, hrun, rfl⟩ := returned_eq hc'
    intro B' hB'
    obtain ⟨hB, hne⟩ := List.mem_filter.mp hB'
    exact hold B' hB B' hB' rfl (of_decide_eq_true hne)
  | memalign alignment size => exact hop.elim
  | write ptr offset byte =>
    obtain rfl := write_eq hc'
    obtain ⟨B, hB, rfl, hlt⟩ := hp
    intro B' hB'
    have hge := (hi.contents.live B' hB').headerSize_lt
    by_cases hne : B'.ptr = B.ptr
    · -- the header lies before the bytes the clients write
      refine (hfits B' hB').congr rfl (writeByte_of_ne _ ?_)
      simp only [headerSize] at hge ⊢
      omega
    · exact hold B' hB' B' hB' rfl hne

theorem Tracked.Run.sound {os : Kernel} {s : Tracked} (hr : Tracked.Run os s)
    (hos : os.failure = .excluded) : s.Sound := by
  refine Transition.Reachable.invariant hr ?_ fun _ _ _ hs ha hstep =>
    hs.step ha.1 ha.2.1 ha.2.2 hstep
  rintro _ rfl
  refine ⟨_, initial_inv hos, ?_, ?_⟩
  · intro b S hS
    cases hS
  · intro B hB
    cases hB

/-! ## The bits -/

/-- The control bytes of a process: a live block of a pool is marked as regular, as allocated, and
as global exactly when it was served from the global pool; and the slots of every free list are
marked as free. -/
structure ControlBytes (c : Config) : Prop where
  live : ∀ B ∈ c.live, HugeHeader.isHuge c.heap.mem (B.ptr - headerSize) = false →
    ∃ k ∈ c.heap.compartmentOf B.ptr,
      RegularHeader.isRegular c.heap.mem (B.ptr - headerSize) = true ∧
      RegularHeader.isAllocation c.heap.mem (B.ptr - headerSize) = true ∧
      (RegularHeader.isGlobal c.heap.mem (B.ptr - headerSize) = true ↔ k.Global)
  free : ∀ b S, c.heap.bibops b = some S → ∃ l, Chain (link c.heap.mem) S.freeList l ∧
    ∀ s ∈ l, RegularHeader.isAllocation c.heap.mem s = false

/-- The bits `T` and `A`, and the bit `A` of free slots, need no condition. -/
theorem Inv.controlBytes {c : Config} (hi : Inv P g c.live c.heap) (hP : ¬ P.shifted)
    (hfits : ∀ B ∈ c.live, Fits (fun _ => True) c.heap B.ptr) : ControlBytes c := by
  constructor
  · intro B hB hhuge
    obtain ⟨r, hr, hlog⟩ := hi.history.logged B hB
    cases hi.contents.live B hB with
    | @slot b s c' hs =>
      have hhead := hs.block.head_own hi.layout le_rfl (by simp only [headerSize]; omega)
      obtain ⟨-, hregular, hallocation, -⟩ := hs.block.kind.resolve_right fun hk => hP hk.1
      cases hlog with
      | @pool b' k ho =>
        have hmarked := hfits B hB r k hr ho
        exact ⟨k, Heap.mem_compartmentOf.mpr ⟨r, hr, ho⟩, hregular, hallocation, hmarked.1,
          fun hk => hmarked.2 hk trivial⟩
      | huge _ _ _ hhead' => rw [hhead] at hhead'; cases hhead'
    | huge hs => rw [hs.isHuge] at hhuge; cases hhuge
  · exact fun b S hS => ⟨_, hi.contents.freeChain b S hS,
      fun s hs => (hi.contents.freeSlot b s hs).2.2⟩

/-- **The control byte**: in every run in which no compartment of the global pool hands out a block
after one of its blocks was released, the control bytes tell of every live block that it is
regular, allocated and global or not, and of every free slot that it is free. -/
theorem control_byte_invariant {os : Kernel} {s : Tracked} (hos : os.failure = .excluded)
    (hr : Tracked.Run os s) : ControlBytes s.config := by
  obtain ⟨g, hi, -, hfits⟩ := hr.sound hos
  exact hi.controlBytes (fun hf => hf) hfits

/-- A slot of a context reused after its release, beside blocks of the global pool. -/
theorem control_byte_invariant_reuse :
    ∃ s, Tracked.Run (bumpKernel 0 .excluded) s ∧ s.released ≠ [] ∧
      s.config.live.map Block.ptr = [75116560, 47319765056, 47319765008] ∧
      ControlBytes s.config := by
  have hrun : ((Transition.exec
      (fun (s : Tracked) e => s.config.Permitted e ∧ e.op.Unaligned ∧ s.Unrecycled e) Tracked.step
      ⟨initial (bumpKernel 0 .excluded), []⟩
      [⟨1, .malloc 0x4000000100000018⟩, ⟨1, .malloc 0x4000000100000018⟩,
        ⟨1, .malloc 0x4000000100000018⟩, ⟨1, .free 75116560⟩,
        ⟨1, .malloc 0x4000000100000018⟩]).map fun s =>
      (s.released, s.config.live.map Block.ptr)) =
      some ([⟨0, some 1, 1⟩], [75116560, 47319765056, 47319765008]) := by decide +kernel
  obtain ⟨s, hs, heq⟩ := Option.map_eq_some_iff.mp hrun
  obtain ⟨hreleased, hlive⟩ := Prod.mk.inj heq
  have hr : Tracked.Run (bumpKernel 0 .excluded) s := .of_exec (.start rfl) hs
  exact ⟨s, hr, by rw [hreleased]; decide, hlive, control_byte_invariant rfl hr⟩

/-- A block of the global pool, released and handed out again with its global bit cleared. -/
theorem recycled_block_not_global :
    ∃ c, Config.Run .unshifted (bumpKernel 0 .excluded) c ∧ ¬ ControlBytes c := by
  have hrun : ((Config.run .unshifted (bumpKernel 0 .excluded)
      [⟨1, .malloc 24⟩, ⟨1, .free 47319765008⟩, ⟨1, .malloc 24⟩]).map fun c =>
      (decide (⟨47319765008, 24, 32⟩ ∈ c.live), c.heap.compartmentOf 47319765008,
        HugeHeader.isHuge c.heap.mem (47319765008 - headerSize),
        RegularHeader.isGlobal c.heap.mem (47319765008 - headerSize))) =
      some (true, some ⟨0, none, 1⟩, false, false) := by decide +kernel
  obtain ⟨c, hc, heq⟩ := Option.map_eq_some_iff.mp hrun
  simp only [Prod.mk.injEq] at heq
  obtain ⟨hlive, hcompartment, hhuge, hglobal⟩ := heq
  refine ⟨c, .of_run hc, fun hbytes => ?_⟩
  obtain ⟨k, hk, -, -, hiff⟩ := hbytes.live _ (of_decide_eq_true hlive) hhuge
  rw [hcompartment] at hk
  cases hk
  rw [hglobal] at hiff
  exact Bool.false_ne_true (hiff.mpr rfl)

end Semalloc
