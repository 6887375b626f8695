import Semalloc.Backend.ManagerSpec

/-!
# Specifications of allocation

What both overloads of `mallocMemory` hand out: a slot of the compartment the request belongs to,
or a mapping of its own, as one more live block.

## Main definitions

* `regularUsable`, `mallocUsable`: the usable size a request is rounded up to
* `Allocated`: what a successful allocation leaves

## Main results

* `allocateFrom_spec`, `Inv.commit`: slots
* `allocateHuge_spec`: mappings
* `mallocMemory_spec`, `mallocMemoryCSI_spec`: the two overloads
-/

set_option autoImplicit false

namespace Semalloc

open ByteMemory Region Effect MemoryManager

variable {P : Promise} {g : Ghost} {live : List Block} {h h' : Heap} {own : ℕ → Owner}
  {reg : ℕ → Option Compartment} {halt : Halt → Prop}

/-! ## Usable sizes -/

/-- The usable size of a mapping for `size` bytes. -/
def hugeRound (size : Word) : ℕ := ((size + 4096#64 - 1#64) &&& ~~~4095#64).toNat

/-- The usable size of a block for a decoded size. -/
def regularUsable (realSize : Word) : ℕ :=
  if realSize.toNat < bagThreshold then minBagSize <<< BIBOP.computeSizeIndex realSize.toNat
  else hugeRound realSize

/-- The usable size of a block for a size word of `malloc`. -/
def mallocUsable (size : Word) : ℕ :=
  if isHugeWord size then hugeRound (getHugeWordSize size) else regularUsable (getRealSize size)

theorem hugeRound_eq (size : Word) :
    hugeRound size = (size.toNat + 4095) % 2 ^ 64 / 4096 * 4096 := by
  have hadd : (size + 4096#64 - 1#64).toNat = (size.toNat + 4095) % 2 ^ 64 := by
    rw [show size + 4096#64 - 1#64 = size + 4095#64 by bv_omega, BitVec.toNat_add]
    rfl
  have hmask : ∀ w : Word, (w &&& ~~~4095#64) + (w &&& 4095#64) = w := by
    intro w
    rw [BitVec.add_eq_or_of_and_eq_zero]
    · ext i
      simp only [BitVec.getElem_or, BitVec.getElem_and, BitVec.getElem_not]
      cases w[i] <;> cases (4095#64)[i] <;> rfl
    · ext i
      simp only [BitVec.getElem_and, BitVec.getElem_not, BitVec.getElem_zero]
      cases w[i] <;> cases (4095#64)[i] <;> rfl
  have hlow : ∀ w : Word, (w &&& 4095#64).toNat = w.toNat % 4096 := fun w => by
    rw [BitVec.toNat_and]
    exact Nat.and_two_pow_sub_one_eq_mod w.toNat 12
  have hsum := congrArg BitVec.toNat (hmask (size + 4096#64 - 1#64))
  rw [BitVec.toNat_add, hlow, hadd] at hsum
  have hle : hugeRound size ≤ (size + 4096#64 - 1#64).toNat := by
    rw [hugeRound, BitVec.toNat_and]
    exact Nat.and_le_left
  rw [hadd] at hle
  rw [hugeRound] at hle ⊢
  omega

theorem hugeRound_mod (size : Word) : hugeRound size % 4096 = 0 := by
  rw [hugeRound_eq]
  omega

/-- Unless the rounding wraps around, a mapping holds the request. -/
theorem le_hugeRound {size : Word} (h : size.toNat ≤ 2 ^ 64 - 4096) :
    size.toNat ≤ hugeRound size := by
  rw [hugeRound_eq, Nat.mod_eq_of_lt (by omega)]
  omega

theorem le_regularUsable {realSize : Word} (h : realSize.toNat ≤ 2 ^ 64 - 4096) :
    realSize.toNat ≤ regularUsable realSize := by
  unfold regularUsable
  split
  · exact le_computeSizeIndex _
  · exact le_hugeRound h

/-- The usable size holds what the word decodes to. -/
theorem decodedSize_le_mallocUsable (size : Word) : decodedSize size ≤ mallocUsable size := by
  unfold decodedSize mallocUsable
  split
  · have := toNat_getHugeWordSize size
    exact le_hugeRound (by omega)
  · have := toNat_getRealSize size
    exact le_regularUsable (by omega)

/-! ## Usable sizes of live blocks -/

/-- A program that only reads what is there. -/
theorem usableSize_of_regular {p b : ℕ} {B : SingleBIBOP}
    (hcov : covers h.maps (p - headerSize) headerSize = true)
    (hhuge : HugeHeader.isHuge h.mem (p - headerSize) = false)
    (hbibop : RegularHeader.bibop h.mem (p - headerSize) = b) (hB : h.bibops b = some B) :
    cssMallocUsableSize p h = .ok B.getObjectSize h := by
  have hread : Spec (cssMallocUsableSize p) h (fun a t => a = B.getObjectSize ∧ t = h)
      fun _ => False := by
    unfold cssMallocUsableSize
    refine Spec.bind (peek_spec (.inl hcov) fun _ => ?_)
    simp only [hhuge, Bool.false_eq_true, if_false]
    unfold getRegularSize
    refine Spec.bind (peek_spec (.inl hcov) fun _ => ?_)
    rw [hbibop]
    exact Spec.bind (getBIBOP_spec hB (Spec.pure ⟨rfl, rfl⟩))
  obtain ⟨a, t, hrun, rfl, rfl⟩ := hread.exists_ok
  exact hrun

theorem usableSize_of_huge {p : ℕ} (hcov : covers h.maps (p - headerSize) headerSize = true)
    (hhuge : HugeHeader.isHuge h.mem (p - headerSize) = true) :
    cssMallocUsableSize p h = .ok (HugeHeader.size h.mem (p - headerSize)) h := by
  have hread : Spec (cssMallocUsableSize p) h
      (fun a t => a = HugeHeader.size h.mem (p - headerSize) ∧ t = h) fun _ => False := by
    unfold cssMallocUsableSize
    refine Spec.bind (peek_spec (.inl hcov) fun _ => ?_)
    simp only [hhuge, if_true]
    exact peek_spec (.inl hcov) fun _ => ⟨rfl, rfl⟩
  obtain ⟨a, t, hrun, rfl, rfl⟩ := hread.exists_ok
  exact hrun

theorem SlotBlock.usableSize {b s p : ℕ} {c : Compartment}
    (hp : SlotBlock P own reg h.mem b c s p) (hl : Layout own reg h) :
    cssMallocUsableSize p h = .ok (minBagSize <<< c.sizeClass) h := by
  obtain ⟨B, hB, hok⟩ := hl.bibop b c hp.reg
  rw [usableSize_of_regular (hp.head_covers hl) hp.notHuge hp.bibop hB, SingleBIBOP.getObjectSize,
    hok.objectSize, slotSize_sub]

theorem HugeLive.head_covers {B : Block} (hB : HugeLive own h.mem B) (hl : Layout own reg h) :
    covers h.maps (B.ptr - headerSize) headerSize = true := by
  have hge := hB.ptr_ge
  rw [covers_iff]
  intro a h₁ h₂
  have ho := hB.own a (by simp only [headerSize, pageSize] at *; omega)
    (by simp only [headerSize, pageSize] at *; omega)
  exact hl.mapped a (by rw [ho]; simp)

theorem HugeLive.usableSize {B : Block} (hB : HugeLive own h.mem B) (hl : Layout own reg h) :
    cssMallocUsableSize B.ptr h = .ok (HugeHeader.size h.mem (B.ptr - headerSize)) h :=
  usableSize_of_huge (hB.head_covers hl) hB.isHuge

/-! ## Slots -/

/-- **`allocateFrom`** takes a slot, from a new chunk if need be. -/
theorem allocateFrom_spec {this b : ℕ} {c : Compartment} {m : MemoryManager}
    (hi : Inv P g live h) (hready : Ready h) (hr : g.reg b = some c) (hc : c.thread = this)
    (hm : h.globalMemoryManager this = some m) :
    Spec (allocateFrom this b) h
      (fun s h' => ∃ g', After P Spared g h live g' h' ∧ Taken P g' h' b c s) Halt.NoRoom := by
  obtain ⟨B, hB, hok⟩ := hi.layout.bibop b c hr
  unfold allocateFrom
  refine Spec.seq (allocateObject_spec hi hr hB (by rw [hc]; exact hm) (hready b B hB)) ?_
  rintro s h₁ ⟨g₁, hi₁, hg₁, ⟨hne, htaken, hready₁⟩ | ⟨rfl, hfree, -, rfl⟩⟩
  · rw [if_neg hne]
    exact Spec.pure ⟨g₁, ⟨hi₁, hready₁ hready, hg₁⟩, htaken⟩
  · -- the chunk is exhausted: acquire another one and try again
    rw [if_pos rfl]
    refine Spec.seq (acquireIndividualDataPool_spec hi₁ hm) ?_
    rintro a h₂ ⟨g₂, m₂, hacq⟩
    have hB₂ : h₂.bibops b = some { B with bump := B.bump + slotSize c.sizeClass } := by
      rw [hacq.bibops]
      simp
    have hr₂ : g₂.reg b = some c := by
      rw [hacq.reg]
      exact hg₁.reg b c hr
    have hready₂ : ∀ b' B', b' ≠ b → h₂.bibops b' = some B' →
        B'.bump ≤ B'.base + B'.capacity := by
      intro b' B' hbb hB'
      rw [hacq.bibops] at hB'
      exact hready b' B' (by simpa [hbb] using hB')
    unfold SingleBIBOP.extendSingleBIBOP
    refine Spec.bind (Spec.bind (getBIBOP_spec hB₂ (setBIBOP_spec ?_)))
    obtain ⟨hi₃, hg₃⟩ := hacq.inv.extend hr₂ hB₂ hacq.chunk.aligned hacq.chunk.pos hacq.chunk.top
      hacq.chunk.own
    refine (allocateObject_spec hi₃ hr₂ (Function.update_self ..) (by rw [hc]; exact hacq.manager)
      (Nat.le_add_right _ _)).imp ?_
    rintro s h₄ ⟨g₄, hi₄, hg₄, ⟨hne, htaken, hready₄⟩ | ⟨-, -, hover, -⟩⟩
    · refine ⟨g₄, ⟨hi₄, hready₄ ?_, ((hg₁.trans hacq.grows).trans hg₃).trans hg₄⟩, htaken⟩
      intro b' B' hB'
      by_cases hbb : b' = b
      · subst hbb
        rw [Heap.setBIBOP_bibops, Function.update_self] at hB'
        cases hB'
        exact Nat.le_add_right _ _
      · rw [Heap.setBIBOP_bibops, Function.update_of_ne hbb] at hB'
        exact hready₂ b' B' hbb hB'
    · -- a new chunk holds more than one slot
      have := slotSize_le hok.sizeClass
      have := individualBIBOPSize_eq
      simp only at hover
      omega

/-- What a successful allocation by the manager at `t` leaves: one more live block, with a header
that says where it came from. A mapping is blank. -/
structure Allocated (P : Promise) (g : Ghost) (h : Heap) (live : List Block) (t n u p : ℕ)
    (h' : Heap) : Prop where
  after : ∃ g', After P Spared g h (⟨p, n, u⟩ :: live) g' h'
  usable : cssMallocUsableSize p h' = .ok u h'
  whole : (HugeHeader.isHuge h'.mem (p - headerSize) = true ∧
      ∀ a, p ≤ a → a < p + u → h'.mem a = 0) ∨
    HugeHeader.isHuge h'.mem (p - headerSize) = false ∧
      RegularHeader.isAllocation h'.mem (p - headerSize) = true ∧
      RegularHeader.threadId h'.mem (p - headerSize) = t

theorem Allocated.ptr_pos {t n u p : ℕ} (ha : Allocated P g h live t n u p h') : 0 < p := by
  obtain ⟨g', ha'⟩ := ha.after
  cases ha'.inv.contents.live _ List.mem_cons_self with
  | slot hB =>
    have := hB.block.slot_le
    simp only [headerSize] at this
    omega
  | huge hB =>
    have := hB.ptr_ge
    simp only [pageSize] at this
    omega

/-- An allocation after an operation that spared every block. -/
theorem Allocated.after_spared {g₁ : Ghost} {h₁ : Heap} {t n u p : ℕ}
    (ha : Allocated P g₁ h₁ live t n u p h') (hg : Grows Spared g h g₁ h₁) :
    Allocated P g h live t n u p h' := by
  obtain ⟨g', ha'⟩ := ha.after
  exact ⟨⟨g', ha'.inv, ha'.ready, hg.trans ha'.grows⟩, ha.usable, ha.whole⟩

/-- The header of a taken slot is mapped. -/
theorem Taken.head_covers {b s : ℕ} {c : Compartment} (ht : Taken P g h b c s)
    (hl : Layout g.own g.reg h) : covers h.maps s headerSize = true := by
  have hsize := slotSize_ge c.sizeClass
  exact hl.slot_covers (hl.slotRange_of_reg ht.own ht.reg) le_rfl
    (by simp only [headerSize]; omega)

/-- **A taken slot** with its header becomes a live block. -/
theorem Inv.commit (hi : Inv P g live h) (hready : Ready h) {b s n : ℕ} {c : Compartment}
    {m₁ : ByteMemory} (ht : Taken P g h b c s) (hh : Headed h.mem m₁ s c.thread b)
    (hn : n ≤ minBagSize <<< c.sizeClass) :
    Allocated P g h live c.thread n (minBagSize <<< c.sizeClass) (s + headerSize)
      ((h.setMem m₁).addServed ⟨.pool c, ⟨s, slotSize c.sizeClass⟩, s + headerSize⟩) := by
  have hs := hi.layout.slotRange_of_reg ht.own ht.reg
  have hsize := slotSize_ge c.sizeClass
  have hclass := slotSize_sub c.sizeClass
  have hlast : m₁ (s + 15) = h.mem (s + 15) := hh.outside _ (by omega)
  have hchanged : ∀ a, m₁ a ≠ h.mem a → s ≤ a ∧ a < s + 15 := by
    intro a hne
    by_contra hout
    exact hne (hh.outside a (by omega))
  have hi₁ : Inv P g live (h.setMem m₁) := by
    refine hi.write (fun a hne => ?_) fun b' s' ho hu => ?_
    · obtain ⟨h₁, h₂⟩ := hchanged a hne
      exact .limbo (hs.own a h₁ (by omega)) ht.use
    · by_contra hne
      obtain ⟨h₁, h₂⟩ := hchanged _ hne
      have h₃ := hs.own _ h₁ (by omega)
      rw [hi.layout.slot_head ho (by omega) (by omega)] at h₃
      obtain rfl := (Owner.slot.inj h₃).2
      omega
  have hg₁ : Grows Spared g h g (h.setMem m₁) := by
    refine Grows.setMem fun a p hne ha => ?_
    obtain ⟨h₁, h₂⟩ := hchanged a hne
    have h₃ := hs.own a h₁ (by omega)
    cases ha with
    | slot ho hu =>
      rw [h₃] at ho
      cases ho
      rw [ht.use] at hu
      cases hu
    | huge ho => rw [h₃] at ho; cases ho
  have hunheld : ∀ a, (⟨s, slotSize c.sizeClass⟩ : Region).Contains a →
      ∀ B ∈ live, ¬ Held g a B.ptr := by
    rintro a ⟨h₁, h₂⟩ B - hheld
    have ho := hs.own a h₁ h₂
    cases hheld with
    | slot ho' hu =>
      rw [ho] at ho'
      cases ho'
      rw [ht.use] at hu
      cases hu
    | huge ho' => rw [ho] at ho'; cases ho'
  have hnewest : (⟨s, slotSize c.sizeClass⟩ : Region).Contains (s + headerSize - headerSize) :=
    ⟨by simp only; omega, by simp only; omega⟩
  have hi₂ := hi₁.addServed (e := ⟨.pool c, ⟨s, slotSize c.sizeClass⟩, s + headerSize⟩)
    (fun c' ho => by cases ho; exact ⟨b, ht.reg, ht.own, rfl⟩) (hi₁.respects_slot hs ht.servable)
    hunheld
  have hclean : HugeHeader.isHuge m₁ s = false := hi₁.contents.clean b s ht.own
  have hblock : SlotBlock P g.own g.reg m₁ b c s (s + headerSize) := by
    have hhead : s + headerSize - headerSize = s := Nat.add_sub_cancel ..
    refine ⟨ht.reg, ht.own, ?_, ?_, ?_, ?_, le_rfl, ?_, .inl ⟨rfl, ?_⟩⟩
    · rw [hhead]; exact hh.bibop
    · rw [hhead]; exact hh.threadId
    · rw [hhead]; exact hclean
    · have := hs.aligned
      simp only [headerSize]
      omega
    · simp only [headerSize]
      omega
    · rw [hhead]; exact ⟨hh.regular, hh.allocated, hh.offset⟩
  have hi₃ := hi₂.addLive (B := ⟨s + headerSize, n, minBagSize <<< c.sizeClass⟩) ht.use hblock hn
    (by simp only [headerSize] at *; omega) ⟨_, List.find?_cons_of_pos (decide_eq_true hnewest), rfl, rfl⟩
  refine ⟨⟨_, hi₃, hready, ?_⟩, hblock.usableSize hi₂.layout, .inr ?_⟩
  · refine hg₁.trans (Grows.of_same rfl rfl (fun s' p hu _ => ?_) (fun _ _ _ _ => rfl)
      (List.suffix_cons ..) rfl fun _ m hm => ⟨m, hm⟩)
    have hne : s' ≠ s := fun he => by rw [he, ht.use] at hu; cases hu
    simpa [hne] using hu
  · rw [Nat.add_sub_cancel]
    exact ⟨hclean, hh.allocated, hh.threadId⟩

section Regular

variable {this n : ℕ} {realSize : ℕ} {m : MemoryManager}

theorem allocateGlobal_spec (hi : Inv P g live h) (hready : Ready h)
    (hm : h.globalMemoryManager this = some m) (hsize : realSize < bagThreshold)
    (hn : n ≤ minBagSize <<< BIBOP.computeSizeIndex realSize) :
    Spec (allocateGlobal this realSize) h
      (Allocated P g h live this n (minBagSize <<< BIBOP.computeSizeIndex realSize))
      Halt.NoRoom := by
  have hok := hi.layout.manager this m hm
  unfold allocateGlobal
  refine Spec.bind (getManager_spec hm ?_)
  dsimp only
  refine Spec.seq (allocateFrom_spec hi hready (hok.globalBIBOP _ (computeSizeIndex_lt hsize)) rfl
    hm) ?_
  rintro s h₁ ⟨g₁, ha, ht⟩
  obtain ⟨m₁, hm₁⟩ := ha.grows.manager this m hm
  refine Spec.bind (getManager_spec hm₁ ?_)
  refine Spec.bind (poke_spec (.inl (ht.head_covers ha.inv.layout)) fun _ => ?_)
  refine Spec.bind (serve_spec (Spec.pure ?_))
  obtain ⟨B, -, hB⟩ := ha.inv.layout.bibop _ _ ht.reg
  have hthread := (ha.inv.layout.manager this m₁ hm₁).threadId
  have hh := headed_initGlobal hB.thread (hB.bound.trans (by norm_num)) ht.idle
  rw [hthread]
  exact (ha.inv.commit ha.ready ht hh hn).after_spared ha.grows

theorem allocateIndividual_spec (hi : Inv P g live h) (hready : Ready h)
    (hm : h.globalMemoryManager this = some m) (hsize : realSize < bagThreshold) {CSI : Word}
    (hCSI : CSI.toNat ≠ allOnes) (hn : n ≤ minBagSize <<< BIBOP.computeSizeIndex realSize) :
    Spec (allocateIndividual this realSize CSI) h
      (Allocated P g h live this n (minBagSize <<< BIBOP.computeSizeIndex realSize))
      (RanOut h this) := by
  unfold allocateIndividual
  refine Spec.seq (getIndividualBIBOPbyCSI_spec hi hready hm hsize hCSI) ?_
  rintro b h₁ ⟨g₁, ha₁, hr⟩
  obtain ⟨m₁, hm₁⟩ := ha₁.grows.manager this m hm
  refine Spec.seq ((allocateFrom_spec ha₁.inv ha₁.ready hr rfl hm₁).halts fun _ => .inl) ?_
  rintro s h₂ ⟨g₂, ha₂, ht⟩
  obtain ⟨m₂, hm₂⟩ := ha₂.grows.manager this m₁ hm₁
  refine Spec.bind (getManager_spec hm₂ ?_)
  refine Spec.bind (poke_spec (.inl (ht.head_covers ha₂.inv.layout)) fun _ => ?_)
  refine Spec.bind (serve_spec (Spec.pure ?_))
  obtain ⟨B, -, hB⟩ := ha₂.inv.layout.bibop _ _ ht.reg
  have hthread := (ha₂.inv.layout.manager this m₂ hm₂).threadId
  have hh := headed_initIndividual hB.thread (hB.bound.trans (by norm_num)) ht.idle
  rw [hthread]
  exact (ha₂.inv.commit ha₂.ready ht hh hn).after_spared (ha₁.grows.trans ha₂.grows)

theorem allocateRegular_spec (hi : Inv P g live h) (hready : Ready h)
    (hm : h.globalMemoryManager this = some m) (hsize : realSize < bagThreshold) {CSI : Word}
    {inLoop : Bool} (hCSI : CSI.toNat ≠ allOnes)
    (hn : n ≤ minBagSize <<< BIBOP.computeSizeIndex realSize) :
    Spec (allocateRegular this realSize CSI inLoop) h
      (Allocated P g h live this n (minBagSize <<< BIBOP.computeSizeIndex realSize))
      (RanOut h this) := by
  unfold allocateRegular
  dsimp only
  refine Spec.ite (fun _ => ?_) fun _ => ?_
  · unfold tryPutToLazyPool
    refine Spec.bind (Spec.seq ((tryPutToLazyPool_spec hi hready hm).halts fun _ => .inl) ?_)
    rintro kept h₁ ⟨ha, hmeta⟩
    refine Spec.pure ?_
    obtain ⟨m₁, hm₁⟩ := ha.grows.manager this m hm
    refine Spec.ite (fun _ => ?_) fun _ => ?_
    · exact (allocateIndividual_spec ha.inv ha.ready hm₁ hsize hCSI hn).mono
        (fun _ _ hr => hr.after_spared ha.grows) fun _ hx => hx.mono hmeta
    · exact (allocateGlobal_spec ha.inv ha.ready hm₁ hsize hn).mono
        (fun _ _ hr => hr.after_spared ha.grows) fun _ => .inl
  · exact Spec.bind (Spec.pure ((allocateGlobal_spec hi hready hm hsize hn).halts fun _ => .inl))

end Regular

/-! ## Mappings -/

/-- The header `allocateHuge` writes before `p`. -/
def hugeHeader (m : ByteMemory) (p size : ℕ) : ByteMemory :=
  HugeHeader.setHuge (HugeHeader.setSize m (p - headerSize) size) (p - headerSize)

theorem size_hugeHeader {m : ByteMemory} {p size : ℕ} (hsize : size < 2 ^ 64) :
    HugeHeader.size (hugeHeader m p size) (p - headerSize) = size := by
  have hread : readLE (writeLE m (p - headerSize) 8 size) (p - headerSize) 8 = size :=
    readLE_writeLE (by norm_num; omega)
  refine (readLE_congr fun a h₁ h₂ => ?_).trans hread
  exact writeByte_of_ne _ (by omega)

theorem isHuge_hugeHeader {m : ByteMemory} {p size : ℕ} (hzero : m (p - headerSize + 15) = 0) :
    HugeHeader.isHuge (hugeHeader m p size) (p - headerSize) = true := by
  have hbyte : HugeHeader.controlByte (HugeHeader.setSize m (p - headerSize) size)
      (p - headerSize) = 0 := (writeLE_of_outside (by omega)).trans hzero
  unfold hugeHeader HugeHeader.setHuge
  rw [hbyte, HugeHeader.isHuge, HugeHeader.controlByte, writeByte_self]
  decide

theorem hugeHeader_outside {m : ByteMemory} {p size a : ℕ}
    (ha : a < p - headerSize ∨ p - headerSize + 16 ≤ a) : hugeHeader m p size a = m a :=
  (writeByte_of_ne _ (by omega)).trans (writeLE_of_outside (by omega))

/-- The header of a live block has an owner. -/
theorem LiveBlock.head_owned {m : ByteMemory} {B : Block}
    (hB : LiveBlock P g.own g.reg g.use m B) (hl : Layout g.own g.reg h) :
    g.own (B.ptr - headerSize) ≠ .nobody := by
  cases hB.head_held hl with
  | slot ho _ | huge ho => simp [ho]

/-- A new mapping for a block at `p` that is not live yet. -/
structure Reserved (P : Promise) (g : Ghost) (h : Heap) (live : List Block) (a size : ℕ)
    (g' : Ghost) (h' : Heap) : Prop where
  inv : Inv P g' live h'
  grows : Grows Spared g h g' h'
  own : ∀ y, a ≤ y → y < a + pageSize + size → g'.own y = .huge (a + pageSize)
  nobody : ∀ y, a ≤ y → y < a + pageSize + size → g.own y = .nobody
  zero : ∀ y, a ≤ y → y < a + pageSize + size → h'.mem y = 0
  notLive : ∀ B ∈ live, B.ptr ≠ a + pageSize
  aligned : a % pageSize = 0
  page : pageSize ≤ a
  top : a + pageSize + size ≤ 2 ^ 63

theorem Inv.reserve (hi : Inv P g live h) {a size : ℕ} (hf : Fresh h.maps a (size + 4096))
    (hsize : size % 4096 = 0) :
    ∃ g', Reserved P g h live a size g' (h.addMapping a (size + 4096)) := by
  have hceil : pageCeil (size + 4096) = size + 4096 := pageCeil_of_mod (by omega)
  have hnobody : ∀ y, a ≤ y → y < a + pageSize + size → g.own y = .nobody := fun y h₁ h₂ =>
    hi.layout.fresh_own hf (by
      rw [hceil]
      exact ⟨h₁, by simp only [pageSize] at *; omega⟩)
  obtain ⟨hi₁, hg₁⟩ := hi.mmap (x := Spared) hf
  rw [hceil] at hi₁ hg₁
  obtain ⟨hi₂, hg₂⟩ := hi₁.assign (x := Spared) (r := ⟨a, size + 4096⟩)
    (o := .huge (a + pageSize)) (fun y hy => relabel_inside hy) (by simp)
  have htop := hf.2.2.2.1
  rw [hceil] at htop
  refine ⟨_, hi₂, hg₁.trans hg₂, fun y h₁ h₂ => ?_, hnobody, fun y h₁ h₂ => ?_, fun B hB he => ?_,
    hf.2.1, hf.2.2.1, by simp only [pageSize]; omega⟩
  · exact relabel_inside ⟨h₁, by simp only [pageSize] at *; omega⟩
  · exact fill_of_inside h₁ (by rw [hceil]; simp only [pageSize] at *; omega)
  · refine (hi.contents.live B hB).head_owned hi.layout (hnobody _ ?_ ?_) <;>
      simp only [he, pageSize, headerSize] <;> omega

/-- **A new mapping** with its header becomes a live block. -/
theorem Reserved.commit {g' : Ghost} {a size t n : ℕ} (hr : Reserved P g h live a size g' h')
    (hready : Ready h') (hsize : size % 4096 = 0) (hn : n ≤ size) :
    Allocated P g h live t n size (a + pageSize)
      ((h'.setMem (hugeHeader h'.mem (a + pageSize) size)).addServed
        ⟨.huge, ⟨a, size + pageSize⟩, a + pageSize⟩) := by
  have halign := hr.aligned
  have hpage := hr.page
  have htop := hr.top
  have hinside : ∀ y, hugeHeader h'.mem (a + pageSize) size y ≠ h'.mem y →
      a ≤ y ∧ y < a + pageSize + size := by
    intro y hne
    by_contra hout
    refine hne (hugeHeader_outside ?_)
    simp only [pageSize, headerSize] at *
    omega
  have hi₁ : Inv P g' live (h'.setMem (hugeHeader h'.mem (a + pageSize) size)) := by
    refine hr.inv.write (fun y hne => ?_) fun b s ho _ => ?_
    · obtain ⟨h₁, h₂⟩ := hinside y hne
      exact .huge (hr.own y h₁ h₂) (.inr hr.notLive)
    · by_contra hne
      obtain ⟨h₁, h₂⟩ := hinside _ hne
      have h₃ := hr.inv.layout.slot_head ho (a := s + 15) (by omega) (by omega)
      rw [hr.own _ h₁ h₂] at h₃
      cases h₃
  have hg₁ : Grows Spared g h g' (h'.setMem (hugeHeader h'.mem (a + pageSize) size)) := by
    refine hr.grows.setMem_of_new fun y p hne ha => ?_
    obtain ⟨h₁, h₂⟩ := hinside y hne
    have h₃ := hr.nobody y h₁ h₂
    cases ha with
    | slot ho _ | huge ho => rw [h₃] at ho; cases ho
  have hread : HugeHeader.size (hugeHeader h'.mem (a + pageSize) size)
      (a + pageSize - headerSize) = size := size_hugeHeader (by omega)
  have hhuge : HugeHeader.isHuge (hugeHeader h'.mem (a + pageSize) size)
      (a + pageSize - headerSize) = true :=
    isHuge_hugeHeader (hr.zero _ (by simp only [pageSize, headerSize]; omega)
      (by simp only [pageSize, headerSize]; omega))
  have hblank : ∀ y, a + pageSize ≤ y → y < a + pageSize + size →
      hugeHeader h'.mem (a + pageSize) size y = 0 := by
    intro y h₁ h₂
    rw [hugeHeader_outside (by simp only [pageSize, headerSize] at *; omega)]
    exact hr.zero y (by omega) h₂
  have hunheld : ∀ y, (⟨a, size + pageSize⟩ : Region).Contains y →
      ∀ B ∈ live, ¬ Held g' y B.ptr := by
    rintro y ⟨h₁, h₂⟩ B hB hheld
    have ho := hr.own y h₁ (by simp only at h₂; omega)
    cases hheld with
    | slot ho' _ => rw [ho] at ho'; cases ho'
    | huge ho' =>
      rw [ho] at ho'
      exact hr.notLive B hB (Owner.huge.inj ho').symm
  have hnewest : (⟨a, size + pageSize⟩ : Region).Contains (a + pageSize - headerSize) := by
    constructor <;> simp only [pageSize, headerSize] <;> omega
  have hi₂ := hi₁.addServed (e := ⟨.huge, ⟨a, size + pageSize⟩, a + pageSize⟩) (by simp) ?_ hunheld
  have hB : HugeLive g'.own (hugeHeader h'.mem (a + pageSize) size)
      ⟨a + pageSize, n, size⟩ := by
    refine ⟨fun y h₁ h₂ => hr.own y ?_ ?_, hhuge, ?_, ?_, ?_, ?_, ?_, ?_⟩
    all_goals simp only [hread] at *
    all_goals simp only [pageSize] at *
    all_goals omega
  have hi₃ := hi₂.addHuge hB hr.notLive ⟨_, List.find?_cons_of_pos (decide_eq_true hnewest),
    rfl, by
    simp only [Heap.addServed_mem, Heap.setMem_mem, hread, Nat.add_sub_cancel]⟩
  · refine ⟨⟨g', hi₃, hready, hg₁.trans ?_⟩, ?_, .inl ⟨hhuge, hblank⟩⟩
    · exact Grows.of_same rfl rfl (fun _ _ hu _ => hu) (fun _ _ _ _ => rfl)
        (List.suffix_cons ..) rfl fun _ m hm => ⟨m, hm⟩
    · have := hB.usableSize (h := (h'.setMem (hugeHeader h'.mem (a + pageSize) size)).addServed
        ⟨.huge, ⟨a, size + pageSize⟩, a + pageSize⟩) hi₂.layout
      simpa only [Heap.addServed_mem, Heap.setMem_mem, hread] using this
  · -- the mapping meets no slot that was served before
    rintro e he c ho ⟨y, ⟨h₁, h₂⟩, h₃, h₄⟩
    obtain ⟨b, hreg, hs, hlen⟩ := hi₁.history.origin e he c ho
    have h₅ := (hi₁.layout.slotRange_of_reg hs hreg).own y h₃ (by rw [← hlen]; exact h₄)
    rw [hr.own y h₁ (by simp only at h₂; omega)] at h₅
    cases h₅

/-- **`allocateHuge`** maps the rounded size and the page before it. -/
theorem allocateHuge_spec {size : Word} {t n : ℕ} (hi : Inv P g live h) (hready : Ready h)
    (hn : n ≤ hugeRound size) :
    Spec (allocateHuge size) h (Allocated P g h live t n (hugeRound size)) Halt.NoRoom := by
  have hmod := hugeRound_mod size
  have hlt : hugeRound size < 2 ^ 64 := BitVec.isLt _
  have hlen : (((size + 4096#64 - 1#64) &&& ~~~4095#64) + 4096#64).toNat =
      (hugeRound size + 4096) % 2 ^ 64 := BitVec.toNat_add _ _
  unfold allocateHuge
  dsimp only
  rw [hlen]
  refine Spec.bind (mmap_spec hi.layout.excluded trivial fun a hf => ?_)
  refine Spec.ite (fun _ => Spec.bind (Spec.throw trivial)) fun _ => ?_
  -- the length does not wrap around, since a mapping is not empty
  have hpos := hf.1
  have hnowrap : (hugeRound size + 4096) % 2 ^ 64 = hugeRound size + 4096 := by omega
  rw [hnowrap] at hf ⊢
  obtain ⟨g', hr⟩ := hi.reserve hf hmod
  have htop := hr.top
  have hdata : (a + pageSize) % 2 ^ 64 = a + pageSize := Nat.mod_eq_of_lt (by omega)
  rw [hdata]
  have hcov : covers (h.addMapping a (hugeRound size + 4096)).maps (a + pageSize - headerSize)
      headerSize = true := covers_iff.mpr fun y h₁ h₂ => hr.inv.layout.mapped y (by
    rw [hr.own y (by simp only [pageSize, headerSize] at *; omega)
      (by simp only [pageSize, headerSize] at *; omega)]
    simp)
  refine Spec.bind (poke_spec (.inl hcov) fun _ => ?_)
  refine Spec.bind (poke_spec (.inl hcov) fun _ => ?_)
  exact Spec.bind (serve_spec (Spec.pure (hr.commit hready hmod hn)))

/-! ## The two overloads -/

theorem getCSI_ne_allOnes (size : Word) : (getCSI size).toNat ≠ allOnes := by
  have := toNat_getCSI size
  unfold allOnes
  omega

/-- **`mallocMemory(size_t, size_t, bool)`**: null for an empty request, and a new block
otherwise. -/
theorem mallocMemoryCSI_spec {this n : ℕ} {realSize CSI : Word} {inLoop : Bool}
    (hi : Inv P g live h) (hready : Ready h)
    (hCSI : CSI.toNat ≠ allOnes) (hn : n ≤ regularUsable realSize) :
    Spec (mallocMemoryCSI this realSize CSI inLoop) h
      (fun p h' => (p = 0 ∧ realSize = 0 ∧ ∃ g', After P Spared g h live g' h') ∨
        realSize ≠ 0 ∧ Allocated P g h live this n (regularUsable realSize) p h')
      fun e => h.globalMemoryManager this = none ∨ RanOut h this e ∨
        P.shifted ∧ e = .doubleFree := by
  unfold mallocMemoryCSI
  rcases hm : h.globalMemoryManager this with - | m
  · exact Spec.bind ((drainFreeList_unmanaged hm).halts fun _ _ => .inl rfl)
  refine Spec.seq ((handleFreeList_spec hi hready hm).halts fun _ hx => .inr (.inr hx)) ?_
  rintro - h₁ ⟨⟨g₁, ha⟩, hmeta⟩
  obtain ⟨m₁, hm₁⟩ := ha.grows.manager this m hm
  refine Spec.ite (fun hz => Spec.pure (.inl ⟨rfl, hz, g₁, ha⟩)) fun hne => ?_
  refine Spec.ite (fun hge => ?_) fun hlt => ?_
  · have hu : regularUsable realSize = hugeRound realSize := if_neg (by omega)
    rw [hu] at hn ⊢
    exact (allocateHuge_spec ha.inv ha.ready hn).mono
      (fun _ _ hr => .inr ⟨hne, hr.after_spared ha.grows⟩) fun _ hx => .inr (.inl (.inl hx))
  · have hu : regularUsable realSize = minBagSize <<< BIBOP.computeSizeIndex realSize.toNat :=
      if_pos (by omega)
    rw [hu] at hn ⊢
    exact (allocateRegular_spec ha.inv ha.ready hm₁ (by omega) hCSI hn).mono
      (fun _ _ hr => .inr ⟨hne, hr.after_spared ha.grows⟩) fun _ hx => .inr (.inl (hx.mono hmeta))

/-- **`mallocMemory(size_t)`**: null for a word without a size, and a new block otherwise. -/
theorem mallocMemory_spec {this n : ℕ} {size : Word} {m : MemoryManager}
    (hi : Inv P g live h) (hready : Ready h) (hm : h.globalMemoryManager this = some m)
    (hn : n ≤ mallocUsable size) :
    Spec (mallocMemory this size) h
      (fun p h' => (p = 0 ∧ isHugeWord size = false ∧ getRealSize size = 0 ∧
          ∃ g', After P Spared g h live g' h') ∨
        ¬ (isHugeWord size = false ∧ getRealSize size = 0) ∧
          Allocated P g h live this n (mallocUsable size) p h')
      fun e => RanOut h this e ∨ P.shifted ∧ e = .doubleFree := by
  unfold mallocMemory
  refine Spec.seq ((handleFreeList_spec hi hready hm).halts fun _ hx => .inr hx) ?_
  rintro - h₁ ⟨⟨g₁, ha⟩, hmeta⟩
  obtain ⟨m₁, hm₁⟩ := ha.grows.manager this m hm
  refine Spec.ite (fun hhuge => ?_) fun hhuge => ?_
  · have hu : mallocUsable size = hugeRound (getHugeWordSize size) := if_pos hhuge
    rw [hu] at hn ⊢
    exact (allocateHuge_spec ha.inv ha.ready hn).mono
      (fun _ _ hr => .inr ⟨fun he => by simp [hhuge] at he, hr.after_spared ha.grows⟩)
      fun _ hx => .inl (.inl hx)
  dsimp only
  have hu : mallocUsable size = regularUsable (getRealSize size) := if_neg hhuge
  rw [hu] at hn ⊢
  refine Spec.ite (fun hz => Spec.pure (.inl ⟨rfl, by simpa using hhuge, hz, g₁, ha⟩)) fun hz => ?_
  refine Spec.ite (fun hge => ?_) fun hlt => ?_
  · have hu : regularUsable (getRealSize size) = hugeRound (getRealSize size) := if_neg (by omega)
    rw [hu] at hn ⊢
    exact (allocateHuge_spec ha.inv ha.ready hn).mono
      (fun _ _ hr => .inr ⟨fun he => hz he.2, hr.after_spared ha.grows⟩)
      fun _ hx => .inl (.inl hx)
  · have hu : regularUsable (getRealSize size) =
        minBagSize <<< BIBOP.computeSizeIndex (getRealSize size).toNat := if_pos (by omega)
    rw [hu] at hn ⊢
    exact (allocateRegular_spec ha.inv ha.ready hm₁ (by omega) (getCSI_ne_allOnes size) hn).mono
      (fun _ _ hr => .inr ⟨fun he => hz he.2, hr.after_spared ha.grows⟩)
      fun _ hx => .inl (hx.mono hmeta)

end Semalloc
