import Semalloc.Backend.EntrySpec

/-!
# Specification of aligned allocation

`css_memalign` asks for a larger block and, when its address is not aligned, writes a second
header further inside it. The second header copies the control byte and then toggles the
allocation bit, which clears it; its last byte is never written. The specification covers the
calls that need no shift, and the shifts inside a slot whose last header byte is clear already.

## Main definitions

* `shiftedAddress`, `shiftedHeader`: where the block is shifted to, and what is written
* `CleanShift`: the header of the shifted block reads as that of a slot

## Main results

* `Inv.shift`: a shifted block
* `cssMemalign_spec`
-/

set_option autoImplicit false

namespace Semalloc

open ByteMemory Region Effect MemoryManager Config

variable {P : Promise} {g g' : Ghost} {live : List Block} {h h' : Heap} {τ : ℕ}

/-! ## Alignments -/

/-- A value that passes the power-of-two test is a power of two, or zero. -/
theorem isPowerOfTwo_of_test {alignment : Word} (htest : alignment &&& (alignment - 1#64) = 0)
    (hne : alignment ≠ 0) : ∃ k, alignment.toNat = 2 ^ k := by
  have hpos : alignment.toNat ≠ 0 := fun hz => hne (BitVec.eq_of_toNat_eq hz)
  have hsub : (alignment - 1#64).toNat = alignment.toNat - 1 := by
    rw [BitVec.toNat_sub]
    have := alignment.isLt
    norm_num
    omega
  have hand := congrArg BitVec.toNat htest
  rw [BitVec.toNat_and, hsub] at hand
  exact (Nat.and_sub_one_eq_zero_iff_isPowerOfTwo hpos).mp hand

theorem memalignSize_eq (alignment realSize : Word) :
    (memalignSize alignment realSize).toNat =
      ((realSize.toNat + 16) % 2 ^ 64 / alignment.toNat * alignment.toNat +
        2 * alignment.toNat) % 2 ^ 64 := by
  simp only [memalignSize, BitVec.toNat_add, BitVec.toNat_mul, BitVec.toNat_udiv, BitVec.toNat_ofNat]
  norm_num [Nat.add_mod, Nat.mul_mod]

/-- The size `css_memalign` asks for has room for a header and a shift, unless it wraps around to
zero. -/
theorem memalignSize_cases {alignment realSize : Word}
    (htest : alignment &&& (alignment - 1#64) = 0) (hne : alignment ≠ 0)
    (hreal : realSize.toNat < 2 ^ 32) :
    memalignSize alignment realSize = 0 ∨
      realSize.toNat + 16 + alignment.toNat < (memalignSize alignment realSize).toNat ∧
        (memalignSize alignment realSize).toNat ≤ 2 ^ 64 - 4096 := by
  obtain ⟨k, hk⟩ := isPowerOfTwo_of_test htest hne
  have hlt := alignment.isLt
  rw [hk] at hlt
  have hk' : k < 64 := (Nat.pow_lt_pow_iff_right (by norm_num)).mp hlt
  have heq := memalignSize_eq alignment realSize
  rw [Nat.mod_eq_of_lt (show realSize.toNat + 16 < 2 ^ 64 by omega)] at heq
  have hdiv := Nat.div_mul_le_self (realSize.toNat + 16) alignment.toNat
  have hmod := Nat.div_add_mod (realSize.toNat + 16) alignment.toNat
  have hrem := Nat.mod_lt (realSize.toNat + 16) (show 0 < alignment.toNat by rw [hk]; positivity)
  rw [Nat.mul_comm] at hmod
  rcases Nat.lt_or_ge k 63 with hk63 | hk63
  · have hle : 2 ^ k ≤ 2 ^ 62 := Nat.pow_le_pow_right (by norm_num) (by omega)
    rw [Nat.mod_eq_of_lt (by omega)] at heq
    right
    omega
  · have hk63 : k = 63 := by omega
    subst hk63
    left
    apply BitVec.eq_of_toNat_eq
    rw [heq, hk, Nat.div_eq_of_lt (by omega)]
    rfl

/-- The first aligned address after `addr`. -/
def shiftedAddress (addr : ℕ) (alignment : Word) : ℕ :=
  (addr / alignment.toNat * alignment.toNat + alignment.toNat) % 2 ^ 64

/-- A 16-aligned address that is not aligned is shifted by at least a header and by less than the
alignment, to an aligned address. -/
theorem shiftedAddress_bounds {addr : ℕ} {alignment : Word}
    (htest : alignment &&& (alignment - 1#64) = 0) (hne : alignment ≠ 0) (haddr : addr % 16 = 0)
    (hshift : addr % alignment.toNat ≠ 0) (htop : addr + alignment.toNat < 2 ^ 64) :
    addr + 16 ≤ shiftedAddress addr alignment ∧
      shiftedAddress addr alignment < addr + alignment.toNat ∧
      shiftedAddress addr alignment % 16 = 0 ∧
      shiftedAddress addr alignment % alignment.toNat = 0 := by
  obtain ⟨k, hk⟩ := isPowerOfTwo_of_test htest hne
  have hk4 : 4 ≤ k := by
    by_contra hlt
    have hdvd : 2 ^ k ∣ addr :=
      (pow_dvd_pow 2 (show k ≤ 4 by omega)).trans (Nat.dvd_of_mod_eq_zero haddr)
    exact hshift (by rw [hk]; exact Nat.mod_eq_zero_of_dvd hdvd)
  have hdvd : 16 ∣ alignment.toNat := by
    rw [hk]
    exact pow_dvd_pow 2 hk4
  have hmod := Nat.div_add_mod addr alignment.toNat
  have hrem := Nat.mod_lt addr (show 0 < alignment.toNat by rw [hk]; positivity)
  rw [Nat.mul_comm] at hmod
  have hmul : 16 ∣ addr / alignment.toNat * alignment.toNat := hdvd.mul_left _
  have heq : shiftedAddress addr alignment =
      addr / alignment.toNat * alignment.toNat + alignment.toNat :=
    Nat.mod_eq_of_lt (by omega)
  rw [heq]
  refine ⟨by omega, by omega, by omega, ?_⟩
  simp

/-! ## The second header -/

/-- The memory after `shiftHeader`. -/
def shiftedHeader (m : ByteMemory) (threadId addr newAddr : ℕ) : ByteMemory :=
  let oldHeader := addr - headerSize
  let newHeader := newAddr - headerSize
  let m₁ := RegularHeader.setThreadId m newHeader threadId
  let m₂ := RegularHeader.setBibop m₁ newHeader (RegularHeader.bibop m oldHeader)
  let m₃ := RegularHeader.setMemalignOffset m₂ newHeader (sub64 newAddr addr % 2 ^ 32)
  let m₄ := RegularHeader.setControlByte m₃ newHeader (RegularHeader.controlByte m₃ oldHeader)
  RegularHeader.setFree (RegularHeader.setAllocation m₄ newHeader) oldHeader

theorem Heap.setMem_setMem (h : Heap) (m m' : ByteMemory) :
    (h.setMem m).setMem m' = h.setMem m' := rfl

theorem shiftHeader_spec {threadId addr newAddr : ℕ} {post : Unit → Heap → Prop} {halt : Halt → Prop}
    (hold : covers h.maps (addr - headerSize) headerSize = true ∨ halt .segv)
    (hnew : covers h.maps (newAddr - headerSize) headerSize = true ∨ halt .segv)
    (hp : post () (h.setMem (shiftedHeader h.mem threadId addr newAddr))) :
    Spec (shiftHeader threadId addr newAddr) h post halt := by
  unfold shiftHeader
  refine Spec.bind (peek_spec hold fun _ => ?_)
  refine Spec.bind (poke_spec hnew fun _ => ?_)
  refine Spec.bind (poke_spec hnew fun _ => ?_)
  refine Spec.bind (poke_spec hnew fun _ => ?_)
  refine Spec.bind (peek_spec hold fun _ => ?_)
  refine Spec.bind (poke_spec hnew fun _ => ?_)
  refine Spec.bind (poke_spec hnew fun _ => ?_)
  refine poke_spec hold fun _ => ?_
  simp only [Heap.setMem_mem, Heap.setMem_setMem]
  exact hp

section Header

variable {m : ByteMemory} {t addr newAddr : ℕ}

theorem shiftedHeader_outside {a : ℕ} (hold : a ≠ addr - headerSize + 14)
    (ha : a < newAddr - headerSize ∨ newAddr - headerSize + 15 ≤ a) :
    shiftedHeader m t addr newAddr a = m a := by
  unfold shiftedHeader RegularHeader.setFree RegularHeader.setAllocation
    RegularHeader.setControlByte
  rw [writeByte_of_ne _ hold, writeByte_of_ne _ (by omega), writeByte_of_ne _ (by omega)]
  unfold RegularHeader.setMemalignOffset RegularHeader.setBibop RegularHeader.setThreadId
  rw [writeLE_of_outside (by omega), writeLE_of_outside (by omega), writeLE_of_outside (by omega)]

variable (haddr : headerSize ≤ addr) (hnew : addr + headerSize ≤ newAddr)
include haddr hnew

theorem bibop_shiftedHeader (hb : RegularHeader.bibop m (addr - headerSize) < 2 ^ 64) :
    RegularHeader.bibop (shiftedHeader m t addr newAddr) (newAddr - headerSize) =
      RegularHeader.bibop m (addr - headerSize) := by
  have hread : ∀ m₁ : ByteMemory, readLE (writeLE m₁ (newAddr - headerSize) 8
      (RegularHeader.bibop m (addr - headerSize))) (newAddr - headerSize) 8 =
      RegularHeader.bibop m (addr - headerSize) := fun m₁ => readLE_writeLE (by norm_num; omega)
  refine (readLE_congr fun a h₁ h₂ => ?_).trans
    (hread (RegularHeader.setThreadId m (newAddr - headerSize) t))
  have hsize : headerSize = 16 := rfl
  exact (writeByte_of_ne _ (by omega)).trans ((writeByte_of_ne _ (by omega)).trans
    ((writeByte_of_ne _ (by omega)).trans (writeLE_of_outside (by omega))))

theorem threadId_shiftedHeader (ht : t < 2 ^ 16) :
    RegularHeader.threadId (shiftedHeader m t addr newAddr) (newAddr - headerSize) = t := by
  have hread : readLE (writeLE m (newAddr - headerSize + 12) 2 t) (newAddr - headerSize + 12) 2 =
      t := readLE_writeLE (by norm_num; omega)
  refine (readLE_congr fun a h₁ h₂ => ?_).trans hread
  have hsize : headerSize = 16 := rfl
  exact (writeByte_of_ne _ (by omega)).trans ((writeByte_of_ne _ (by omega)).trans
    ((writeByte_of_ne _ (by omega)).trans ((writeLE_of_outside (by omega)).trans
      (writeLE_of_outside (by omega)))))

/-- The allocation bit of the copied control byte is toggled, hence cleared. -/
theorem isAllocation_shiftedHeader
    (halloc : RegularHeader.isAllocation m (addr - headerSize) = true) :
    RegularHeader.isAllocation (shiftedHeader m t addr newAddr) (newAddr - headerSize) =
      false := by
  have hbits : ∀ c : BitVec 8, c &&& 0x04#8 ≠ 0 → (c ^^^ 0x04#8) &&& 0x04#8 = 0 := by decide
  have hbyte : RegularHeader.controlByte (shiftedHeader m t addr newAddr)
      (newAddr - headerSize) = RegularHeader.controlByte m (addr - headerSize) ^^^ 0x04#8 := by
    unfold RegularHeader.controlByte shiftedHeader RegularHeader.setFree
      RegularHeader.setAllocation RegularHeader.setControlByte RegularHeader.controlByte
    have hsize : headerSize = 16 := rfl
    rw [writeByte_of_ne _ (by omega), writeByte_self, writeByte_self]
    unfold RegularHeader.setMemalignOffset RegularHeader.setBibop RegularHeader.setThreadId
    rw [writeLE_of_outside (by omega), writeLE_of_outside (by omega),
      writeLE_of_outside (by omega)]
  rw [RegularHeader.isAllocation, hbyte, hbits]
  · simp
  · simpa [RegularHeader.isAllocation] using halloc

theorem isHuge_shiftedHeader :
    HugeHeader.isHuge (shiftedHeader m t addr newAddr) (newAddr - headerSize) =
      HugeHeader.isHuge m (newAddr - headerSize) := by
  have hbyte : HugeHeader.controlByte (shiftedHeader m t addr newAddr) (newAddr - headerSize) =
      HugeHeader.controlByte m (newAddr - headerSize) := by
    refine shiftedHeader_outside ?_ (.inr ?_) <;> simp only [headerSize] at * <;> omega
  rw [HugeHeader.isHuge, hbyte, HugeHeader.isHuge]

end Header

/-! ## The shifted block -/

/-- The block at `addr` is a slot's, and the last byte of the header its shifted block will have is
clear. -/
def CleanShift (m : ByteMemory) (addr newAddr : ℕ) : Prop :=
  HugeHeader.isHuge m (addr - headerSize) = false ∧
    HugeHeader.isHuge m (newAddr - headerSize) = false

instance (m : ByteMemory) (addr newAddr : ℕ) : Decidable (CleanShift m addr newAddr) :=
  inferInstanceAs (Decidable (_ ∧ _))

/-- **A clean shift** of a block just handed out moves the live block inside its slot. -/
theorem Allocated.shift {t n l u addr newAddr : ℕ} {null : Prop}
    (ha : Allocated P g h live t n u addr h') (hnull : ¬ null) (hP : P.shifted)
    (hclean : CleanShift h'.mem addr newAddr) (hnew : addr + headerSize ≤ newAddr)
    (halign : newAddr % 16 = 0) (hhead : newAddr + headerSize ≤ addr + u)
    (hroom : newAddr + l ≤ addr + u) :
    Handed P g h live null n l u newAddr
      (h'.setMem (shiftedHeader h'.mem t addr newAddr)) := by
  have hsize : headerSize = 16 := rfl
  obtain ⟨g₁, ha₁⟩ := ha.after
  have hi := ha₁.inv
  obtain ⟨haddr, hpos⟩ := (hi.contents.live _ List.mem_cons_self).headerSize_lt
  simp only at haddr hpos
  cases hi.contents.live _ List.mem_cons_self with
  | huge hB =>
    have hhuge := hB.isHuge
    rw [hclean.1] at hhuge
    cases hhuge
  | @slot b s c hB =>
    have hblock := hB.block
    simp only at hblock
    obtain ⟨-, halloc, hthread⟩ := ha.whole.resolve_left (by simp [hclean.1])
    rw [hblock.threadId] at hthread
    obtain ⟨rfl, -⟩ : addr = s + headerSize ∧ _ := by
      rcases hblock.kind with hplain | ⟨-, -, hshifted⟩
      · exact hplain
      · rw [halloc] at hshifted
        cases hshifted
    have hu : u = minBagSize <<< c.sizeClass := by
      have hu := hblock.usableSize hi.layout
      rw [ha.usable] at hu
      injection hu
    have hclass := slotSize_sub c.sizeClass
    have hs := hi.layout.slotRange_of_reg hblock.own hblock.reg
    obtain ⟨B, -, hok⟩ := hi.layout.bibop b c hblock.reg
    -- the slot goes to limbo, where its headers may be written
    have hi₁ := hi.dropSlot hB
    have hdrop : dropLive (⟨s + headerSize, n, u⟩ :: live) (s + headerSize) = live := by
      rw [dropLive, List.filter_cons_of_neg (by simp), List.filter_eq_self]
      exact fun B' hB' => by simpa using hi.outside B' hB'
    simp only [hdrop] at hi₁
    have hinside : ∀ a, shiftedHeader h'.mem t (s + headerSize) newAddr a ≠ h'.mem a →
        s ≤ a ∧ a < s + slotSize c.sizeClass ∧ a ≠ s + 15 := by
      intro a hne
      by_contra hout
      exact hne (shiftedHeader_outside (by omega) (by omega))
    have hi₂ : Inv P (g₁.setUse s .limbo) live
        (h'.setMem (shiftedHeader h'.mem t (s + headerSize) newAddr)) := by
      refine hi₁.write (fun a hne => ?_) fun b' s' ho _ => ?_
      · obtain ⟨h₁, h₂, -⟩ := hinside a hne
        exact .limbo (hs.own a h₁ h₂) (by simp)
      · by_contra hne
        obtain ⟨h₁, h₂, h₃⟩ := hinside _ hne
        have h₄ := hi.layout.slot_head ho (a := s' + 15) (by omega) (by omega)
        rw [hs.own _ h₁ h₂] at h₄
        obtain rfl := (Owner.slot.inj h₄).2
        omega
    have hbibop := hblock.bibop
    have hbound := hok.bound
    have hnewBlock : SlotBlock P g₁.own g₁.reg (shiftedHeader h'.mem t (s + headerSize) newAddr)
        b c s newAddr := by
      refine ⟨hblock.reg, hblock.own, ?_, ?_, ?_, halign, by omega, by omega,
        .inr ⟨hP, by omega, ?_⟩⟩
      · rw [bibop_shiftedHeader haddr hnew (by rw [hbibop]; omega), hbibop]
      · rw [threadId_shiftedHeader haddr hnew (by rw [← hthread]; exact hok.thread), hthread]
      · rw [isHuge_shiftedHeader haddr hnew]
        exact hclean.2
      · exact isAllocation_shiftedHeader haddr hnew halloc
    obtain ⟨e, he, hlog⟩ := hi.history.logged _ List.mem_cons_self
    have hown := hblock.head_own hi.layout le_rfl (by omega)
    have hserved : ∃ e, h'.newest (newAddr - headerSize) = some e ∧ e.origin = .pool c ∧
        e.range.base = s := by
      cases hlog with
      | pool ho hr _ _ hhead =>
        rw [hown] at hhead
        cases hhead
        rw [hblock.reg] at hr
        cases hr
        obtain ⟨b', hr', hs', hlen⟩ := hi.history.origin e (Heap.newest_mem he) _ ho
        have hin : e.range.Contains (newAddr - headerSize) := by
          constructor
          · omega
          · rw [hlen]
            omega
        exact ⟨e, hi.newest_slot he ho hin, ho, rfl⟩
      | huge _ _ _ hhead => rw [hown] at hhead; cases hhead
    have hi₃ := hi₂.addLive (B := ⟨newAddr, n, l⟩) (by simp) hnewBlock hB.count_le
      (by simp only; omega) hserved
    refine .inr ⟨by omega, hnull, ⟨_, hi₃, ha₁.ready, ?_⟩, ?_⟩
    · have hout := hi.outside
      refine (ha₁.grows.mono (y := Outside live) fun _ hf => hf.elim).trans ?_
      have hheld : ∀ a p, shiftedHeader h'.mem t (s + headerSize) newAddr a ≠ h'.mem a →
          Held g₁ a p → Outside live p := by
        intro a p hne hp
        obtain ⟨h₁, h₂, -⟩ := hinside a hne
        have := hp.unique (.slot (hs.own a h₁ h₂) hB.use)
        exact this ▸ hout
      refine (Grows.setMem hheld).trans (Grows.of_same rfl rfl (fun s' p hu hx => ?_)
        (fun _ _ _ _ => rfl) List.suffix_rfl rfl fun _ m hm => ⟨m, hm⟩)
      by_cases hss : s' = s
      · subst hss
        rw [hB.use] at hu
        exact absurd (Use.live.inj hu ▸ hout) hx
      · simpa [hss] using hu
    · rw [hu]
      exact hnewBlock.usableSize hi₃.layout

/-- A block just handed out, of which the clients write only the first `l` bytes. -/
theorem Allocated.narrow {t n l u p : ℕ} {null : Prop} (ha : Allocated P g h live t n u p h')
    (hnull : ¬ null) (hl : l ≤ u) : Handed P g h live null n l u p h' := by
  obtain ⟨g₁, ha₁⟩ := ha.after
  have hi₁ : Inv P g₁ (⟨p, n, l⟩ :: live) h' := by
    refine ha₁.inv.setLive (fun B hB => ?_) (fun B hB => ?_) ha₁.inv.contents.liveNodup
    · rcases List.mem_cons.mp hB with rfl | hB
      · cases ha₁.inv.contents.live _ List.mem_cons_self with
        | slot hB => exact .slot ⟨hB.block, hB.use, hB.count_le, by
          have := hB.limit_le
          simp only at this ⊢
          omega⟩
        | huge hB => exact .huge ⟨hB.own, hB.isHuge, hB.aligned, hB.ptr_ge, hB.top, hB.size_mod,
            hB.count_le, le_trans hl hB.limit_le⟩
      · exact ha₁.inv.contents.live B (List.mem_cons_of_mem _ hB)
    · rcases List.mem_cons.mp hB with rfl | hB
      · exact ⟨_, List.mem_cons_self, rfl⟩
      · exact ⟨B, List.mem_cons_of_mem _ hB, rfl⟩
  exact .inr ⟨ha.ptr_pos, hnull, ⟨g₁, hi₁, ha₁.ready, ha₁.grows.mono fun _ hf => hf.elim⟩, ha.usable⟩

theorem Allocated.headerSize_le {t n u p : ℕ} (ha : Allocated P g h live t n u p h') :
    headerSize ≤ p := by
  obtain ⟨g₁, ha₁⟩ := ha.after
  exact (ha₁.inv.contents.live _ List.mem_cons_self).headerSize_lt.1

/-- A block just handed out is 16-aligned and ends in user space. -/
theorem Allocated.bounds {t n u p : ℕ} (ha : Allocated P g h live t n u p h') :
    p % 16 = 0 ∧ p + u ≤ 2 ^ 63 := by
  obtain ⟨g₁, ha₁⟩ := ha.after
  have hl := ha₁.inv.layout
  cases ha₁.inv.contents.live _ List.mem_cons_self with
  | slot hB =>
    have hs := hl.slotRange_of_reg hB.block.own hB.block.reg
    have htop := hs.top
    have hlimit := hB.limit_le
    exact ⟨hB.block.aligned, by simp only at hlimit; omega⟩
  | huge hB =>
    have halign := hB.aligned
    have htop := hB.top
    have hlimit := hB.limit_le
    simp only [pageSize] at halign htop hlimit
    exact ⟨by omega, by omega⟩

/-! ## Usable sizes -/

/-- The usable size that the header before `p` names: the size of a mapping, or that of the objects
of a BIBOP. -/
def namedUsable (h : Heap) (p : ℕ) : Option ℕ :=
  if HugeHeader.isHuge h.mem (p - headerSize) then some (HugeHeader.size h.mem (p - headerSize))
  else (h.bibops (RegularHeader.bibop h.mem (p - headerSize))).map SingleBIBOP.getObjectSize

theorem ok_iff_some {a u : ℕ} :
    (.ok a h : EStateM.Result Halt Heap ℕ) = .ok u h ↔ some a = some u := by
  simp

theorem usableSize_iff {p u : ℕ} (hcov : covers h.maps (p - headerSize) headerSize = true) :
    cssMallocUsableSize p h = .ok u h ↔ namedUsable h p = some u := by
  unfold namedUsable
  cases hhuge : HugeHeader.isHuge h.mem (p - headerSize) with
  | true =>
    rw [usableSize_of_huge hcov hhuge, if_pos rfl, ok_iff_some]
  | false =>
    rw [if_neg Bool.false_ne_true]
    cases hB : h.bibops (RegularHeader.bibop h.mem (p - headerSize)) with
    | some B =>
      rw [usableSize_of_regular hcov hhuge rfl hB, ok_iff_some, Option.map_some]
    | none =>
      -- no object lies where the header points
      have hhalts : Spec (cssMallocUsableSize p) h (fun _ _ => False) fun _ => True := by
        unfold cssMallocUsableSize
        refine Spec.bind (peek_spec (.inl hcov) fun _ => ?_)
        rw [hhuge, if_neg Bool.false_ne_true]
        unfold getRegularSize
        refine Spec.bind (peek_spec (.inl hcov) fun _ => ?_)
        unfold getBIBOP
        refine Spec.bind (Spec.bind (Spec.get ?_))
        rw [hB]
        exact Spec.throw trivial
      exact ⟨fun hu => (hhalts.of_ok hu).elim, fun hu => nomatch hu⟩

/-- The usable size of the block `css_memalign` returns when `mallocMemory` gave it a block at `addr`
for `m` bytes. A shifted mapping has a blank second header: it reads as that of a slot, and the length
copied to it as the address of a BIBOP. A slot whose second header reads as that of a mapping has the
address of its BIBOP as its length. -/
def memalignUsable (alignment m : Word) (addr : ℕ) (h : Heap) : Option ℕ :=
  if addr % alignment.toNat = 0 ∨ CleanShift h.mem addr (shiftedAddress addr alignment) then
    some (regularUsable m)
  else if HugeHeader.isHuge h.mem (addr - headerSize) then
    (h.bibops (regularUsable m)).map SingleBIBOP.getObjectSize
  else some (RegularHeader.bibop h.mem (addr - headerSize))

theorem Allocated.head_covers {t n u addr : ℕ} (ha : Allocated P g h live t n u addr h') :
    covers h'.maps (addr - headerSize) headerSize = true := by
  obtain ⟨g₁, ha₁⟩ := ha.after
  have hl := ha₁.inv.layout
  cases ha₁.inv.contents.live _ List.mem_cons_self with
  | slot hB => exact hB.block.head_covers hl
  | huge hB => exact hB.head_covers hl

/-- **What the second header names**: the last byte of it is that of the block, and the BIBOP is
copied. -/
theorem Allocated.namedUsable_shiftedHeader {t n u addr newAddr : ℕ}
    (ha : Allocated P g h live t n u addr h') (hnew : addr + headerSize ≤ newAddr) :
    namedUsable (h'.setMem (shiftedHeader h'.mem t addr newAddr)) newAddr =
      if HugeHeader.isHuge h'.mem (newAddr - headerSize) then
        some (RegularHeader.bibop h'.mem (addr - headerSize))
      else (h'.bibops (RegularHeader.bibop h'.mem (addr - headerSize))).map
        SingleBIBOP.getObjectSize := by
  have haddr := ha.headerSize_le
  have hbibop := bibop_shiftedHeader (t := t) haddr hnew (readLE_lt h'.mem (addr - headerSize) 8)
  -- the length of a mapping stands where the BIBOP of a slot does
  have hsize : HugeHeader.size (shiftedHeader h'.mem t addr newAddr) (newAddr - headerSize) =
      RegularHeader.bibop h'.mem (addr - headerSize) := hbibop
  unfold namedUsable
  simp only [Heap.setMem_mem, Heap.setMem_bibops, isHuge_shiftedHeader haddr hnew, hbibop, hsize]

/-- **The usable size of a shifted block.** -/
theorem Allocated.shifted_usable {t n addr : ℕ} {alignment m : Word}
    (ha : Allocated P g h live t n (regularUsable m) addr h')
    (hunaligned : addr % alignment.toNat ≠ 0)
    (hnew : addr + headerSize ≤ shiftedAddress addr alignment)
    (hend : shiftedAddress addr alignment ≤ addr + regularUsable m) :
    namedUsable (h'.setMem (shiftedHeader h'.mem t addr (shiftedAddress addr alignment)))
      (shiftedAddress addr alignment) = memalignUsable alignment m addr h' := by
  have hsize : headerSize = 16 := rfl
  have hhead := (usableSize_iff ha.head_covers).mp ha.usable
  rw [ha.namedUsable_shiftedHeader hnew]
  unfold memalignUsable CleanShift
  unfold namedUsable at hhead
  rcases ha.whole with ⟨hhuge, hblank⟩ | ⟨hhuge, -⟩
  · -- the second header of a mapping is blank
    have hnewBlank : HugeHeader.isHuge h'.mem (shiftedAddress addr alignment - headerSize) =
        false := by
      rw [HugeHeader.isHuge, HugeHeader.controlByte, hblank _ (by omega) (by omega)]
      decide
    rw [hhuge, if_pos rfl] at hhead
    have hlength : RegularHeader.bibop h'.mem (addr - headerSize) = regularUsable m :=
      Option.some.inj hhead
    simp [hhuge, hnewBlank, hunaligned, hlength]
  · rw [hhuge, if_neg Bool.false_ne_true] at hhead
    by_cases hshift : HugeHeader.isHuge h'.mem (shiftedAddress addr alignment - headerSize) = true
    · simp [hhuge, hunaligned, hshift]
    · simp [hhuge, hhead, hshift]

/-! ## The entry point -/

/-- The header before `p` names the manager `t`, unless it is that of a mapping. -/
def Stamped (m : ByteMemory) (p t : ℕ) : Prop :=
  HugeHeader.isHuge m (p - headerSize) = true ∨ RegularHeader.threadId m (p - headerSize) = t

/-- **`css_memalign`**, when it shifts only where blocks are promised to
be shifted, and only cleanly. -/
theorem cssMemalign_spec {alignment size : Word} (hi : Inv P g live h) (hready : Ready h)
    (hshift : ∀ addr h₁, mallocMemoryCSI (h.tls τ).threadId
      (memalignSize alignment (getRealSize size)) (getCSI size) (inLoop size)
      (h.addCall ⟨τ, (h.tls τ).threadId⟩) = .ok addr h₁ →
      addr % alignment.toNat = 0 ∨
        P.shifted ∧ CleanShift h₁.mem addr (shiftedAddress addr alignment)) :
    Spec (cssMemalign τ alignment size) h
      (fun r h' => r % alignment.toNat = 0 ∧
        Handed P g h live (memalignSize alignment (getRealSize size) = 0)
          (memalignSize alignment (getRealSize size)).toNat (getRealSize size).toNat
          (regularUsable (memalignSize alignment (getRealSize size))) r h' ∧
        (r = 0 ∨ Stamped h'.mem r (h.tls τ).threadId))
      fun _ => True := by
  have hreal : (getRealSize size).toNat < 2 ^ 32 := by
    rw [toNat_getRealSize]
    exact Nat.mod_lt _ (by norm_num)
  unfold cssMemalign
  refine Spec.ite (fun _ => Spec.bind (Spec.throw trivial)) fun htest => ?_
  replace htest : alignment &&& (alignment - 1#64) = 0 := not_not.mp htest
  dsimp only
  refine Spec.ite (fun _ => Spec.bind (Spec.throw trivial)) fun hne => ?_
  have hcases := memalignSize_cases htest hne hreal
  refine Spec.bind (getThreadId_spec ?_)
  obtain ⟨hi₁, hg₁⟩ := hi.addCall (x := Spared) ⟨τ, (h.tls τ).threadId⟩
  refine Spec.imp ?_ fun r h' (hr : r % alignment.toNat = 0 ∧ Handed P g (h.addCall _) live _ _ _ _
    r h' ∧ (r = 0 ∨ Stamped h'.mem r (h.tls τ).threadId)) =>
    ⟨hr.1, hr.2.1.after_spared hg₁, hr.2.2⟩
  have hn : (memalignSize alignment (getRealSize size)).toNat ≤
      regularUsable (memalignSize alignment (getRealSize size)) := by
    refine le_regularUsable ?_
    rcases hcases with hz | ⟨-, hle⟩
    · rw [hz]
      exact Nat.zero_le _
    · exact hle
  refine Spec.seq_run (mallocMemoryCSI_spec hi₁ hready (getCSI_ne_allOnes size) hn).any ?_
  rintro addr h₁ hrun (⟨rfl, hz, ha⟩ | ⟨hnz, ha⟩)
  · rw [if_pos (Nat.zero_mod _)]
    exact Spec.pure ⟨Nat.zero_mod _, .inl ⟨rfl, hz, ha⟩, .inl rfl⟩
  obtain ⟨hroom, -⟩ := hcases.resolve_left hnz
  refine Spec.ite (fun haligned => Spec.pure ⟨haligned, ha.narrow hnz (by omega),
    .inr (ha.whole.imp And.left fun hw => hw.2.2)⟩) fun hunaligned => ?_
  obtain ⟨hP, hclean⟩ := (hshift addr h₁ hrun).resolve_left hunaligned
  obtain ⟨halign, htop⟩ := ha.bounds
  obtain ⟨h₂, h₃, h₄, h₅⟩ := shiftedAddress_bounds htest hne halign hunaligned (by omega)
  have hsize : headerSize = 16 := rfl
  have hthread : RegularHeader.threadId (shiftedHeader h₁.mem (h.tls τ).threadId addr
      (shiftedAddress addr alignment)) (shiftedAddress addr alignment - headerSize) =
      (h.tls τ).threadId := by
    have hstamp := (ha.whole.resolve_left (by simp [hclean.1])).2.2
    refine threadId_shiftedHeader ha.headerSize_le h₂ ?_
    rw [← hstamp]
    exact readLE_lt h₁.mem (addr - headerSize + 12) 2
  refine Spec.bind (shiftHeader_spec (.inr trivial) (.inr trivial)
    (Spec.pure ⟨h₅, ?_, .inr (.inr hthread)⟩))
  have hhead : shiftedAddress addr alignment + headerSize ≤
      addr + regularUsable (memalignSize alignment (getRealSize size)) := by omega
  have hlimit : shiftedAddress addr alignment + (getRealSize size).toNat ≤
      addr + regularUsable (memalignSize alignment (getRealSize size)) := by omega
  exact ha.shift hnz hP hclean h₂ h₄ hhead hlimit

/-- Why `css_memalign` ends the process: it refuses the alignment, or divides by it, or its thread has
no manager, or the allocation ends the process. -/
def MemalignEnds (P : Promise) (h : Heap) (t : ℕ) (alignment : Word) (e : Halt) : Prop :=
  e = .invalidAlignment ∨ e = .divisionByZero ∧ alignment = 0 ∨ h.globalMemoryManager t = none ∨
    RanOut h t e ∨ P.shifted ∧ e = .doubleFree

/-- **The usable size of what `css_memalign` returns**, whether it shifts or not. -/
theorem cssMemalign_usable {alignment size : Word} (hi : Inv P g live h) (hready : Ready h) :
    Spec (cssMemalign τ alignment size) h
      (fun r h' => (r = 0 ∧ memalignSize alignment (getRealSize size) = 0) ∨
        0 < r ∧ memalignSize alignment (getRealSize size) ≠ 0 ∧
          ∃ addr h₁, mallocMemoryCSI (h.tls τ).threadId (memalignSize alignment (getRealSize size))
              (getCSI size) (inLoop size) (h.addCall ⟨τ, (h.tls τ).threadId⟩) = .ok addr h₁ ∧
            ∀ u, cssMallocUsableSize r h' = .ok u h' ↔
              memalignUsable alignment (memalignSize alignment (getRealSize size)) addr h₁ =
                some u)
      (MemalignEnds P h (h.tls τ).threadId alignment) := by
  have hreal : (getRealSize size).toNat < 2 ^ 32 := by
    rw [toNat_getRealSize]
    exact Nat.mod_lt _ (by norm_num)
  unfold cssMemalign
  refine Spec.ite (fun _ => Spec.bind (Spec.throw (.inl rfl))) fun htest => ?_
  replace htest : alignment &&& (alignment - 1#64) = 0 := not_not.mp htest
  dsimp only
  refine Spec.ite (fun hz => Spec.bind (Spec.throw (.inr (.inl ⟨rfl, hz⟩)))) fun hne => ?_
  have hcases := memalignSize_cases htest hne hreal
  refine Spec.bind (getThreadId_spec ?_)
  obtain ⟨hi₁, -⟩ := hi.addCall (x := Spared) ⟨τ, (h.tls τ).threadId⟩
  refine Spec.seq_run ((mallocMemoryCSI_spec hi₁ hready (getCSI_ne_allOnes size)
    (Nat.zero_le _)).halts fun _ hx => .inr (.inr hx)) ?_
  rintro addr h₁ hrun (⟨rfl, hz, -⟩ | ⟨hnz, ha⟩)
  · rw [if_pos (Nat.zero_mod _)]
    exact Spec.pure (.inl ⟨rfl, hz⟩)
  obtain ⟨hroom, hle⟩ := hcases.resolve_left hnz
  refine Spec.ite (fun haligned => Spec.pure (.inr ⟨ha.ptr_pos, hnz, addr, h₁, hrun, fun u => ?_⟩))
    fun hunaligned => ?_
  · rw [ha.usable, memalignUsable, if_pos (.inl haligned), ok_iff_some]
  have hu := le_regularUsable hle
  obtain ⟨halign, htop⟩ := ha.bounds
  obtain ⟨h₂, h₃, -⟩ := shiftedAddress_bounds htest hne halign hunaligned (by omega)
  have hsize : headerSize = 16 := rfl
  have hpos : 0 < shiftedAddress addr alignment := by omega
  have hcov : covers h₁.maps (shiftedAddress addr alignment - headerSize) headerSize = true := by
    obtain ⟨g₁, ha₁⟩ := ha.after
    have hblock := (ha₁.inv.contents.live _ List.mem_cons_self).covers ha₁.inv.layout le_rfl
    exact covers_iff.mpr fun a h₄ h₅ => covers_iff.mp hblock a (by simp only; omega)
      (by simp only; omega)
  refine Spec.bind (shiftHeader_spec (.inl ha.head_covers) (.inl hcov)
    (Spec.pure (.inr ⟨hpos, hnz, addr, h₁, hrun, fun u => ?_⟩)))
  rw [← ha.shifted_usable hunaligned h₂ (by omega)]
  exact usableSize_iff hcov

end Semalloc
