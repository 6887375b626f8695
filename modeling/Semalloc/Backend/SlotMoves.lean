import Semalloc.Backend.Invariant

/-!
# Moves of a slot

A slot moves between the free list of its BIBOP, limbo, the live blocks and the remote free list
of its owner. Each move changes one list head and the use of that slot; what is written meanwhile
goes to scratch bytes. The lemmas here show that each keeps the invariant. The layout does not look
at memory, and is kept because no chunk, pool or table changes.

## Main results

* `Inv.scratch`: writes to scratch bytes
* `Inv.popFree`, `Inv.pushFree`: the free list
* `Inv.popPending`, `Inv.pushPending`: the remote free list
* `Inv.addLive`, `Inv.dropSlot`: limbo and the live blocks
-/

set_option autoImplicit false

namespace Semalloc

open ByteMemory Region

variable {P : Promise} {g : Ghost} {live : List Block} {h : Heap} {m' : ByteMemory}
  {own : ℕ → Owner} {reg : ℕ → Option Compartment} {use : ℕ → Use} {x : ℕ → Prop}

/-! ## Slot sizes -/

theorem slotSize_eq (k : ℕ) : slotSize k = 16 * 2 ^ k + 16 := by
  rw [slotSize, minBagSize, headerSize, Nat.shiftLeft_eq]

theorem slotSize_ge (k : ℕ) : 32 ≤ slotSize k := by
  have := Nat.one_le_two_pow (n := k)
  rw [slotSize_eq]
  omega

theorem slotSize_mod (k : ℕ) : slotSize k % 16 = 0 := by
  rw [slotSize_eq]
  omega

theorem slotSize_le {k : ℕ} (hk : k < globalBagN) : slotSize k ≤ 2 ^ 17 + 16 := by
  have : 2 ^ k ≤ 2 ^ 13 := Nat.pow_le_pow_right (by norm_num) (by simp [globalBagN] at hk; omega)
  rw [slotSize_eq]
  omega

theorem slotSize_sub (k : ℕ) : slotSize k - headerSize = minBagSize <<< k := by
  rw [slotSize, Nat.add_sub_cancel]

/-! ## Headers depend on their own bytes -/

/-- The 16 header bytes at `a` are the same. -/
def SameHeader (m m' : ByteMemory) (a : ℕ) : Prop := AgreeOn (fun x => a ≤ x ∧ x < a + 16) m m'

namespace SameHeader

variable {m m₁ : ByteMemory} {a : ℕ}

theorem link (hs : SameHeader m m₁ a) : link m₁ a = link m a :=
  readLE_congr fun x hx hx' => hs x ⟨hx, by omega⟩

theorem bibop (hs : SameHeader m m₁ a) : RegularHeader.bibop m₁ a = RegularHeader.bibop m a :=
  hs.link

theorem size (hs : SameHeader m m₁ a) : HugeHeader.size m₁ a = HugeHeader.size m a := hs.link

theorem memalignOffset (hs : SameHeader m m₁ a) :
    RegularHeader.memalignOffset m₁ a = RegularHeader.memalignOffset m a :=
  readLE_congr fun x hx hx' => hs x ⟨by omega, by omega⟩

theorem threadId (hs : SameHeader m m₁ a) :
    RegularHeader.threadId m₁ a = RegularHeader.threadId m a :=
  readLE_congr fun x hx hx' => hs x ⟨by omega, by omega⟩

theorem controlByte (hs : SameHeader m m₁ a) :
    RegularHeader.controlByte m₁ a = RegularHeader.controlByte m a := hs _ ⟨by omega, by omega⟩

theorem isRegular (hs : SameHeader m m₁ a) :
    RegularHeader.isRegular m₁ a = RegularHeader.isRegular m a := by
  rw [RegularHeader.isRegular, hs.controlByte, RegularHeader.isRegular]

theorem isAllocation (hs : SameHeader m m₁ a) :
    RegularHeader.isAllocation m₁ a = RegularHeader.isAllocation m a := by
  rw [RegularHeader.isAllocation, hs.controlByte, RegularHeader.isAllocation]

theorem isHuge (hs : SameHeader m m₁ a) : HugeHeader.isHuge m₁ a = HugeHeader.isHuge m a := by
  have : HugeHeader.controlByte m₁ a = HugeHeader.controlByte m a := hs _ ⟨by omega, by omega⟩
  rw [HugeHeader.isHuge, this, HugeHeader.isHuge]

end SameHeader

theorem SlotBlock.congr {m m₁ : ByteMemory} {b s p : ℕ} {c : Compartment}
    (hp : SlotBlock P own reg m b c s p) (hs : SameHeader m m₁ (p - headerSize)) :
    SlotBlock P own reg m₁ b c s p where
  reg := hp.reg
  own := hp.own
  bibop := hs.bibop.trans hp.bibop
  threadId := hs.threadId.trans hp.threadId
  notHuge := hs.isHuge.trans hp.notHuge
  aligned := hp.aligned
  slot_le := hp.slot_le
  le_slot := hp.le_slot
  kind := by
    rw [hs.isRegular, hs.isAllocation, hs.memalignOffset]
    exact hp.kind

theorem LiveBlock.congr {m m₁ : ByteMemory} {B : Block} (hB : LiveBlock P own reg use m B)
    (hs : SameHeader m m₁ (B.ptr - headerSize)) : LiveBlock P own reg use m₁ B := by
  cases hB with
  | slot hB => exact .slot ⟨hB.block.congr hs, hB.use, hB.count_le, hB.limit_le⟩
  | huge hB =>
    refine .huge ⟨?_, hs.isHuge.trans hB.isHuge, hB.aligned, hB.ptr_ge, ?_, ?_, ?_, ?_⟩
    · rw [hs.size]; exact hB.own
    · rw [hs.size]; exact hB.top
    · rw [hs.size]; exact hB.size_mod
    · rw [hs.size]; exact hB.count_le
    · rw [hs.size]; exact hB.limit_le

/-! ## Bytes of a slot -/

/-- The slots of a layout are aligned, off the first page, and inside user space. -/
structure SlotRange (own : ℕ → Owner) (reg : ℕ → Option Compartment) (b : ℕ) (c : Compartment)
    (s : ℕ) : Prop where
  reg : reg b = some c
  aligned : s % 16 = 0
  own : ∀ a, s ≤ a → a < s + slotSize c.sizeClass → own a = .slot b s
  page : pageSize ≤ s
  top : s + slotSize c.sizeClass ≤ 2 ^ 63
  sizeClass : c.sizeClass < globalBagN

namespace Layout

theorem slotRange (hl : Layout own reg h) {a b s : ℕ} (ha : own a = .slot b s) :
    ∃ c, SlotRange own reg b c s ∧ s ≤ a ∧ a < s + slotSize c.sizeClass := by
  obtain ⟨hsa, c, B, hc, hB, has, hok, -⟩ := hl.slot a b s ha
  have hsize := slotSize_ge c.sizeClass
  obtain ⟨B', hB', hok'⟩ := hl.bibop b c hc
  have hfirst := hok.own s le_rfl (by omega)
  have hlast := hok.own (s + slotSize c.sizeClass - 1) (by omega) (by omega)
  have h₁ := hl.userSpace s (hl.mapped s (by rw [hfirst]; simp))
  have h₂ := hl.userSpace _ (hl.mapped (s + slotSize c.sizeClass - 1) (by rw [hlast]; simp))
  exact ⟨c, ⟨hc, hok.aligned, hok.own, h₁.1, by omega, hok'.sizeClass⟩, hsa, has⟩

theorem slotRange_of_reg (hl : Layout own reg h) {b s : ℕ} {c : Compartment}
    (hs : own s = .slot b s) (hc : reg b = some c) : SlotRange own reg b c s := by
  obtain ⟨c', hr, -⟩ := hl.slotRange hs
  obtain rfl : c = c' := by simpa [hc] using hr.reg
  exact hr

/-- The first 32 bytes of any slot are its own. -/
theorem slot_head (hl : Layout own reg h) {b s : ℕ} (hs : own s = .slot b s) {a : ℕ}
    (h₁ : s ≤ a) (h₂ : a < s + 32) : own a = .slot b s := by
  obtain ⟨c, hr, -⟩ := hl.slotRange hs
  have := slotSize_ge c.sizeClass
  exact hr.own a h₁ (by omega)

theorem slot_covers (hl : Layout own reg h) {b s n : ℕ} {c : Compartment}
    (hr : SlotRange own reg b c s) {a : ℕ} (h₁ : s ≤ a) (h₂ : a + n ≤ s + slotSize c.sizeClass) :
    covers h.maps a n = true := by
  rw [covers_iff]
  intro x hx hx'
  have := hr.own x (by omega) (by omega)
  exact hl.mapped x (by rw [this]; simp)

/-- The layout looks at neither memory nor history nor the call counter. -/
theorem congr (hl : Layout own reg h) {h' : Heap} (hos : h'.os = h.os) (hmaps : h'.maps = h.maps)
    (hb : h'.bibops = h.bibops) (hm : h'.globalMemoryManager = h.globalMemoryManager)
    (hbump : h'.threadBump = h.threadBump) (htls : h'.tls = h.tls) : Layout own reg h' where
  excluded := by rw [hos]; exact hl.excluded
  mapped := by rw [hmaps]; exact hl.mapped
  userSpace := by rw [hmaps]; exact hl.userSpace
  bibop := by rw [hb]; exact hl.bibop
  known := by rw [hb]; exact hl.known
  slot := by rw [hb, hm]; exact hl.slot
  manager := by rw [hm]; exact hl.manager
  thread := by rw [htls, hm]; exact hl.thread
  unborn := by rw [hm, hbump]; exact hl.unborn

/-- A BIBOP may be replaced by a well-formed one that forgets none of its chunks. -/
theorem setBIBOP (hl : Layout own reg h) {b : ℕ} {c : Compartment} {B B' : SingleBIBOP}
    (hr : reg b = some c) (hB : h.bibops b = some B) (hok : BIBOPOk own b c B')
    (hchunks : B.chunks ⊆ B'.chunks) : Layout own reg (h.setBIBOP b B') where
  excluded := hl.excluded
  mapped := hl.mapped
  userSpace := hl.userSpace
  bibop b' c' hr' := by
    by_cases hbb : b' = b
    · subst hbb
      rw [hr] at hr'
      cases hr'
      exact ⟨B', by simp, hok⟩
    · obtain ⟨B₁, hB₁, hok₁⟩ := hl.bibop b' c' hr'
      exact ⟨B₁, by simpa [hbb] using hB₁, hok₁⟩
  known b' B₁ hB₁ := by
    by_cases hbb : b' = b
    · exact ⟨c, hbb ▸ hr⟩
    · exact hl.known b' B₁ (by simpa [hbb] using hB₁)
  slot a b' s ha := by
    obtain ⟨hsa, c', B₁, hr', hB₁, has, hok₁, hm⟩ := hl.slot a b' s ha
    by_cases hbb : b' = b
    · subst hbb
      cases hB.symm.trans hB₁
      obtain ⟨r, hrB, hin⟩ := hok₁.chunk
      exact ⟨hsa, c', B', hr', by simp, has, ⟨hok₁.aligned, hok₁.own, r, hchunks hrB, hin⟩, hm⟩
    · exact ⟨hsa, c', B₁, hr', by simpa [hbb] using hB₁, has, hok₁, hm⟩
  manager := hl.manager
  thread := hl.thread
  unborn := hl.unborn

/-- A BIBOP's free list head is not part of the layout. -/
theorem setFreeList (hl : Layout own reg h) {b y : ℕ} {B : SingleBIBOP}
    (hB : h.bibops b = some B) : Layout own reg (h.setBIBOP b { B with freeList := y }) := by
  obtain ⟨c, hr⟩ := hl.known b B hB
  obtain ⟨B', hB', hok⟩ := hl.bibop b c hr
  cases hB.symm.trans hB'
  exact hl.setBIBOP hr hB ⟨hok.sizeClass, hok.thread, hok.objectSize, hok.object, hok.bound,
    hok.aligned, hok.base_pos, hok.base_le, hok.top, hok.chunk, hok.spare⟩ (List.Subset.refl _)

/-- A manager may be replaced by another one that is well formed. -/
theorem setManager (hl : Layout own reg h) {t : ℕ} {m m₁ : MemoryManager}
    (hm : h.globalMemoryManager t = some m) (hok : ManagerOk own reg t m₁) :
    Layout own reg (h.setManager t m₁) where
  excluded := hl.excluded
  mapped := hl.mapped
  userSpace := hl.userSpace
  bibop := hl.bibop
  known := hl.known
  slot a b s ha := by
    obtain ⟨hsa, c, B, hc, hB, has, hok', m₂, hm₂⟩ := hl.slot a b s ha
    refine ⟨hsa, c, B, hc, hB, has, hok', ?_⟩
    by_cases htt : c.thread = t
    · exact ⟨m₁, by simp [htt]⟩
    · exact ⟨m₂, by simpa [htt] using hm₂⟩
  manager t' m' hm' := by
    by_cases htt : t' = t
    · subst htt
      obtain rfl : m₁ = m' := by simpa using hm'
      exact hok
    · exact hl.manager t' m' (by simpa [htt] using hm')
  thread τ hτ hτ' := by
    obtain ⟨m₂, hm₂⟩ := hl.thread τ hτ hτ'
    by_cases htt : (h.tls τ).threadId = t
    · exact ⟨m₁, by simp [htt]⟩
    · exact ⟨m₂, by simpa [htt] using hm₂⟩
  unborn t' ht' := by
    have hnone := hl.unborn t' ht'
    have htt : t' ≠ t := fun he => by rw [he, hm] at hnone; cases hnone
    simpa [htt] using hnone

end Layout

/-- The 16 bytes before a block in a slot lie in the slot. -/
theorem SlotBlock.head_own {m : ByteMemory} {b s p : ℕ} {c : Compartment}
    (hp : SlotBlock P own reg m b c s p) (hl : Layout own reg h) {a : ℕ}
    (h₁ : p - headerSize ≤ a) (h₂ : a < p + headerSize) : own a = .slot b s := by
  have hr := hl.slotRange_of_reg hp.own hp.reg
  have := hp.slot_le
  have := hp.le_slot
  exact hr.own a (by simp only [headerSize] at *; omega) (by omega)

/-! ## Scratch bytes -/

/-- The byte may be written: a byte of a slot in limbo, a byte after the header of a live block, or
a byte of a mapping that is not live. -/
inductive Scratch (g : Ghost) (live : List Block) (a : ℕ) : Prop
  | limbo {b s : ℕ} (ho : g.own a = .slot b s) (hu : g.use s = .limbo)
  | data {b s p : ℕ} (ho : g.own a = .slot b s) (hu : g.use s = .live p) (hs : s + 16 ≤ a)
      (hp : p ≤ a)
  | huge {p : ℕ} (ho : g.own a = .huge p) (hp : p ≤ a ∨ ∀ B ∈ live, B.ptr ≠ p)

theorem Scratch.not_blank {a : ℕ} (hs : Scratch g live a) : ¬ (g.own a).Blank := by
  cases hs with
  | limbo ho | data ho | huge ho => simp [ho, Owner.Blank]

/-- The header of a used slot block is not scratch. -/
theorem SlotBlock.not_scratch {m : ByteMemory} {b s p a : ℕ} {c : Compartment}
    (hp : SlotBlock P g.own g.reg m b c s p) (hl : Layout g.own g.reg h)
    (hu : g.use s = .live p ∨ g.use s = .pending p) (h₁ : p - headerSize ≤ a)
    (h₂ : a < p) : ¬ Scratch g live a := by
  have ho := hp.head_own hl h₁ (by omega)
  intro hs
  cases hs with
  | limbo ho' hu' =>
    rw [ho] at ho'
    cases ho'
    rw [hu'] at hu
    rcases hu with hu | hu <;> cases hu
  | data ho' hu' _ hp' =>
    rw [ho] at ho'
    cases ho'
    rw [hu'] at hu
    rcases hu with hu | hu <;> cases hu
    omega
  | huge ho' => rw [ho] at ho'; cases ho'

/-- The header of a live block is not scratch. -/
theorem LiveBlock.sameHeader {B : Block} (hB : LiveBlock P g.own g.reg g.use h.mem B)
    (hin : B ∈ live) (hl : Layout g.own g.reg h)
    (hm : ∀ a, m' a ≠ h.mem a → Scratch g live a) :
    SameHeader h.mem m' (B.ptr - headerSize) := by
  rintro a ⟨h₁, h₂⟩
  by_contra hne
  have hs := hm a hne
  cases hB with
  | slot hB =>
    have := hB.block.slot_le
    exact hB.block.not_scratch hl (.inl hB.use) h₁ (by simp only [headerSize] at *; omega) hs
  | huge hB =>
    have hge := hB.ptr_ge
    have ho := hB.own a (by simp only [headerSize, pageSize] at *; omega)
      (by simp only [headerSize, pageSize] at *; omega)
    cases hs with
    | limbo ho' | data ho' => rw [ho] at ho'; cases ho'
    | huge ho' hp' =>
      rw [ho] at ho'
      cases ho'
      rcases hp' with hp' | hp'
      · simp only [headerSize, pageSize] at *
        omega
      · exact hp' B hin rfl

theorem History.setMem (hh : History P g live h)
    (hs : ∀ B ∈ live, SameHeader h.mem m' (B.ptr - headerSize)) :
    History P g live (h.setMem m') where
  origin := hh.origin
  isolated := hh.isolated
  logged B hB := by
    obtain ⟨e, he, hlog⟩ := hh.logged B hB
    refine ⟨e, he, ?_⟩
    cases hlog with
    | pool ho hr hown huse hhead => exact .pool ho hr hown huse hhead
    | huge ho hr hown hhead =>
      exact .huge ho (by rw [hr, Heap.setMem_mem, (hs B hB).size]) hown hhead
  kept := hh.kept

/-- The invariant depends on blank bytes, on the headers of used slots and live blocks, and on the
links between blocks. -/
theorem Inv.setMem (hi : Inv P g live h) (hzero : ∀ a, (g.own a).Blank → m' a = h.mem a)
    (hclean : ∀ b s, g.own s = .slot b s → HugeHeader.isHuge m' s = false)
    (hfree : ∀ b s, s ∈ g.free b → SameHeader h.mem m' s)
    (hpend : ∀ t p, p ∈ g.pending t → SameHeader h.mem m' (p - headerSize) ∧
      link m' p = link h.mem p)
    (hlive : ∀ B ∈ live, SameHeader h.mem m' (B.ptr - headerSize)) :
    Inv P g live (h.setMem m') := by
  have hc := hi.contents
  refine ⟨hi.layout.congr rfl rfl rfl rfl rfl rfl, ?_, hi.history.setMem hlive⟩
  refine ⟨?_, hclean, hc.used, ?_, ?_, hc.freeNodup, ?_, ?_, hc.pendingNodup, hc.pendingUnborn,
    hc.liveNodup, ?_⟩
  · intro a ha
    exact (hzero a ha).trans (hc.zero a ha)
  · intro b B hB
    exact (hc.freeChain b B hB).congr fun s hs => (hfree b s hs).link
  · intro b s hs
    obtain ⟨ho, hu, ha⟩ := hc.freeSlot b s hs
    exact ⟨ho, hu, (hfree b s hs).isAllocation.trans ha⟩
  · intro t m hm'
    exact (hc.pendingChain t m hm').congr fun p hp => (hpend t p hp).2
  · intro t p hp
    obtain ⟨b, c, s, ht, hblock, hu⟩ := hc.pendingBlock t p hp
    exact ⟨b, c, s, ht, hblock.congr (hpend t p hp).1, hu⟩
  · intro B hB
    exact (hc.live B hB).congr (hlive B hB)

/-- **Scratch writes** keep the invariant, when slots in limbo keep a clear last header byte. -/
theorem Inv.scratch (hi : Inv P g live h) (hm : ∀ a, m' a ≠ h.mem a → Scratch g live a)
    (hclean : ∀ b s, g.own s = .slot b s → g.use s = .limbo → HugeHeader.isHuge m' s = false) :
    Inv P g live (h.setMem m') := by
  have hl := hi.layout
  have hc := hi.contents
  have hsame : ∀ a, ¬ Scratch g live a → m' a = h.mem a := fun a ha => by
    by_contra hne
    exact ha (hm a hne)
  -- the header of a slot that is not in limbo
  have hslot : ∀ b s, g.own s = .slot b s → g.use s ≠ .limbo → SameHeader h.mem m' s := by
    rintro b s hs hu a ⟨h₁, h₂⟩
    have ho := hl.slot_head hs h₁ (by omega)
    refine hsame a fun hsc => ?_
    cases hsc with
    | limbo ho' hu' => rw [ho] at ho'; cases ho'; exact hu hu'
    | data ho' _ hs' => rw [ho] at ho'; cases ho'; omega
    | huge ho' => rw [ho] at ho'; cases ho'
  have hlive : ∀ B ∈ live, SameHeader h.mem m' (B.ptr - headerSize) := fun B hB =>
    (hc.live B hB).sameHeader hB hl hm
  have hpend : ∀ t p, p ∈ g.pending t → SameHeader h.mem m' (p - headerSize) ∧
      link m' p = link h.mem p := by
    intro t p hp
    obtain ⟨b, c, s, -, hblock, hu⟩ := hc.pendingBlock t p hp
    have hge := hblock.slot_le
    constructor
    · rintro a ⟨h₁, h₂⟩
      exact hsame a (hblock.not_scratch hl (.inr hu) h₁ (by simp only [headerSize] at *; omega))
    · refine readLE_congr fun a h₁ h₂ => hsame a fun hsc => ?_
      have ho := hblock.head_own hl (a := a) (by omega) (by simp only [headerSize]; omega)
      cases hsc with
      | limbo ho' hu' | data ho' hu' => rw [ho] at ho'; cases ho'; rw [hu] at hu'; cases hu'
      | huge ho' => rw [ho] at ho'; cases ho'
  refine hi.setMem (fun a ha => hsame a fun hs => hs.not_blank ha) (fun b s hs => ?_)
    (fun b s hs => ?_) hpend hlive
  · by_cases hu : g.use s = .limbo
    · exact hclean b s hs hu
    · exact (hslot b s hs hu).isHuge.trans (hc.clean b s hs)
  · obtain ⟨ho, hu, -⟩ := hc.freeSlot b s hs
    exact hslot b s ho (by simp [hu])

/-- Scratch writes that spare the last header byte of every slot in limbo keep the invariant. -/
theorem Inv.write (hi : Inv P g live h) (hm : ∀ a, m' a ≠ h.mem a → Scratch g live a)
    (hlast : ∀ b s, g.own s = .slot b s → g.use s = .limbo → m' (s + 15) = h.mem (s + 15)) :
    Inv P g live (h.setMem m') := by
  refine hi.scratch hm fun b s ho hu => ?_
  rw [HugeHeader.isHuge, HugeHeader.controlByte, hlast b s ho hu]
  exact hi.contents.clean b s ho

/-- Writes to bytes that no live block held before. -/
theorem Grows.setMem_of_new {g₁ : Ghost} {h₁ : Heap} (hg : Grows x g h g₁ h₁)
    (hm : ∀ a p, m' a ≠ h₁.mem a → ¬ Held g a p) : Grows x g h g₁ (h₁.setMem m') where
  reg := hg.reg
  slot := hg.slot
  object := hg.object
  held a p ha hx := by
    by_contra hne
    refine hm a p (fun he => hne (he.trans ?_)) ha
    exact hg.held a p ha hx
  use := hg.use
  huge := hg.huge
  served := hg.served
  thread := hg.thread
  manager := hg.manager

theorem Grows.setMem (hm : ∀ a p, m' a ≠ h.mem a → Held g a p → x p) :
    Grows x g h g (h.setMem m') where
  reg _ _ hb := hb
  slot _ _ _ ha := ha
  object _ ha := ha
  held a p ha hx := by
    by_contra hne
    exact hx (hm a p hne ha)
  use _ _ hs _ := hs
  huge _ _ ha _ := ha
  served := List.suffix_rfl
  thread _ _ := rfl
  manager _ m hm := ⟨m, hm⟩

/-! ## Uses -/

namespace Ghost

/-- The slot `s` is used for `u`. -/
@[simps -fullyApplied] def setUse (g : Ghost) (s : ℕ) (u : Use) : Ghost :=
  { g with use := Function.update g.use s u }

@[simps -fullyApplied] def setFree (g : Ghost) (b : ℕ) (l : List ℕ) : Ghost :=
  { g with free := Function.update g.free b l }

@[simps -fullyApplied] def setPending (g : Ghost) (t : ℕ) (l : List ℕ) : Ghost :=
  { g with pending := Function.update g.pending t l }

end Ghost

theorem History.congr {g' : Ghost} {h' : Heap} (hh : History P g live h) (hown : g'.own = g.own)
    (hreg : g'.reg = g.reg) (huse : g'.use = g.use) (hserved : h'.served = h.served)
    (hmem : h'.mem = h.mem) : History P g' live h' where
  origin := by rw [hown, hreg, hserved]; exact hh.origin
  isolated := by rw [hserved]; exact hh.isolated
  logged B hB := by
    obtain ⟨e, he, hlog⟩ := hh.logged B hB
    refine ⟨e, by rw [Heap.newest, hserved]; exact he, ?_⟩
    cases hlog with
    | pool ho hr hs hu hhead =>
      exact .pool ho (by rw [hreg]; exact hr) (by rw [hown]; exact hs) (by rw [huse]; exact hu)
        (by rw [hown]; exact hhead)
    | huge ho hr hs hhead =>
      exact .huge ho (by rw [hmem]; exact hr) (by rw [hown]; exact hs) (by rw [hown]; exact hhead)
  kept := by rw [hown, hreg, huse]; exact hh.kept

section ChangeOfUse

variable {s : ℕ} {u : Use}

theorem Contents.used_setUse (hc : Contents P g live h) {b : ℕ} (hs : g.own s = .slot b s)
    {s' : ℕ} (hs' : (g.setUse s u).use s' ≠ .limbo) : ∃ b, g.own s' = .slot b s' := by
  by_cases hne : s' = s
  · exact ⟨b, hne ▸ hs⟩
  · exact hc.used s' (by simpa [hne] using hs')

theorem Contents.freeSlot_setUse (hc : Contents P g live h) (hs : g.use s ≠ .free) {b s' : ℕ}
    (hs' : s' ∈ g.free b) : g.own s' = .slot b s' ∧ (g.setUse s u).use s' = .free ∧
      RegularHeader.isAllocation h.mem s' = false := by
  obtain ⟨ho, hu, ha⟩ := hc.freeSlot b s' hs'
  have hne : s' ≠ s := fun he => hs (he ▸ hu)
  exact ⟨ho, by simpa [hne] using hu, ha⟩

theorem Contents.pendingBlock_setUse (hc : Contents P g live h) (hs : ∀ p, g.use s ≠ .pending p)
    {t p : ℕ} (hp : p ∈ g.pending t) : ∃ b c s', c.thread = t ∧
      SlotBlock P g.own g.reg h.mem b c s' p ∧ (g.setUse s u).use s' = .pending p := by
  obtain ⟨b, c, s', ht, hblock, hu⟩ := hc.pendingBlock t p hp
  have hne : s' ≠ s := fun he => hs p (he ▸ hu)
  exact ⟨b, c, s', ht, hblock, by simpa [hne] using hu⟩

theorem Contents.live_setUse (hc : Contents P g live h) (hs : ∀ B ∈ live, g.use s ≠ .live B.ptr)
    {B : Block} (hB : B ∈ live) : LiveBlock P g.own g.reg (g.setUse s u).use h.mem B := by
  cases hc.live B hB with
  | @slot b s' c h =>
    have hne : s' ≠ s := fun he => hs B hB (he ▸ h.use)
    exact .slot ⟨h.block, by simpa [hne] using h.use, h.count_le, h.limit_le⟩
  | huge h => exact .huge h

theorem History.setUse (hh : History P g live h) (hs : ∀ B ∈ live, g.use s ≠ .live B.ptr)
    (hu : (u = .limbo ∨ ∃ p, u = .live p) ∨
      ∀ b c, g.own s = .slot b s → g.reg b = some c → ¬ P.kept c) :
    History P (g.setUse s u) live h where
  origin := hh.origin
  isolated := hh.isolated
  logged B hB := by
    obtain ⟨e, he, hlog⟩ := hh.logged B hB
    refine ⟨e, he, ?_⟩
    cases hlog with
    | pool ho hr hown huse hhead =>
      have hne : e.range.base ≠ s := fun heq => hs B hB (heq ▸ huse)
      exact .pool ho hr hown (by simpa [hne] using huse) hhead
    | huge ho hr hown hhead => exact .huge ho hr hown hhead
  kept b s' c ho hr hk := by
    by_cases hne : s' = s
    · subst hne
      rcases hu with hu | hu
      · simpa using hu
      · exact absurd hk (hu b c ho hr)
    · simpa [hne] using hh.kept b s' c ho hr hk

end ChangeOfUse

/-- A slot that no list and no live block uses. -/
structure Idle (g : Ghost) (live : List Block) (s : ℕ) : Prop where
  notFree : g.use s ≠ .free
  notPending : ∀ p, g.use s ≠ .pending p
  notLive : ∀ B ∈ live, g.use s ≠ .live B.ptr

theorem Idle.of_limbo {s : ℕ} (hs : g.use s = .limbo) : Idle g live s :=
  ⟨by simp [hs], by simp [hs], by simp [hs]⟩

/-- The use of an idle slot may change to limbo or to a live pointer. -/
theorem Inv.setUse (hi : Inv P g live h) {b s : ℕ} {u : Use} (ho : g.own s = .slot b s)
    (hs : Idle g live s) (hu : u = .limbo ∨ ∃ p, u = .live p) : Inv P (g.setUse s u) live h := by
  have hc := hi.contents
  refine ⟨hi.layout, ?_, hi.history.setUse hs.notLive (.inl hu)⟩
  exact ⟨hc.zero, hc.clean, fun _ => hc.used_setUse ho, hc.freeChain,
    fun _ _ hs' => hc.freeSlot_setUse hs.notFree hs', hc.freeNodup, hc.pendingChain, fun _ _ hp => hc.pendingBlock_setUse hs.notPending hp,
    hc.pendingNodup, hc.pendingUnborn, hc.liveNodup, fun _ hB => hc.live_setUse hs.notLive hB⟩

theorem Grows.setUse {s : ℕ} {u : Use} (hs : ∀ p, g.use s = .live p → u = .live p ∨ x p) :
    Grows x g h (g.setUse s u) h where
  reg _ _ hb := hb
  slot _ _ _ ha := ha
  object _ ha := ha
  held _ _ _ _ := rfl
  use s' p hp hx := by
    by_cases hne : s' = s
    · subst hne
      rcases hs p hp with hu | hu
      · simpa using hu
      · exact absurd hu hx
    · simpa [hne] using hp
  huge _ _ ha _ := ha
  served := List.suffix_rfl
  thread _ _ := rfl
  manager _ m hm := ⟨m, hm⟩

/-- The list of live blocks may be replaced by one that describes the same pointers. -/
theorem Inv.setLive {live' : List Block} (hi : Inv P g live h)
    (hlive : ∀ B ∈ live', LiveBlock P g.own g.reg g.use h.mem B)
    (hsub : ∀ B ∈ live', ∃ B' ∈ live, B'.ptr = B.ptr) (hnodup : (live'.map Block.ptr).Nodup) :
    Inv P g live' h := by
  have hc := hi.contents
  have hh := hi.history
  refine ⟨hi.layout, ⟨hc.zero, hc.clean, hc.used, hc.freeChain, hc.freeSlot, hc.freeNodup,
    hc.pendingChain, hc.pendingBlock, hc.pendingNodup, hc.pendingUnborn, hnodup, hlive⟩,
    ⟨hh.origin, hh.isolated, ?_, hh.kept⟩⟩
  intro B hB
  obtain ⟨B', hB', hptr⟩ := hsub B hB
  obtain ⟨e, he, hlog⟩ := hh.logged B' hB'
  refine ⟨e, hptr ▸ he, ?_⟩
  cases hlog with
  | pool ho hr hown huse hhead =>
    exact .pool ho hr hown (by rw [huse, hptr]) (by rw [← hptr]; exact hhead)
  | huge ho hr hown hhead =>
    rw [hptr] at hr hown hhead
    exact .huge ho hr hown hhead

/-! ## The free list -/

/-- The head of the free list leaves it. -/
theorem Inv.popFree (hi : Inv P g live h) {b : ℕ} {B : SingleBIBOP} (hB : h.bibops b = some B)
    (hne : B.freeList ≠ 0) :
    ∃ l, g.free b = B.freeList :: l ∧
      Inv P ((g.setFree b l).setUse B.freeList .limbo) live
        (h.setBIBOP b { B with freeList := link h.mem B.freeList }) := by
  have hc := hi.contents
  obtain ⟨l, hl, hchain⟩ := (hc.freeChain b B hB).pop hne
  have hnodup := hc.freeNodup b
  rw [hl] at hnodup
  obtain ⟨hnot, hnodup⟩ := List.nodup_cons.mp hnodup
  obtain ⟨ho, hu, -⟩ := hc.freeSlot b B.freeList (by simp [hl])
  refine ⟨l, hl, hi.layout.setFreeList hB, ?_,
    (hi.history.setUse (by simp [hu]) (.inl (.inl rfl))).congr rfl rfl rfl rfl rfl⟩
  refine ⟨hc.zero, hc.clean, fun _ => hc.used_setUse ho, ?_, ?_, ?_, hc.pendingChain,
    fun _ _ hp => hc.pendingBlock_setUse (by simp [hu]) hp, hc.pendingNodup,
    hc.pendingUnborn, hc.liveNodup, fun _ hB => hc.live_setUse (by simp [hu]) hB⟩
  · intro b' B' hB'
    by_cases hbb : b' = b
    · subst hbb
      obtain rfl : { B with freeList := link h.mem B.freeList } = B' := by simpa using hB'
      simpa using hchain
    · simpa [hbb] using hc.freeChain b' B' (by simpa [hbb] using hB')
  · intro b' s' hs'
    have hs'' : s' ∈ g.free b' ∧ s' ≠ B.freeList := by
      by_cases hbb : b' = b
      · subst hbb
        have hmem : s' ∈ l := by simpa using hs'
        exact ⟨by simp [hl, hmem], fun he => hnot (he ▸ hmem)⟩
      · have hmem : s' ∈ g.free b' := by simpa [hbb] using hs'
        refine ⟨hmem, fun he => ?_⟩
        have ho' := (hc.freeSlot b' s' hmem).1
        rw [he, ho] at ho'
        cases ho'
        exact hbb rfl
    obtain ⟨ho', hu', ha'⟩ := hc.freeSlot b' s' hs''.1
    exact ⟨ho', by simpa [hs''.2] using hu', ha'⟩
  · intro b'
    by_cases hbb : b' = b
    · subst hbb
      simpa using hnodup
    · simpa [hbb] using hc.freeNodup b'

/-- A slot of the free list belongs to a compartment that may be released. -/
theorem Inv.not_kept_of_free (hi : Inv P g live h) {b s : ℕ} {c : Compartment}
    (hs : s ∈ g.free b) (hc : g.reg b = some c) : ¬ P.kept c := by
  intro hk
  obtain ⟨ho, hu, -⟩ := hi.contents.freeSlot b s hs
  rcases hi.history.kept b s c ho hc hk with hu' | ⟨p, hu'⟩ <;> rw [hu] at hu' <;> cases hu'

theorem Layout.slot_pos (hl : Layout own reg h) {b s : ℕ} (ho : own s = .slot b s) : s ≠ 0 := by
  rintro rfl
  obtain ⟨c, hr, -⟩ := hl.slotRange ho
  have := hr.page
  simp [pageSize] at this

/-- A slot in limbo, linked to the head and with its allocation bit clear, enters the free
list. -/
theorem Inv.pushFree (hi : Inv P g live h) {b s : ℕ} {B : SingleBIBOP} {c : Compartment}
    (hB : h.bibops b = some B) (ho : g.own s = .slot b s) (hu : g.use s = .limbo)
    (hr : g.reg b = some c) (hk : ¬ P.kept c) (hlink : link h.mem s = B.freeList)
    (ha : RegularHeader.isAllocation h.mem s = false) :
    Inv P ((g.setFree b (s :: g.free b)).setUse s .free) live
      (h.setBIBOP b { B with freeList := s }) := by
  have hc := hi.contents
  have hkept : ∀ b' c', g.own s = .slot b' s → g.reg b' = some c' → ¬ P.kept c' := by
    intro b' c' ho' hr'
    rw [ho] at ho'
    cases ho'
    rw [hr] at hr'
    cases hr'
    exact hk
  refine ⟨hi.layout.setFreeList hB, ?_,
    (hi.history.setUse (by simp [hu]) (.inr hkept)).congr rfl rfl rfl rfl rfl⟩
  refine ⟨hc.zero, hc.clean, fun _ => hc.used_setUse ho, ?_, ?_, ?_, hc.pendingChain,
    fun _ _ hp => hc.pendingBlock_setUse (by simp [hu]) hp, hc.pendingNodup,
    hc.pendingUnborn, hc.liveNodup, fun _ hB => hc.live_setUse (by simp [hu]) hB⟩
  · intro b' B' hB'
    by_cases hbb : b' = b
    · subst hbb
      obtain rfl : { B with freeList := s } = B' := by simpa using hB'
      have := (hc.freeChain b' B hB).push (hi.layout.slot_pos ho) hlink fun _ _ => rfl
      simpa using this
    · simpa [hbb] using hc.freeChain b' B' (by simpa [hbb] using hB')
  · intro b' s' hs'
    by_cases hne : s' = s
    · subst hne
      have hbb : b' = b := by
        by_contra hbb
        have := (hc.freeSlot b' s' (by simpa [hbb] using hs')).1
        rw [ho] at this
        cases this
        exact hbb rfl
      subst hbb
      exact ⟨ho, by simp, ha⟩
    · have hs'' : s' ∈ g.free b' := by
        by_cases hbb : b' = b
        · subst hbb
          simpa [hne] using hs'
        · simpa [hbb] using hs'
      exact hc.freeSlot b' s' hs'' |>.imp id fun ⟨hu', ha'⟩ => ⟨by simpa [hne] using hu', ha'⟩
  · intro b'
    by_cases hbb : b' = b
    · subst hbb
      have hnot : s ∉ g.free b' := fun hs => by
        have := (hc.freeSlot b' s hs).2.1
        rw [hu] at this
        cases this
      simpa using ⟨hnot, hc.freeNodup b'⟩
    · simpa [hbb] using hc.freeNodup b'

/-! ## The remote free list -/

theorem ManagerOk.setFreeList {t y : ℕ} {m : MemoryManager} (hm : ManagerOk own reg t m) :
    ManagerOk own reg t { m with freeList := y } :=
  ⟨hm.threadId, hm.bound, hm.dataPool, hm.dataAligned, hm.metaPool, hm.globalBIBOP, hm.table,
    hm.blank⟩

/-- A block on a remote free list determines its slot and its thread. -/
theorem Contents.pending_unique (hc : Contents P g live h) (hl : Layout g.own g.reg h)
    {t b s p : ℕ} {c : Compartment} (hp : p ∈ g.pending t)
    (hblock : SlotBlock P g.own g.reg h.mem b c s p) : c.thread = t ∧ g.use s = .pending p := by
  obtain ⟨b', c', s', ht, hblock', hu⟩ := hc.pendingBlock t p hp
  have h₁ := hblock.head_own hl (a := p) (by omega) (by simp [headerSize])
  have h₂ := hblock'.head_own hl (a := p) (by omega) (by simp [headerSize])
  rw [h₁] at h₂
  cases h₂
  have h₃ := hblock.reg
  rw [hblock'.reg] at h₃
  cases h₃
  exact ⟨ht, hu⟩

/-- The head of a remote free list leaves it. -/
theorem Inv.popPending (hi : Inv P g live h) {t : ℕ} {m : MemoryManager}
    (hm : h.globalMemoryManager t = some m) (hne : m.freeList ≠ 0) :
    ∃ l b c s, g.pending t = m.freeList :: l ∧ c.thread = t ∧
      SlotBlock P g.own g.reg h.mem b c s m.freeList ∧ g.use s = .pending m.freeList ∧
      Inv P ((g.setPending t l).setUse s .limbo) live
        (h.setManager t { m with freeList := link h.mem m.freeList }) := by
  have hc := hi.contents
  obtain ⟨l, hl, hchain⟩ := (hc.pendingChain t m hm).pop hne
  have hnodup := hc.pendingNodup t
  rw [hl] at hnodup
  obtain ⟨hnot, hnodup⟩ := List.nodup_cons.mp hnodup
  obtain ⟨b, c, s, ht, hblock, hu⟩ := hc.pendingBlock t m.freeList (by simp [hl])
  refine ⟨l, b, c, s, hl, ht, hblock, hu,
    hi.layout.setManager hm (hi.layout.manager t m hm).setFreeList, ?_,
    (hi.history.setUse (by simp [hu]) (.inl (.inl rfl))).congr rfl rfl rfl rfl rfl⟩
  refine ⟨hc.zero, hc.clean, fun _ => hc.used_setUse hblock.own, hc.freeChain,
    fun _ _ hs' => hc.freeSlot_setUse (by simp [hu]) hs', hc.freeNodup, ?_, ?_, ?_, ?_, hc.liveNodup, fun _ hB => hc.live_setUse (by simp [hu]) hB⟩
  · intro t' m' hm'
    by_cases htt : t' = t
    · subst htt
      obtain rfl : { m with freeList := link h.mem m.freeList } = m' := by simpa using hm'
      simpa using hchain
    · simpa [htt] using hc.pendingChain t' m' (by simpa [htt] using hm')
  · intro t' p hp
    have hp' : p ∈ g.pending t' ∧ p ≠ m.freeList := by
      by_cases htt : t' = t
      · subst htt
        have hmem : p ∈ l := by simpa using hp
        exact ⟨by simp [hl, hmem], fun he => hnot (he ▸ hmem)⟩
      · have hmem : p ∈ g.pending t' := by simpa [htt] using hp
        refine ⟨hmem, fun he => ?_⟩
        rw [he] at hmem
        exact htt ((hc.pending_unique hi.layout hmem hblock).1.symm.trans ht)
    obtain ⟨b', c', s', ht', hblock', hu'⟩ := hc.pendingBlock t' p hp'.1
    have hne' : s' ≠ s := fun he => by
      rw [he, hu] at hu'
      exact hp'.2 (Use.pending.inj hu').symm
    exact ⟨b', c', s', ht', hblock', by simpa [hne'] using hu'⟩
  · intro t'
    by_cases htt : t' = t
    · subst htt
      simpa using hnodup
    · simpa [htt] using hc.pendingNodup t'
  · intro t' ht'
    by_cases htt : t' = t
    · subst htt
      simp at ht'
    · simpa [htt] using hc.pendingUnborn t' (by simpa [htt] using ht')

/-- A block whose slot is in limbo, linked to the head, enters the remote free list of its
owner. -/
theorem Inv.pushPending (hi : Inv P g live h) {t b s p : ℕ} {c : Compartment} {m : MemoryManager}
    (hm : h.globalMemoryManager t = some m) (hblock : SlotBlock P g.own g.reg h.mem b c s p)
    (ht : c.thread = t) (hu : g.use s = .limbo) (hk : ¬ P.kept c)
    (hlink : link h.mem p = m.freeList) :
    Inv P ((g.setPending t (p :: g.pending t)).setUse s (.pending p)) live
      (h.setManager t { m with freeList := p }) := by
  have hc := hi.contents
  have hnot : ∀ t', p ∉ g.pending t' := fun t' hp => by
    have := (hc.pending_unique hi.layout hp hblock).2
    rw [hu] at this
    cases this
  have hpos : p ≠ 0 := fun he => by
    have := hblock.slot_le
    simp [he, headerSize] at this
  have hkept : ∀ b' c', g.own s = .slot b' s → g.reg b' = some c' → ¬ P.kept c' := by
    intro b' c' ho' hr'
    rw [hblock.own] at ho'
    cases ho'
    rw [hblock.reg] at hr'
    cases hr'
    exact hk
  refine ⟨hi.layout.setManager hm (hi.layout.manager t m hm).setFreeList, ?_,
    (hi.history.setUse (by simp [hu]) (.inr hkept)).congr rfl rfl rfl rfl rfl⟩
  refine ⟨hc.zero, hc.clean, fun _ => hc.used_setUse hblock.own, hc.freeChain,
    fun _ _ hs' => hc.freeSlot_setUse (by simp [hu]) hs', hc.freeNodup, ?_, ?_, ?_, ?_, hc.liveNodup, fun _ hB => hc.live_setUse (by simp [hu]) hB⟩
  · intro t' m' hm'
    by_cases htt : t' = t
    · subst htt
      obtain rfl : { m with freeList := p } = m' := by simpa using hm'
      have := (hc.pendingChain t' m hm).push hpos hlink fun _ _ => rfl
      simpa using this
    · simpa [htt] using hc.pendingChain t' m' (by simpa [htt] using hm')
  · intro t' p' hp'
    by_cases hpp : p' = p
    · subst hpp
      have htt : t' = t := by
        by_contra htt
        exact hnot t' (by simpa [htt] using hp')
      exact ⟨b, c, s, by rw [ht, htt], hblock, by simp⟩
    · have hp'' : p' ∈ g.pending t' := by
        by_cases htt : t' = t
        · subst htt
          simpa [hpp] using hp'
        · simpa [htt] using hp'
      exact hc.pendingBlock_setUse (by simp [hu]) hp''
  · intro t'
    by_cases htt : t' = t
    · subst htt
      simpa using ⟨hnot t', hc.pendingNodup t'⟩
    · simpa [htt] using hc.pendingNodup t'
  · intro t' ht'
    by_cases htt : t' = t
    · subst htt
      simp at ht'
    · simpa [htt] using hc.pendingUnborn t' (by simpa [htt] using ht')

/-! ## Live blocks -/

/-- The header of a live block leads to its slot. -/
theorem LiveBlock.use_of_own {m : ByteMemory} {B : Block} (hB : LiveBlock P own reg use m B)
    (hl : Layout own reg h) {b s a : ℕ} (ho : own a = .slot b s) (h₁ : B.ptr - headerSize ≤ a)
    (h₂ : a < B.ptr) : use s = .live B.ptr := by
  cases hB with
  | slot hB =>
    have := hB.block.head_own hl h₁ (by omega)
    rw [ho] at this
    cases this
    exact hB.use
  | huge hB =>
    have hge := hB.ptr_ge
    have := hB.own a (by simp only [headerSize, pageSize] at *; omega) (by omega)
    rw [ho] at this
    cases this

/-- The header of a live block belongs to it. -/
theorem LiveBlock.head_held {m : ByteMemory} {B : Block}
    (hB : LiveBlock P g.own g.reg g.use m B) (hl : Layout g.own g.reg h) :
    Held g (B.ptr - headerSize) B.ptr := by
  cases hB with
  | slot hB => exact .slot (hB.block.head_own hl le_rfl (by simp only [headerSize]; omega)) hB.use
  | huge hB =>
    have hge := hB.ptr_ge
    refine .huge (hB.own _ ?_ ?_) <;> simp only [headerSize, pageSize] at * <;> omega

/-- A record of bytes that belong to no live block. -/
theorem Inv.addServed (hi : Inv P g live h) {e : Served}
    (hr : ∀ c, e.origin = .pool c → SlotRecord g.own g.reg e c)
    (hrespects : ∀ e' ∈ h.served, Respects P e e')
    (hnew : ∀ a, e.range.Contains a → ∀ B ∈ live, ¬ Held g a B.ptr) :
    Inv P g live (h.addServed e) := by
  have hc := hi.contents
  have hh := hi.history
  refine ⟨hi.layout.congr rfl rfl rfl rfl rfl rfl, ⟨hc.zero, hc.clean, hc.used, hc.freeChain,
    hc.freeSlot, hc.freeNodup, hc.pendingChain, hc.pendingBlock, hc.pendingNodup,
    hc.pendingUnborn, hc.liveNodup, hc.live⟩, ?_, ?_, ?_, hh.kept⟩
  · intro e' he' c ho
    rcases List.mem_cons.mp he' with rfl | he'
    · exact hr c ho
    · exact hh.origin e' he' c ho
  · exact List.pairwise_cons.mpr ⟨hrespects, hh.isolated⟩
  · intro B hB
    obtain ⟨e', he', hlog⟩ := hh.logged B hB
    have hout : ¬ e.range.Contains (B.ptr - headerSize) := fun hin =>
      hnew _ hin B hB ((hc.live B hB).head_held hi.layout)
    refine ⟨e', (List.find?_cons_of_neg (by simpa using hout)).trans he', ?_⟩
    cases hlog with
    | pool ho hr hown huse hhead => exact .pool ho hr hown huse hhead
    | huge ho hr hown hhead => exact .huge ho hr hown hhead

/-- No slot was served at this address. -/
def Unserved (h : Heap) (s : ℕ) : Prop :=
  ∀ e ∈ h.served, ∀ c, e.origin = .pool c → e.range.base ≠ s

/-- A slot that may be released or was never served respects all records. -/
theorem Inv.respects_slot (hi : Inv P g live h) {b s p : ℕ} {c : Compartment}
    (hs : SlotRange g.own g.reg b c s)
    (hk : ¬ P.kept c ∨ Unserved h s) :
    ∀ e ∈ h.served, Respects P ⟨.pool c, ⟨s, slotSize c.sizeClass⟩, p⟩ e := by
  rintro e he c' ho ⟨a, ⟨h₁, h₂⟩, h₃, h₄⟩
  obtain ⟨b', hr', hs', hlen⟩ := hi.history.origin e he c' ho
  have hrange := hi.layout.slotRange_of_reg hs' hr'
  have hown := hrange.own a h₃ (by rw [← hlen]; exact h₄)
  rw [hs.own a h₁ h₂] at hown
  cases hown
  have := hs.reg
  rw [hr'] at this
  cases this
  refine ⟨rfl, ?_⟩
  rcases hk with hk | hk
  · exact hk
  · exact absurd rfl (hk e he _ ho)

/-- The last record over one byte of a slot is the last one over each of its bytes. -/
theorem Inv.newest_slot (hi : Inv P g live h) {a a' : ℕ} {c : Compartment} {e : Served}
    (he : h.newest a = some e) (hc : e.origin = .pool c) (hin : e.range.Contains a') :
    h.newest a' = some e := by
  obtain ⟨hp, before, after, hserved, hbefore⟩ := List.find?_eq_some_iff_append.mp he
  refine List.find?_eq_some_iff_append.mpr
    ⟨decide_eq_true hin, before, after, hserved, fun e' he' => ?_⟩
  -- a later record that holds the one byte is of the same slot, so it holds the other
  have hno : ¬ e'.range.Contains a := by simpa using hbefore e' he'
  have hrespects : Respects P e' e := by
    have hpair := hi.history.isolated
    rw [hserved, List.pairwise_append] at hpair
    exact hpair.2.2 e' he' e List.mem_cons_self
  have hmem : e' ∈ h.served := by
    rw [hserved]
    exact List.mem_append_left _ he'
  rw [Bool.not_eq_true', decide_eq_false_iff_not]
  intro hin'
  obtain ⟨horigin, -⟩ := hrespects c hc ⟨a', hin', hin⟩
  obtain ⟨b₁, hr₁, hs₁, hlen₁⟩ := hi.history.origin e' hmem c horigin
  obtain ⟨b₂, hr₂, hs₂, hlen₂⟩ := hi.history.origin e (Heap.newest_mem he) c hc
  have hown : ∀ {y}, e'.range.Contains y → g.own y = .slot b₁ e'.range.base := fun hy =>
    (hi.layout.slotRange_of_reg hs₁ hr₁).own _ hy.1 (by rw [← hlen₁]; exact hy.2)
  have hown' : ∀ {y}, e.range.Contains y → g.own y = .slot b₂ e.range.base := fun hy =>
    (hi.layout.slotRange_of_reg hs₂ hr₂).own _ hy.1 (by rw [← hlen₂]; exact hy.2)
  have hbase : e'.range.base = e.range.base := by
    have h₁ := hown hin'
    rw [hown' hin] at h₁
    exact (Owner.slot.inj h₁).2.symm
  refine hno ⟨hbase ▸ (Heap.newest_contains he).1, ?_⟩
  rw [hlen₁, hbase, ← hlen₂]
  exact (Heap.newest_contains he).2

/-- A recorded slot in limbo becomes the slot of a live block. -/
theorem Inv.addLive (hi : Inv P g live h) {b s : ℕ} {c : Compartment} {B : Block}
    (hu : g.use s = .limbo) (hblock : SlotBlock P g.own g.reg h.mem b c s B.ptr)
    (hcount : B.count ≤ minBagSize <<< c.sizeClass)
    (hlimit : B.ptr + B.limit ≤ s + slotSize c.sizeClass)
    (hserved : ∃ e, h.newest (B.ptr - headerSize) = some e ∧ e.origin = .pool c ∧
      e.range.base = s) :
    Inv P (g.setUse s (.live B.ptr)) (B :: live) h := by
  have hpos : B.ptr - headerSize < B.ptr := by
    have := hblock.slot_le
    simp only [headerSize] at *
    omega
  have hfresh : ∀ B' ∈ live, B'.ptr ≠ B.ptr := fun B' hB' he => by
    have ho := hblock.head_own hi.layout le_rfl (by omega)
    have := (hi.contents.live B' hB').use_of_own hi.layout ho (by rw [he]) (by rw [he]; exact hpos)
    rw [hu] at this
    cases this
  have hi' := hi.setUse (u := .live B.ptr) hblock.own (.of_limbo hu) (.inr ⟨_, rfl⟩)
  have hc := hi'.contents
  have hh := hi'.history
  refine ⟨hi'.layout, ⟨hc.zero, hc.clean, hc.used, hc.freeChain, hc.freeSlot, hc.freeNodup,
    hc.pendingChain, hc.pendingBlock, hc.pendingNodup, hc.pendingUnborn, ?_, ?_⟩,
    hh.origin, hh.isolated, ?_, hh.kept⟩
  · refine List.nodup_cons.mpr ⟨fun hmem => ?_, hc.liveNodup⟩
    obtain ⟨B', hB', he⟩ := List.mem_map.mp hmem
    exact hfresh B' hB' he
  · intro B' hB'
    rcases List.mem_cons.mp hB' with rfl | hB'
    · exact .slot ⟨hblock, by simp, hcount, hlimit⟩
    · exact hc.live B' hB'
  · intro B' hB'
    rcases List.mem_cons.mp hB' with rfl | hB'
    · obtain ⟨e, he, horigin, rfl⟩ := hserved
      exact ⟨e, he, .pool horigin hblock.reg hblock.own (by simp)
        (hblock.head_own hi.layout le_rfl (by omega))⟩
    · exact hh.logged B' hB'

/-- A recorded mapping that is not live becomes that of a live block. -/
theorem Inv.addHuge (hi : Inv P g live h) {B : Block} (hB : HugeLive g.own h.mem B)
    (hfresh : ∀ B' ∈ live, B'.ptr ≠ B.ptr)
    (hserved : ∃ e, h.newest (B.ptr - headerSize) = some e ∧ e.origin = .huge ∧
      e.range = ⟨B.ptr - pageSize, HugeHeader.size h.mem (B.ptr - headerSize) + pageSize⟩) :
    Inv P g (B :: live) h := by
  have hc := hi.contents
  have hh := hi.history
  have hge := hB.ptr_ge
  refine ⟨hi.layout, ⟨hc.zero, hc.clean, hc.used, hc.freeChain, hc.freeSlot, hc.freeNodup,
    hc.pendingChain, hc.pendingBlock, hc.pendingNodup, hc.pendingUnborn, ?_, ?_⟩,
    hh.origin, hh.isolated, ?_, hh.kept⟩
  · refine List.nodup_cons.mpr ⟨fun hmem => ?_, hc.liveNodup⟩
    obtain ⟨B', hB', he⟩ := List.mem_map.mp hmem
    exact hfresh B' hB' he
  · intro B' hB'
    rcases List.mem_cons.mp hB' with rfl | hB'
    · exact .huge hB
    · exact hc.live B' hB'
  · intro B' hB'
    rcases List.mem_cons.mp hB' with rfl | hB'
    · obtain ⟨e, he, horigin, hrange⟩ := hserved
      refine ⟨e, he, .huge horigin hrange (hB.own _ le_rfl ?_) (hB.own _ ?_ ?_)⟩ <;>
        simp only [headerSize, pageSize] at * <;> omega
    · exact hh.logged B' hB'

open Config in
/-- A live block in a slot leaves the live blocks; its slot goes to limbo. -/
theorem Inv.dropSlot (hi : Inv P g live h) {b s : ℕ} {c : Compartment} {B : Block}
    (hB : SlotLive P g.own g.reg g.use h.mem b c s B) :
    Inv P (g.setUse s .limbo) (dropLive live B.ptr) h := by
  have hmem : ∀ B' ∈ dropLive live B.ptr, B' ∈ live ∧ B'.ptr ≠ B.ptr := fun B' hB' => by
    simpa [dropLive] using hB'
  have hi' : Inv P g (dropLive live B.ptr) h := by
    refine hi.setLive (fun B' hB' => hi.contents.live B' (hmem B' hB').1)
      (fun B' hB' => ⟨B', (hmem B' hB').1, rfl⟩) ?_
    exact hi.contents.liveNodup.sublist (List.filter_sublist.map _)
  refine hi'.setUse hB.block.own ⟨by simp [hB.use], by simp [hB.use], ?_⟩ (.inl rfl)
  intro B' hB' he
  rw [hB.use] at he
  exact (hmem B' hB').2 (Use.live.inj he).symm

/-! ## What the moves keep -/

/-- Moves that relabel no byte. -/
theorem Grows.of_same {g' : Ghost} {h' : Heap} (hown : g'.own = g.own) (hreg : g'.reg = g.reg)
    (huse : ∀ s p, g.use s = .live p → ¬ x p → g'.use s = .live p)
    (hmem : ∀ a p, Held g a p → ¬ x p → h'.mem a = h.mem a) (hserved : h.served <:+ h'.served)
    (htls : h'.tls = h.tls)
    (hman : ∀ t m, h.globalMemoryManager t = some m → ∃ m', h'.globalMemoryManager t = some m') :
    Grows x g h g' h' where
  reg b c hr := by rw [hreg]; exact hr
  slot a b s ho := by rw [hown]; exact ho
  object a ho := by rw [hown]; exact ho
  held := hmem
  use := huse
  huge a p ho _ := by rw [hown]; exact ho
  served := hserved
  thread _ _ := by rw [htls]
  manager := hman

theorem Heap.setManager_kept {h : Heap} {t : ℕ} {m₁ : MemoryManager} {t' : ℕ} {m : MemoryManager}
    (hm : h.globalMemoryManager t' = some m) :
    ∃ m', (h.setManager t m₁).globalMemoryManager t' = some m' := by
  by_cases htt : t' = t
  · exact ⟨m₁, by simp [htt]⟩
  · exact ⟨m, by simpa [htt] using hm⟩

theorem Ready.congr {h' : Heap} (hr : Ready h) (hb : h'.bibops = h.bibops) : Ready h' := by
  rw [Ready, hb]
  exact hr

theorem Ready.setBIBOP (hr : Ready h) {b : ℕ} {B : SingleBIBOP}
    (hB : B.bump ≤ B.base + B.capacity) : Ready (h.setBIBOP b B) := by
  intro b' B' hB'
  by_cases hbb : b' = b
  · subst hbb
    obtain rfl : B = B' := by simpa using hB'
    exact hB
  · exact hr b' B' (by simpa [hbb] using hB')

end Semalloc
