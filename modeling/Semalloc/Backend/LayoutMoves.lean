import Semalloc.Backend.SlotMoves

/-!
# Moves of the layout

Address ranges change owners in one way: all bytes of a range pass from one owner to another. A
new mapping passes from nobody to the allocator, which assigns it; a pool hands out a chunk; a
BIBOP carves a slot from its chunk; a huge block is unmapped. Objects of other owners do not
notice.

## Main definitions

* `relabel`: a range passes to an owner

## Main results

* `Layout.relabel`, `Contents.relabel`, `History.relabel`: what does not notice
* `Inv.mmap`, `Inv.assign`, `Inv.takePool`, `Inv.carve`, `Inv.munmap`: the moves
* `Inv.register`, `Inv.extend`, `Inv.setManager`: BIBOPs and managers
-/

set_option autoImplicit false

namespace Semalloc

open ByteMemory Region

variable {P : Promise} {g : Ghost} {live : List Block} {h h' : Heap} {own : ℕ → Owner}
  {reg : ℕ → Option Compartment} {x : ℕ → Prop} {r : Region} {o o₀ o₁ : Owner}

/-! ## Relabelling -/

/-- The bytes of `r` pass to `o`. -/
def relabel (own : ℕ → Owner) (r : Region) (o : Owner) : ℕ → Owner :=
  fun a => if r.Contains a then o else own a

@[simps -fullyApplied] def Ghost.relabel (g : Ghost) (r : Region) (o : Owner) : Ghost :=
  { g with own := Semalloc.relabel g.own r o }

theorem relabel_inside {a : ℕ} (ha : r.Contains a) : relabel own r o a = o := if_pos ha

theorem relabel_outside {a : ℕ} (ha : ¬ r.Contains a) : relabel own r o a = own a := if_neg ha

section Relabel

variable (hR : ∀ a, r.Contains a → own a = o₀)
include hR

/-- Bytes of other owners keep them. -/
theorem relabel_of_ne {a : ℕ} (ha : own a = o₁) (hne : o₁ ≠ o₀) : relabel own r o a = o₁ := by
  rw [relabel_outside fun hin => hne ((ha.symm.trans (hR a hin))), ha]

theorem not_contains_of_ne {a : ℕ} (ha : own a = o₁) (hne : o₁ ≠ o₀) : ¬ r.Contains a :=
  fun hin => hne (ha.symm.trans (hR a hin))

theorem PoolOk.relabel {p : MemoryPool} (hp : PoolOk own o₁ p)
    (hdis : o₁ = o₀ → ∀ a, p.bumpMemory ≤ a → a < p.boundaryMemory → ¬ r.Contains a) :
    PoolOk (relabel own r o) o₁ p where
  base_pos := hp.base_pos
  bump_le := hp.bump_le
  top := hp.top
  own a h₁ h₂ := by
    by_cases hne : o₁ = o₀
    · rw [relabel_outside (hdis hne a h₁ h₂)]
      exact hp.own a h₁ h₂
    · exact relabel_of_ne hR (hp.own a h₁ h₂) hne

theorem BIBOPOk.relabel {b : ℕ} {c : Compartment} {B : SingleBIBOP} (hB : BIBOPOk own b c B)
    (hmeta : o₀ ≠ .metadata)
    (hdis : o₀ = .spare b → ∀ a, B.bump ≤ a → a < B.base + B.capacity → ¬ r.Contains a) :
    BIBOPOk (relabel own r o) b c B where
  sizeClass := hB.sizeClass
  thread := hB.thread
  objectSize := hB.objectSize
  object := relabel_of_ne hR hB.object hmeta.symm
  bound := hB.bound
  aligned := hB.aligned
  base_pos := hB.base_pos
  base_le := hB.base_le
  top := hB.top
  chunk := hB.chunk
  spare a h₁ h₂ := by
    by_cases hne : o₀ = .spare b
    · rw [relabel_outside (hdis hne a h₁ h₂)]
      exact hB.spare a h₁ h₂
    · exact relabel_of_ne hR (hB.spare a h₁ h₂) (Ne.symm hne)

theorem SlotOk.relabel {b s : ℕ} {c : Compartment} {B : SingleBIBOP} (hs : SlotOk own b s c B)
    (hne : o₀ ≠ .slot b s) : SlotOk (relabel own r o) b s c B where
  aligned := hs.aligned
  own a h₁ h₂ := relabel_of_ne hR (hs.own a h₁ h₂) hne.symm
  chunk := hs.chunk

/-- No unused part of a pool of the manager meets the range. -/
def PoolsApart (r : Region) (o₀ : Owner) (t : ℕ) (m : MemoryManager) : Prop :=
  (o₀ = .dataPool t → ∀ a, (m.individualDataPool m.individualDatPoolBump).bumpMemory ≤ a →
      a < (m.individualDataPool m.individualDatPoolBump).boundaryMemory → ¬ r.Contains a) ∧
    (o₀ = .metaPool t → ∀ a, m.metadataPool.bumpMemory ≤ a →
      a < m.metadataPool.boundaryMemory → ¬ r.Contains a)

theorem ManagerOk.relabel {t : ℕ} {m : MemoryManager} (hm : ManagerOk own reg t m)
    (hdis : PoolsApart r o₀ t m) : ManagerOk (relabel own r o) reg t m where
  threadId := hm.threadId
  bound := hm.bound
  dataPool := hm.dataPool.relabel hR fun he => hdis.1 he.symm
  dataAligned := hm.dataAligned
  metaPool := hm.metaPool.relabel hR fun he => hdis.2 he.symm
  globalBIBOP := hm.globalBIBOP
  table := hm.table
  blank := hm.blank

/-- A range of bytes that are neither metadata nor slots passes to an owner other than a slot. -/
theorem Layout.relabel (hl : Layout own reg h) (hos : h'.os = h.os) (hbib : h'.bibops = h.bibops)
    (hman : h'.globalMemoryManager = h.globalMemoryManager) (hbump : h'.threadBump = h.threadBump)
    (htls : h'.tls = h.tls) (hmeta : o₀ ≠ .metadata) (hslot : ∀ b s, o₀ ≠ .slot b s)
    (hspare : ∀ b B, h.bibops b = some B → o₀ = .spare b →
      ∀ a, B.bump ≤ a → a < B.base + B.capacity → ¬ r.Contains a)
    (hpools : ∀ t m, h.globalMemoryManager t = some m → PoolsApart r o₀ t m)
    (hmapped : ∀ a, Semalloc.relabel own r o a ≠ .nobody → Mapped h'.maps a)
    (huser : ∀ a, Mapped h'.maps a → pageSize ≤ a ∧ a < 2 ^ 63)
    (ho : ∀ a b s, r.Contains a → o = .slot b s → s ≤ a ∧ ∃ c B, reg b = some c ∧
      h.bibops b = some B ∧ a < s + slotSize c.sizeClass ∧
      SlotOk (Semalloc.relabel own r o) b s c B ∧ ∃ m, h.globalMemoryManager c.thread = some m) :
    Layout (Semalloc.relabel own r o) reg h' where
  excluded := by rw [hos]; exact hl.excluded
  mapped := hmapped
  userSpace := huser
  bibop b c hr := by
    obtain ⟨B, hB, hok⟩ := hl.bibop b c hr
    exact ⟨B, by rw [hbib]; exact hB, hok.relabel hR hmeta (hspare b B hB)⟩
  known := by rw [hbib]; exact hl.known
  slot a b s ha := by
    rw [hbib, hman]
    by_cases hin : r.Contains a
    · rw [relabel_inside hin] at ha
      exact ho a b s hin ha
    · rw [relabel_outside hin] at ha
      obtain ⟨hsa, c, B, hr, hB, has, hok, hm⟩ := hl.slot a b s ha
      exact ⟨hsa, c, B, hr, hB, has, hok.relabel hR (hslot b s), hm⟩
  manager t m hm := by
    rw [hman] at hm
    exact (hl.manager t m hm).relabel hR (hpools t m hm)
  thread := by rw [htls, hman]; exact hl.thread
  unborn := by rw [hman, hbump]; exact hl.unborn

end Relabel

theorem SlotBlock.of_own {own' : ℕ → Owner} {reg' : ℕ → Option Compartment} {m : ByteMemory}
    {b s p : ℕ} {c : Compartment} (hp : SlotBlock P own reg m b c s p)
    (hown : own' s = .slot b s) (hreg : reg' b = some c) : SlotBlock P own' reg' m b c s p :=
  ⟨hreg, hown, hp.bibop, hp.threadId, hp.notHuge, hp.aligned, hp.slot_le, hp.le_slot, hp.kind⟩

section Relabel

variable (hR : ∀ a, r.Contains a → g.own a = o₀)
include hR

/-- Headers in slots and in mappings of live blocks lie outside the range. -/
theorem SlotBlock.outside {m : ByteMemory} {b s p : ℕ} {c : Compartment}
    (hp : SlotBlock P g.own g.reg m b c s p) (hl : Layout g.own g.reg h)
    (hslot : ∀ b s, o₀ ≠ .slot b s) {a : ℕ} (h₁ : p - headerSize ≤ a) (h₂ : a < p + headerSize) :
    ¬ r.Contains a :=
  not_contains_of_ne hR (hp.head_own hl h₁ h₂) (hslot b s).symm

theorem LiveBlock.relabel {m m₁ : ByteMemory} {B : Block}
    (hB : LiveBlock P g.own g.reg g.use m B) (hl : Layout g.own g.reg h)
    (hslot : ∀ b s, o₀ ≠ .slot b s) (hhuge : o₀ ≠ .huge B.ptr)
    (hmem : ∀ a, ¬ r.Contains a → m₁ a = m a) :
    LiveBlock P (Semalloc.relabel g.own r o) g.reg g.use m₁ B ∧
      SameHeader m m₁ (B.ptr - headerSize) := by
  cases hB with
  | slot hB =>
    have hge := hB.block.slot_le
    have hs : SameHeader m m₁ (B.ptr - headerSize) := by
      rintro a ⟨h₁, h₂⟩
      exact hmem a (hB.block.outside hR hl hslot h₁ (by simp only [headerSize] at *; omega))
    have hown := relabel_of_ne (o := o) hR hB.block.own (hslot _ _).symm
    exact ⟨.slot ⟨(hB.block.congr hs).of_own hown hB.block.reg, hB.use, hB.count_le,
      hB.limit_le⟩, hs⟩
  | huge hB =>
    have hge := hB.ptr_ge
    have hs : SameHeader m m₁ (B.ptr - headerSize) := by
      rintro a ⟨h₁, h₂⟩
      exact hmem a (not_contains_of_ne hR (hB.own a (by simp only [headerSize, pageSize] at *; omega)
        (by simp only [headerSize, pageSize] at *; omega)) hhuge.symm)
    have hB' : HugeLive (Semalloc.relabel g.own r o) m B :=
      ⟨fun a h₁ h₂ => relabel_of_ne hR (hB.own a h₁ h₂) hhuge.symm, hB.isHuge, hB.aligned,
        hB.ptr_ge, hB.top, hB.size_mod, hB.count_le, hB.limit_le⟩
    have hB₁ : LiveBlock P (Semalloc.relabel g.own r o) g.reg g.use m B := .huge hB'
    exact ⟨hB₁.congr hs, hs⟩

/-- Contents outside a relabelled range stay. -/
theorem Contents.relabel (hc : Contents P g live h) (hl : Layout g.own g.reg h)
    (hbib : h'.bibops = h.bibops) (hman : h'.globalMemoryManager = h.globalMemoryManager)
    (hslot : ∀ b s, o₀ ≠ .slot b s) (hhuge : ∀ B ∈ live, o₀ ≠ .huge B.ptr)
    (hmem : ∀ a, ¬ r.Contains a → h'.mem a = h.mem a)
    (hzero : o.Blank → ∀ a, r.Contains a → h'.mem a = 0)
    (hclean : ∀ b s, r.Contains s → o = .slot b s → HugeHeader.isHuge h'.mem s = false) :
    Contents P (g.relabel r o) live h' := by
  have hstart : ∀ b s, g.own s = .slot b s → SameHeader h.mem h'.mem s := by
    rintro b s ho a ⟨h₁, h₂⟩
    exact hmem a (not_contains_of_ne hR (hl.slot_head ho h₁ (by omega)) (hslot b s).symm)
  have hkeep : ∀ {a b s}, g.own a = .slot b s → (g.relabel r o).own a = .slot b s :=
    fun ha => relabel_of_ne hR ha (hslot _ _).symm
  refine ⟨?_, ?_, ?_, ?_, ?_, hc.freeNodup, ?_, ?_, hc.pendingNodup, ?_, hc.liveNodup, ?_⟩
  · intro a ha
    by_cases hin : r.Contains a
    · exact hzero (by simpa [relabel_inside hin] using ha) a hin
    · rw [hmem a hin]
      exact hc.zero a (by simpa [relabel_outside hin] using ha)
  · intro b s ho
    by_cases hin : r.Contains s
    · exact hclean b s hin (by simpa [relabel_inside hin] using ho)
    · have ho' : g.own s = .slot b s := by simpa [relabel_outside hin] using ho
      rw [(hstart b s ho').isHuge]
      exact hc.clean b s ho'
  · intro s hs
    obtain ⟨b, ho⟩ := hc.used s hs
    exact ⟨b, hkeep ho⟩
  · intro b B hB
    rw [hbib] at hB
    exact (hc.freeChain b B hB).congr fun s hs => (hstart b s (hc.freeSlot b s hs).1).link
  · intro b s hs
    obtain ⟨ho, hu, ha⟩ := hc.freeSlot b s hs
    exact ⟨hkeep ho, hu, (hstart b s ho).isAllocation.trans ha⟩
  · intro t m hm
    rw [hman] at hm
    refine (hc.pendingChain t m hm).congr fun p hp => ?_
    obtain ⟨b, c, s, -, hblock, -⟩ := hc.pendingBlock t p hp
    exact readLE_congr fun a h₁ h₂ => hmem a (hblock.outside hR hl hslot (by omega)
      (by simp only [headerSize]; omega))
  · intro t p hp
    obtain ⟨b, c, s, ht, hblock, hu⟩ := hc.pendingBlock t p hp
    have hs : SameHeader h.mem h'.mem (p - headerSize) := by
      rintro a ⟨h₁, h₂⟩
      have := hblock.slot_le
      exact hmem a (hblock.outside hR hl hslot h₁ (by simp only [headerSize] at *; omega))
    exact ⟨b, c, s, ht, (hblock.congr hs).of_own (hkeep hblock.own) hblock.reg, hu⟩
  · rw [hman]
    exact hc.pendingUnborn
  · intro B hB
    exact ((hc.live B hB).relabel hR hl hslot (hhuge B hB) hmem).1

theorem History.relabel (hh : History P g live h) (hc : Contents P g live h)
    (hl : Layout g.own g.reg h) (hserved : h'.served = h.served)
    (hslot : ∀ b s, o₀ ≠ .slot b s) (hhuge : ∀ B ∈ live, o₀ ≠ .huge B.ptr)
    (hmem : ∀ a, ¬ r.Contains a → h'.mem a = h.mem a)
    (hlimbo : ∀ b s, r.Contains s → o = .slot b s → g.use s = .limbo) :
    History P (g.relabel r o) live h' where
  origin e he c ho := by
    rw [hserved] at he
    obtain ⟨b, hr, hs, hlen⟩ := hh.origin e he c ho
    exact ⟨b, hr, relabel_of_ne hR hs (hslot _ _).symm, hlen⟩
  isolated := by rw [hserved]; exact hh.isolated
  logged B hB := by
    obtain ⟨e, he, hlog⟩ := hh.logged B hB
    refine ⟨e, by rw [Heap.newest, hserved]; exact he, ?_⟩
    have hs := ((hc.live B hB).relabel (o := o) hR hl hslot (hhuge B hB) hmem).2
    cases hlog with
    | pool ho hr hown huse hhead =>
      exact .pool ho hr (relabel_of_ne hR hown (hslot _ _).symm) huse
        (relabel_of_ne hR hhead (hslot _ _).symm)
    | huge ho hr hown hhead =>
      exact .huge ho (by rw [hr, hs.size]) (relabel_of_ne hR hown (hhuge B hB).symm)
        (relabel_of_ne hR hhead (hhuge B hB).symm)
  kept b s c ho hr hk := by
    by_cases hin : r.Contains s
    · exact .inl (hlimbo b s hin (by simpa [relabel_inside hin] using ho))
    · exact hh.kept b s c (by simpa [relabel_outside hin] using ho) hr hk

theorem Grows.relabel (hmeta : o₀ ≠ .metadata) (hslot : ∀ b s, o₀ ≠ .slot b s) (hhuge : ∀ p, o₀ = .huge p → x p)
    (hmem : ∀ a, ¬ r.Contains a → h'.mem a = h.mem a) (hserved : h.served <:+ h'.served)
    (htls : h'.tls = h.tls) (hman : h'.globalMemoryManager = h.globalMemoryManager) :
    Grows x g h (g.relabel r o) h' where
  reg _ _ hr := hr
  slot _ _ _ ha := relabel_of_ne hR ha (hslot _ _).symm
  object _ ha := relabel_of_ne hR ha hmeta.symm
  held a p ha hx := by
    refine hmem a fun hin => ?_
    cases ha with
    | slot ho _ => exact hslot _ _ ((hR a hin).symm.trans ho)
    | huge ho => exact hx (hhuge p ((hR a hin).symm.trans ho))
  use _ _ hs _ := hs
  huge a p ha hx := relabel_of_ne hR ha fun he => hx (hhuge p he.symm)
  served := hserved
  thread _ _ := by rw [htls]
  manager t m hm := ⟨m, by rw [hman]; exact hm⟩

end Relabel

/-! ## Mappings -/

/-- A fresh range has no owner. -/
theorem Layout.fresh_own (hl : Layout own reg h) {a len y : ℕ} (hf : Fresh h.maps a len)
    (hy : Region.Contains ⟨a, pageCeil len⟩ y) : own y = .nobody := by
  by_contra hne
  obtain ⟨s, hs, h₁, h₂⟩ := hl.mapped y hne
  obtain ⟨h₃, h₄⟩ := hy
  have := hf.2.2.2.2 s hs
  simp only at h₃ h₄
  omega

/-- **A new mapping** is the allocator's, and zero. -/
theorem Inv.mmap (hi : Inv P g live h) {a len : ℕ} (hf : Fresh h.maps a len) :
    Inv P (g.relabel ⟨a, pageCeil len⟩ .fresh) live (h.addMapping a len) ∧
      Grows x g h (g.relabel ⟨a, pageCeil len⟩ .fresh) (h.addMapping a len) := by
  have hl := hi.layout
  have hR : ∀ y, Region.Contains ⟨a, pageCeil len⟩ y → g.own y = .nobody := fun y hy =>
    hl.fresh_own hf hy
  have hmem : ∀ y, ¬ Region.Contains ⟨a, pageCeil len⟩ y →
      (h.addMapping a len).mem y = h.mem y := fun y hy =>
    fill_of_outside (by simp only [Region.Contains] at hy; omega)
  refine ⟨⟨?_, ?_, ?_⟩, ?_⟩
  · refine hl.relabel hR rfl rfl rfl rfl rfl (by simp) (by simp) (by simp)
      (fun _ _ _ => ⟨by simp, by simp⟩) ?_ ?_ (by simp)
    · intro y hy
      rw [Heap.addMapping_maps, mapped_cons]
      by_cases hin : Region.Contains ⟨a, pageCeil len⟩ y
      · exact .inl hin
      · rw [relabel_outside hin] at hy
        exact .inr (hl.mapped y hy)
    · intro y hy
      rw [Heap.addMapping_maps, mapped_cons] at hy
      rcases hy with ⟨h₁, h₂⟩ | hy
      · obtain ⟨-, -, h₃, h₄, -⟩ := hf
        simp only at h₁ h₂
        exact ⟨by omega, by omega⟩
      · exact hl.userSpace y hy
  · exact hi.contents.relabel hR hl rfl rfl (by simp) (by simp) hmem
      (fun _ y hy => fill_of_inside hy.1 hy.2) (by simp)
  · exact hi.history.relabel hR hi.contents hl rfl (by simp) (by simp) hmem (by simp)
  · exact Grows.relabel hR (by simp) (by simp) (by simp) hmem List.suffix_rfl rfl rfl

/-- Bytes the allocator holds are assigned to an owner. -/
theorem Inv.assign (hi : Inv P g live h) (hR : ∀ a, r.Contains a → g.own a = .fresh)
    (ho : ∀ b s, o ≠ .slot b s) : Inv P (g.relabel r o) live h ∧ Grows x g h (g.relabel r o) h := by
  have hl := hi.layout
  refine ⟨⟨?_, ?_, ?_⟩, ?_⟩
  · refine hl.relabel hR rfl rfl rfl rfl rfl (by simp) (by simp) (by simp)
      (fun _ _ _ => ⟨by simp, by simp⟩) ?_ hl.userSpace (fun _ b s _ he => absurd he (ho b s))
    intro y hy
    by_cases hin : r.Contains y
    · exact hl.mapped y (by rw [hR y hin]; simp)
    · exact hl.mapped y (by rwa [relabel_outside hin] at hy)
  · exact hi.contents.relabel hR hl rfl rfl (by simp) (by simp) (fun _ _ => rfl)
      (fun _ y hy => hi.contents.zero y (by rw [hR y hy]; simp [Owner.Blank]))
      (fun b s _ he => absurd he (ho b s))
  · exact hi.history.relabel hR hi.contents hl rfl (by simp) (by simp) (fun _ _ => rfl)
      (fun b s _ he => absurd he (ho b s))
  · exact Grows.relabel hR (by simp) (by simp) (by simp) (fun _ _ => rfl) List.suffix_rfl rfl rfl

/-- **A mapping that is not live** is removed. -/
theorem Inv.munmap (hi : Inv P g live h) {p : ℕ} (hR : ∀ a, r.Contains a → g.own a = .huge p)
    (hlive : ∀ B ∈ live, B.ptr ≠ p) :
    Inv P (g.relabel r .nobody) live (h.setMaps (removeRange h.maps r.base r.len)) ∧
      Grows (· = p) g h (g.relabel r .nobody) (h.setMaps (removeRange h.maps r.base r.len)) := by
  have hl := hi.layout
  have hne : ∀ B ∈ live, Owner.huge p ≠ .huge B.ptr := fun B hB he =>
    hlive B hB (Owner.huge.inj he).symm
  refine ⟨⟨?_, ?_, ?_⟩, ?_⟩
  · refine hl.relabel hR rfl rfl rfl rfl rfl (by simp) (by simp) (by simp)
      (fun _ _ _ => ⟨by simp, by simp⟩) ?_ ?_ (by simp)
    · intro y hy
      rw [Heap.setMaps_maps, mapped_removeRange]
      by_cases hin : r.Contains y
      · exact absurd (relabel_inside hin) hy
      · rw [relabel_outside hin] at hy
        exact ⟨hl.mapped y hy, hin⟩
    · intro y hy
      rw [Heap.setMaps_maps, mapped_removeRange] at hy
      exact hl.userSpace y hy.1
  · exact hi.contents.relabel hR hl rfl rfl (by simp) hne (fun _ _ => rfl)
      (fun he => by simp [Owner.Blank] at he) (by simp)
  · exact hi.history.relabel hR hi.contents hl rfl (by simp) hne (fun _ _ => rfl) (by simp)
  · exact Grows.relabel hR (by simp) (by simp) (fun q he => (Owner.huge.inj he).symm) (fun _ _ => rfl)
      List.suffix_rfl rfl rfl

/-! ## Pools and chunks -/

/-- A manager may be replaced by a well-formed one with the same remote free list. -/
theorem Inv.setManager (hi : Inv P g live h) {t : ℕ} {m m₁ : MemoryManager}
    (hm : h.globalMemoryManager t = some m) (hok : ManagerOk g.own g.reg t m₁)
    (hfree : m₁.freeList = m.freeList) :
    Inv P g live (h.setManager t m₁) ∧ Grows x g h g (h.setManager t m₁) := by
  have hc := hi.contents
  refine ⟨⟨hi.layout.setManager hm hok, ?_, hi.history.congr rfl rfl rfl rfl rfl⟩, ?_⟩
  · refine ⟨hc.zero, hc.clean, hc.used, hc.freeChain, hc.freeSlot, hc.freeNodup, ?_,
      hc.pendingBlock, hc.pendingNodup, ?_, hc.liveNodup, hc.live⟩
    · intro t' m' hm'
      by_cases htt : t' = t
      · subst htt
        obtain rfl : m₁ = m' := by simpa using hm'
        rw [hfree]
        exact hc.pendingChain t' m hm
      · exact hc.pendingChain t' m' (by simpa [htt] using hm')
    · intro t' ht'
      by_cases htt : t' = t
      · subst htt
        simp at ht'
      · exact hc.pendingUnborn t' (by simpa [htt] using ht')
  · exact Grows.of_same rfl rfl (fun _ _ hs _ => hs) (fun _ _ _ _ => rfl) List.suffix_rfl rfl
      fun _ _ => Heap.setManager_kept

/-- Bytes no pool of any manager counts as unused are taken from a pool. -/
theorem Inv.takePool (hi : Inv P g live h) {t : ℕ} (ho₀ : o₀ = .dataPool t ∨ o₀ = .metaPool t)
    (hR : ∀ a, r.Contains a → g.own a = o₀)
    (hpools : ∀ m, h.globalMemoryManager t = some m → PoolsApart r o₀ t m) :
    Inv P (g.relabel r .fresh) live h ∧ Grows x g h (g.relabel r .fresh) h := by
  have hl := hi.layout
  have hmeta : o₀ ≠ .metadata := by rcases ho₀ with rfl | rfl <;> simp
  have hslot : ∀ b s, o₀ ≠ .slot b s := by rcases ho₀ with rfl | rfl <;> simp
  have hhuge : ∀ p, o₀ ≠ .huge p := by rcases ho₀ with rfl | rfl <;> simp
  refine ⟨⟨?_, ?_, ?_⟩, ?_⟩
  · refine hl.relabel hR rfl rfl rfl rfl rfl hmeta hslot
      (by rcases ho₀ with rfl | rfl <;> simp) ?_ ?_ hl.userSpace (by simp)
    · intro t' m hm
      by_cases htt : t' = t
      · subst htt
        exact hpools m hm
      · have : t ≠ t' := fun he => htt he.symm
        rcases ho₀ with rfl | rfl <;> simp [PoolsApart, this]
    · intro y hy
      by_cases hin : r.Contains y
      · exact hl.mapped y (by rw [hR y hin]; rcases ho₀ with rfl | rfl <;> simp)
      · exact hl.mapped y (by rwa [relabel_outside hin] at hy)
  · exact hi.contents.relabel hR hl rfl rfl hslot (fun B _ => hhuge B.ptr) (fun _ _ => rfl)
      (fun _ y hy => hi.contents.zero y
        (by rw [hR y hy]; rcases ho₀ with rfl | rfl <;> simp [Owner.Blank])) (by simp)
  · exact hi.history.relabel hR hi.contents hl rfl hslot (fun B _ => hhuge B.ptr) (fun _ _ => rfl)
      (by simp)
  · exact Grows.relabel hR hmeta hslot (fun p he => absurd he (hhuge p)) (fun _ _ => rfl)
      List.suffix_rfl rfl rfl

/-- A BIBOP may be replaced by a well-formed one with the same free list and no fewer chunks. -/
theorem Inv.setBIBOP (hi : Inv P g live h) {b : ℕ} {c : Compartment} {B B' : SingleBIBOP}
    (hr : g.reg b = some c) (hB : h.bibops b = some B) (hok : BIBOPOk g.own b c B')
    (hchunks : B.chunks ⊆ B'.chunks) (hfree : B'.freeList = B.freeList) :
    Inv P g live (h.setBIBOP b B') ∧ Grows x g h g (h.setBIBOP b B') := by
  have hc := hi.contents
  refine ⟨⟨hi.layout.setBIBOP hr hB hok hchunks, ?_, hi.history.congr rfl rfl rfl rfl rfl⟩, ?_⟩
  · refine ⟨hc.zero, hc.clean, hc.used, ?_, hc.freeSlot, hc.freeNodup, hc.pendingChain,
      hc.pendingBlock, hc.pendingNodup, hc.pendingUnborn, hc.liveNodup, hc.live⟩
    intro b' B₁ hB₁
    by_cases hbb : b' = b
    · subst hbb
      obtain rfl : B' = B₁ := by simpa using hB₁
      rw [hfree]
      exact hc.freeChain b' B hB
    · exact hc.freeChain b' B₁ (by simpa [hbb] using hB₁)
  · exact Grows.of_same rfl rfl (fun _ _ hs _ => hs) (fun _ _ _ _ => rfl) List.suffix_rfl rfl
      fun _ m hm => ⟨m, hm⟩

/-- **A slot is carved** from the chunk of its BIBOP, in limbo and never served before. -/
theorem Inv.carve (hi : Inv P g live h) {b s : ℕ} {c : Compartment} {B : SingleBIBOP}
    {m : MemoryManager} (hr : g.reg b = some c) (hB : h.bibops b = some B)
    (hm : h.globalMemoryManager c.thread = some m)
    (hbump : B.bump = s + slotSize c.sizeClass) (hs : s % 16 = 0)
    (hchunk : ∃ r ∈ B.chunks, r.base ≤ s ∧ s + slotSize c.sizeClass ≤ r.base + r.len)
    (hR : ∀ a, s ≤ a → a < s + slotSize c.sizeClass → g.own a = .spare b) :
    Inv P (g.relabel ⟨s, slotSize c.sizeClass⟩ (.slot b s)) live h ∧
      Grows x g h (g.relabel ⟨s, slotSize c.sizeClass⟩ (.slot b s)) h ∧
      g.use s = .limbo ∧ RegularHeader.isAllocation h.mem s = false ∧ Unserved h s := by
  have hl := hi.layout
  have hc := hi.contents
  have hsize := slotSize_ge c.sizeClass
  have hR' : ∀ a, Region.Contains ⟨s, slotSize c.sizeClass⟩ a → g.own a = .spare b :=
    fun a ha => hR a ha.1 ha.2
  have hzero : ∀ a, s ≤ a → a < s + slotSize c.sizeClass → h.mem a = 0 := fun a h₁ h₂ =>
    hc.zero a (by rw [hR a h₁ h₂]; simp [Owner.Blank])
  have hlimbo : g.use s = .limbo := by
    by_contra hu
    obtain ⟨b', ho⟩ := hc.used s hu
    rw [hR s le_rfl (by omega)] at ho
    cases ho
  have hok : ∀ a, s ≤ a → a < s + slotSize c.sizeClass →
      relabel g.own ⟨s, slotSize c.sizeClass⟩ (.slot b s) a = .slot b s := fun a h₁ h₂ =>
    relabel_inside ⟨h₁, h₂⟩
  have hhead : HugeHeader.isHuge h.mem s = false := by
    simp [HugeHeader.isHuge, HugeHeader.controlByte, hzero (s + 15) (by omega) (by omega)]
  refine ⟨⟨?_, ?_, ?_⟩, ?_, hlimbo, ?_, ?_⟩
  · refine hl.relabel hR' rfl rfl rfl rfl rfl (by simp) (by simp) ?_
      (fun _ _ _ => ⟨by simp, by simp⟩) ?_ hl.userSpace ?_
    · intro b' B' hB' he a h₁ h₂ hin
      obtain rfl := Owner.spare.inj he
      rw [hB] at hB'
      cases hB'
      have := hin.2
      simp only at this
      omega
    · intro y hy
      by_cases hin : Region.Contains ⟨s, slotSize c.sizeClass⟩ y
      · exact hl.mapped y (by rw [hR' y hin]; simp)
      · exact hl.mapped y (by rwa [relabel_outside hin] at hy)
    · rintro a b' s' ⟨h₁, h₂⟩ he
      cases he
      exact ⟨h₁, c, B, hr, hB, h₂, ⟨hs, hok, hchunk⟩, m, hm⟩
  · refine hc.relabel hR' hl rfl rfl (by simp) (by simp) (fun _ _ => rfl)
      (fun he => by simp [Owner.Blank] at he) ?_
    rintro b' s' - he
    cases he
    exact hhead
  · refine hi.history.relabel hR' hc hl rfl (by simp) (by simp) (fun _ _ => rfl) ?_
    rintro b' s' - he
    cases he
    exact hlimbo
  · exact Grows.relabel hR' (by simp) (by simp) (by simp) (fun _ _ => rfl) List.suffix_rfl rfl rfl
  · simp [RegularHeader.isAllocation, RegularHeader.controlByte,
      hzero (s + 14) (by omega) (by omega)]
  · intro e he c' ho heq
    obtain ⟨b', -, hs', -⟩ := hi.history.origin e he c' ho
    rw [heq, hR s le_rfl (by omega)] at hs'
    cases hs'

/-! ## New objects -/

@[simps -fullyApplied] def Ghost.register (g : Ghost) (b : ℕ) (c : Compartment) : Ghost :=
  { g with reg := Function.update g.reg b (some c) }

/-- An address the allocator holds is no BIBOP yet. -/
theorem Layout.unregistered (hl : Layout own reg h) {b : ℕ} (hb : own b = .fresh) :
    reg b = none := by
  by_contra hne
  obtain ⟨c, hr⟩ := Option.ne_none_iff_exists'.mp hne
  obtain ⟨B, -, hok⟩ := hl.bibop b c hr
  have := hok.object
  rw [hb] at this
  cases this

/-- **A new BIBOP** is registered for its compartment. -/
theorem Inv.register (hi : Inv P g live h) {b : ℕ} {c : Compartment} {B : SingleBIBOP}
    (hb : g.reg b = none) (hok : BIBOPOk g.own b c B) (hfree : B.freeList = 0) :
    Inv P (g.register b c) live (h.setBIBOP b B) ∧
      Grows x g h (g.register b c) (h.setBIBOP b B) := by
  have hl := hi.layout
  have hc := hi.contents
  have hh := hi.history
  have hreg : ∀ b' c', g.reg b' = some c' → (g.register b c).reg b' = some c' := by
    intro b' c' hr
    have hbb : b' ≠ b := fun he => by rw [he, hb] at hr; cases hr
    simpa [hbb] using hr
  have hempty : g.free b = [] := by
    by_contra hne
    obtain ⟨s, hs⟩ := List.exists_mem_of_ne_nil _ hne
    obtain ⟨c', hr, -⟩ := hl.slotRange (hc.freeSlot b s hs).1
    have := hr.reg
    rw [hb] at this
    cases this
  refine ⟨⟨?_, ?_, ?_⟩, ?_⟩
  · refine ⟨hl.excluded, hl.mapped, hl.userSpace, ?_, ?_, ?_, ?_, hl.thread, hl.unborn⟩
    · intro b' c' hr
      by_cases hbb : b' = b
      · subst hbb
        obtain rfl : c = c' := by simpa using hr
        exact ⟨B, by simp, hok⟩
      · obtain ⟨B', hB', hok'⟩ := hl.bibop b' c' (by simpa [hbb] using hr)
        exact ⟨B', by simpa [hbb] using hB', hok'⟩
    · intro b' B' hB'
      by_cases hbb : b' = b
      · exact ⟨c, by simp [hbb]⟩
      · obtain ⟨c', hr⟩ := hl.known b' B' (by simpa [hbb] using hB')
        exact ⟨c', hreg b' c' hr⟩
    · intro a b' s ha
      obtain ⟨hsa, c', B', hr, hB', has, hok', hm⟩ := hl.slot a b' s ha
      have hbb : b' ≠ b := fun he => by rw [he, hb] at hr; cases hr
      exact ⟨hsa, c', B', hreg b' c' hr, by simpa [hbb] using hB', has, hok', hm⟩
    · intro t m hm
      have hm' := hl.manager t m hm
      exact ⟨hm'.threadId, hm'.bound, hm'.dataPool, hm'.dataAligned, hm'.metaPool,
        fun k hk => hreg _ _ (hm'.globalBIBOP k hk),
        fun i k hk h₁ h₂ => hreg _ _ (hm'.table i k hk h₁ h₂), hm'.blank⟩
  · refine ⟨hc.zero, hc.clean, hc.used, ?_, hc.freeSlot, hc.freeNodup, hc.pendingChain, ?_,
      hc.pendingNodup, hc.pendingUnborn, hc.liveNodup, ?_⟩
    · intro b' B' hB'
      by_cases hbb : b' = b
      · subst hbb
        obtain rfl : B = B' := by simpa using hB'
        rw [hfree, Ghost.register_free, hempty]
        rfl
      · exact hc.freeChain b' B' (by simpa [hbb] using hB')
    · intro t p hp
      obtain ⟨b', c', s, ht, hblock, hu⟩ := hc.pendingBlock t p hp
      exact ⟨b', c', s, ht, hblock.of_own hblock.own (hreg b' c' hblock.reg), hu⟩
    · intro B' hB'
      cases hc.live B' hB' with
      | slot h =>
        exact .slot ⟨h.block.of_own h.block.own (hreg _ _ h.block.reg), h.use, h.count_le,
          h.limit_le⟩
      | huge h => exact .huge h
  · refine ⟨?_, hh.isolated, ?_, ?_⟩
    · intro e he c' ho
      obtain ⟨b', hr, hs, hlen⟩ := hh.origin e he c' ho
      exact ⟨b', hreg b' c' hr, hs, hlen⟩
    · intro B' hB'
      obtain ⟨e, he, hlog⟩ := hh.logged B' hB'
      refine ⟨e, he, ?_⟩
      cases hlog with
      | pool ho hr hown huse hhead => exact .pool ho (hreg _ _ hr) hown huse hhead
      | huge ho hr hown hhead => exact .huge ho hr hown hhead
    · intro b' s c' ho hr hk
      obtain ⟨c₁, hr₁, -⟩ := hl.slotRange ho
      have := hreg b' c₁ hr₁.reg
      rw [hr] at this
      cases this
      exact hh.kept b' s c' ho hr₁.reg hk
  · exact ⟨hreg, fun _ _ _ ha => ha, fun _ ha => ha, fun _ _ _ _ => rfl, fun _ _ hs _ => hs, fun _ _ ha _ => ha,
      List.suffix_rfl, fun _ _ => rfl, fun _ m hm => ⟨m, hm⟩⟩

/-- **A new manager** takes an unused index below the thread bump. -/
theorem Inv.newManager (hi : Inv P g live h) {t : ℕ} {m : MemoryManager}
    (ht : h.globalMemoryManager t = none) (hbump : t < h.threadBump)
    (hok : ManagerOk g.own g.reg t m) (hfree : m.freeList = 0) :
    Inv P g live (h.setManager t m) ∧ Grows x g h g (h.setManager t m) := by
  have hl := hi.layout
  have hc := hi.contents
  have hkept : ∀ {t' m'}, h.globalMemoryManager t' = some m' →
      ∃ m', (h.setManager t m).globalMemoryManager t' = some m' := Heap.setManager_kept
  refine ⟨⟨?_, ?_, hi.history.congr rfl rfl rfl rfl rfl⟩, ?_⟩
  · refine ⟨hl.excluded, hl.mapped, hl.userSpace, hl.bibop, hl.known, ?_, ?_, ?_, ?_⟩
    · intro a b s ha
      obtain ⟨hsa, c, B, hr, hB, has, hok', m', hm'⟩ := hl.slot a b s ha
      exact ⟨hsa, c, B, hr, hB, has, hok', hkept hm'⟩
    · intro t' m' hm'
      by_cases htt : t' = t
      · subst htt
        obtain rfl : m = m' := by simpa using hm'
        exact hok
      · exact hl.manager t' m' (by simpa [htt] using hm')
    · intro τ hτ hτ'
      obtain ⟨m', hm'⟩ := hl.thread τ hτ hτ'
      exact hkept hm'
    · intro t' ht'
      have htt : t' ≠ t := fun he => by rw [he, Heap.setManager_threadBump] at ht'; omega
      simpa [htt] using hl.unborn t' ht'
  · refine ⟨hc.zero, hc.clean, hc.used, hc.freeChain, hc.freeSlot, hc.freeNodup, ?_,
      hc.pendingBlock, hc.pendingNodup, ?_, hc.liveNodup, hc.live⟩
    · intro t' m' hm'
      by_cases htt : t' = t
      · subst htt
        obtain rfl : m = m' := by simpa using hm'
        rw [hfree, hc.pendingUnborn t' ht]
        rfl
      · exact hc.pendingChain t' m' (by simpa [htt] using hm')
    · intro t' ht'
      by_cases htt : t' = t
      · subst htt
        simp at ht'
      · exact hc.pendingUnborn t' (by simpa [htt] using ht')
  · exact Grows.of_same rfl rfl (fun _ _ hs _ => hs) (fun _ _ _ _ => rfl) List.suffix_rfl rfl
      fun _ _ => hkept

/-- A thread that was not initialized is tied to an existing manager. -/
theorem Inv.setThread (hi : Inv P g live h) {τ t : ℕ} {m : MemoryManager}
    (hτ : (h.tls τ).tid ≠ τ) (hm : h.globalMemoryManager t = some m) :
    Inv P g live (h.setThread τ ⟨τ, t⟩) ∧ Grows x g h g (h.setThread τ ⟨τ, t⟩) := by
  have hl := hi.layout
  have hc := hi.contents
  refine ⟨⟨?_, ⟨hc.zero, hc.clean, hc.used, hc.freeChain, hc.freeSlot, hc.freeNodup,
    hc.pendingChain, hc.pendingBlock, hc.pendingNodup, hc.pendingUnborn, hc.liveNodup, hc.live⟩,
    hi.history.congr rfl rfl rfl rfl rfl⟩, ?_⟩
  · refine ⟨hl.excluded, hl.mapped, hl.userSpace, hl.bibop, hl.known, hl.slot, hl.manager, ?_,
      hl.unborn⟩
    intro τ' hτ' htid
    by_cases he : τ' = τ
    · subst he
      exact ⟨m, by simpa using hm⟩
    · simpa [he] using hl.thread τ' hτ' (by simpa [he] using htid)
  · refine ⟨fun _ _ hr => hr, fun _ _ _ ha => ha, fun _ ha => ha, fun _ _ _ _ => rfl, fun _ _ hs _ => hs,
      fun _ _ ha _ => ha, List.suffix_rfl, ?_, fun _ m hm => ⟨m, hm⟩⟩
    intro τ' hτ'
    have hne : τ' ≠ τ := fun he => hτ (he ▸ hτ')
    simp [hne]

theorem Inv.setThreadBump (hi : Inv P g live h) {n : ℕ} (hn : h.threadBump ≤ n) :
    Inv P g live (h.setThreadBump n) ∧ Grows x g h g (h.setThreadBump n) := by
  have hl := hi.layout
  have hc := hi.contents
  refine ⟨⟨⟨hl.excluded, hl.mapped, hl.userSpace, hl.bibop, hl.known, hl.slot, hl.manager,
      hl.thread, fun t ht => hl.unborn t (hn.trans ht)⟩,
    ⟨hc.zero, hc.clean, hc.used, hc.freeChain, hc.freeSlot, hc.freeNodup, hc.pendingChain,
      hc.pendingBlock, hc.pendingNodup, hc.pendingUnborn, hc.liveNodup, hc.live⟩,
    hi.history.congr rfl rfl rfl rfl rfl⟩, ?_⟩
  exact Grows.of_same rfl rfl (fun _ _ hs _ => hs) (fun _ _ _ _ => rfl) List.suffix_rfl rfl
    fun _ m hm => ⟨m, hm⟩

end Semalloc
