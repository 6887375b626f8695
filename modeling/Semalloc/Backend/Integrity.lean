import Semalloc.Backend.RunSpec

/-!
# Integrity of the heap

What the invariant says without its ghost view: live blocks are aligned, hold what was asked for,
and overlap neither each other nor any header; free lists are finite and hold no live slot; slots
stay inside the chunks of their BIBOP; and no operation writes into a live block of another
client.

## Main definitions

* `Config.Integral`: integrity of one configuration
* `Config.Untouched`: an event that changes no byte of other live blocks

## Main results

* `heap_integrity`: both hold along every run whose blocks are not shifted
-/

set_option autoImplicit false

namespace Semalloc

open ByteMemory Region

variable {P : Promise} {g : Ghost} {c c' : Config} {e : Event} {B B' : Block}

/-- The bytes of a live block that its client may use. -/
def usableRange (h : Heap) (p : ℕ) : Region := ⟨p, usableSize h p⟩

/-- The header of a block. -/
def headerRange (p : ℕ) : Region := ⟨p - headerSize, headerSize⟩

/-- The slot at `s` lies in one chunk of the BIBOP. -/
def InChunk (S : SingleBIBOP) (s : ℕ) : Prop :=
  ∃ r ∈ S.chunks, r.base ≤ s ∧ s + S.objectSize ≤ r.base + r.len

/-- A block that is not a mapping of its own is the data of a slot of the BIBOP in its header. -/
def InSlot (h : Heap) (p : ℕ) : Prop :=
  HugeHeader.isHuge h.mem (p - headerSize) = false →
    ∃ S, h.bibops (RegularHeader.bibop h.mem (p - headerSize)) = some S ∧
      usableSize h p + headerSize = S.objectSize ∧ InChunk S (p - headerSize)

/-- The free list of a BIBOP: finite, without repetition, and of slots that meet no live block. -/
def FreeListOk (c : Config) (S : SingleBIBOP) : Prop :=
  ∃ l, Chain (link c.heap.mem) S.freeList l ∧ l.Nodup ∧ ∀ s ∈ l, InChunk S s ∧
    ∀ B ∈ c.live, ¬ (usableRange c.heap B.ptr).Overlaps ⟨s, S.objectSize⟩ ∧
      ¬ (headerRange B.ptr).Overlaps ⟨s, S.objectSize⟩

namespace Config

/-- **Integrity** of the heap. -/
structure Integral (c : Config) : Prop where
  aligned : ∀ B ∈ c.live, B.ptr % 16 = 0
  usable : ∀ B ∈ c.live,
    cssMallocUsableSize B.ptr c.heap = .ok (usableSize c.heap B.ptr) c.heap ∧
      B.count ≤ usableSize c.heap B.ptr
  distinct : (c.live.map Block.ptr).Nodup
  disjoint : ∀ B ∈ c.live, ∀ B' ∈ c.live, B.ptr ≠ B'.ptr →
    ¬ (usableRange c.heap B.ptr).Overlaps (usableRange c.heap B'.ptr)
  headers : ∀ B ∈ c.live, ∀ B' ∈ c.live,
    ¬ (usableRange c.heap B.ptr).Overlaps (headerRange B'.ptr)
  slots : ∀ B ∈ c.live, InSlot c.heap B.ptr
  freeLists : ∀ b S, c.heap.bibops b = some S → FreeListOk c S

/-- The event changes no byte of a live block other than the one it is given. -/
def Untouched (c c' : Config) (e : Event) : Prop :=
  ∀ B ∈ c.live, B.ptr ≠ e.op.pointer →
    ∀ a, (usableRange c.heap B.ptr).Contains a → c'.heap.mem a = c.heap.mem a

end Config

/-! ## Owned bytes -/

/-- The header and the usable bytes of a block that is not shifted are its own. -/
theorem LiveBlock.held {h : Heap} (hB : LiveBlock P g.own g.reg g.use h.mem B)
    (hl : Layout g.own g.reg h) (hP : ¬ P.shifted) {a : ℕ} (h₁ : B.ptr - headerSize ≤ a)
    (h₂ : a < B.ptr + usableSize h B.ptr) : Held g a B.ptr := by
  cases hB with
  | @slot b s k hB =>
    have hs := hl.slotRange_of_reg hB.block.own hB.block.reg
    have hclass := slotSize_sub k.sizeClass
    have hu : usableSize h B.ptr = minBagSize <<< k.sizeClass := by
      rw [usableSize, hB.block.usableSize hl]
    obtain ⟨hptr, -⟩ := hB.block.kind.resolve_right fun hk => hP hk.1
    have hsize : headerSize = 16 := rfl
    have := slotSize_ge k.sizeClass
    exact .slot (hs.own a (by omega) (by omega)) hB.use
  | huge hB =>
    have hge := hB.ptr_ge
    have hu : usableSize h B.ptr = HugeHeader.size h.mem (B.ptr - headerSize) := by
      rw [usableSize, hB.usableSize hl]
    exact .huge (hB.own a (by simp only [headerSize, pageSize] at *; omega) (by omega))

theorem LiveBlock.aligned {h : Heap} (hB : LiveBlock P g.own g.reg g.use h.mem B) :
    B.ptr % 16 = 0 := by
  cases hB with
  | slot hB => exact hB.block.aligned
  | huge hB =>
    have := hB.aligned
    simp only [pageSize] at this
    omega

theorem LiveBlock.inSlot {h : Heap} (hB : LiveBlock P g.own g.reg g.use h.mem B)
    (hl : Layout g.own g.reg h) (hP : ¬ P.shifted) : InSlot h B.ptr := by
  intro hhuge
  cases hB with
  | @slot b s k hB =>
    obtain ⟨hptr, -⟩ := hB.block.kind.resolve_right fun hk => hP hk.1
    obtain ⟨-, k', S, hr, hS, -, hok, -⟩ := hl.slot s b s hB.block.own
    obtain ⟨S', hS', hbok⟩ := hl.bibop b k hB.block.reg
    rw [hB.block.reg] at hr
    cases hr
    cases hS.symm.trans hS'
    have hu : usableSize h B.ptr = minBagSize <<< k.sizeClass := by
      rw [usableSize, hB.block.usableSize hl]
    have hclass := slotSize_sub k.sizeClass
    have hge := slotSize_ge k.sizeClass
    have hsize : headerSize = 16 := rfl
    obtain ⟨r, hrS, hle, hle'⟩ := hok.chunk
    refine ⟨S, by rw [hB.block.bibop]; exact hS, ?_, r, hrS, ?_, ?_⟩
    · rw [hu, hbok.objectSize]
      omega
    · omega
    · rw [hbok.objectSize]
      omega
  | huge hB =>
    rw [hB.isHuge] at hhuge
    cases hhuge

/-! ## Integrity -/

/-- The bytes of a free slot belong to no live block. -/
theorem Inv.freeListOk (hi : Inv P g c.live c.heap) (hP : ¬ P.shifted) {b : ℕ} {S : SingleBIBOP}
    (hS : c.heap.bibops b = some S) : FreeListOk c S := by
  have hl := hi.layout
  refine ⟨g.free b, hi.contents.freeChain b S hS, hi.contents.freeNodup b, fun s hs => ?_⟩
  obtain ⟨ho, hu, -⟩ := hi.contents.freeSlot b s hs
  obtain ⟨-, k, S', hr, hS', -, hok, -⟩ := hl.slot s b s ho
  cases hS.symm.trans hS'
  obtain ⟨S', hS', hbok⟩ := hl.bibop b k hr
  cases hS.symm.trans hS'
  have hnot : ∀ B ∈ c.live, ∀ a, B.ptr - headerSize ≤ a → a < B.ptr + usableSize c.heap B.ptr →
      ¬ (Region.mk s S.objectSize).Contains a := by
    rintro B hB a h₁ h₂ ⟨h₃, h₄⟩
    rw [hbok.objectSize] at h₄
    have hown := hok.own a h₃ h₄
    cases (hi.contents.live B hB).held hl hP h₁ h₂ with
    | slot ho' hu' =>
      rw [hown] at ho'
      cases ho'
      rw [hu] at hu'
      cases hu'
    | huge ho' => rw [hown] at ho'; cases ho'
  refine ⟨?_, fun B hB => ⟨?_, ?_⟩⟩
  · obtain ⟨r, hrS, hle, hle'⟩ := hok.chunk
    exact ⟨r, hrS, hle, by rw [hbok.objectSize]; exact hle'⟩
  · rintro ⟨a, ⟨h₁, h₂⟩, ha⟩
    exact hnot B hB a (le_trans (Nat.sub_le _ _) h₁) h₂ ha
  · rintro ⟨a, ⟨h₁, h₂⟩, ha⟩
    have hlt := (hi.contents.live B hB).headerSize_lt
    simp only [headerRange] at h₁ h₂
    exact hnot B hB a h₁ (by omega) ha

/-- **The invariant** gives integrity, when no block is shifted. -/
theorem Inv.integral (hi : Inv P g c.live c.heap) (hP : ¬ P.shifted) : c.Integral := by
  have hl := hi.layout
  have hheld : ∀ B ∈ c.live, ∀ a, B.ptr - headerSize ≤ a →
      a < B.ptr + usableSize c.heap B.ptr → Held g a B.ptr := fun B hB a =>
    (hi.contents.live B hB).held hl hP
  refine ⟨fun B hB => (hi.contents.live B hB).aligned,
    fun B hB => (hi.contents.live B hB).usable hl, hi.contents.liveNodup, ?_, ?_,
    fun B hB => (hi.contents.live B hB).inSlot hl hP, fun b S hS => hi.freeListOk hP hS⟩
  · rintro B hB B' hB' hne ⟨a, ⟨h₁, h₂⟩, h₃, h₄⟩
    exact hne ((hheld B hB a (le_trans (Nat.sub_le _ _) h₁) h₂).unique
      (hheld B' hB' a (le_trans (Nat.sub_le _ _) h₃) h₄))
  · rintro B hB B' hB' ⟨a, ⟨h₁, h₂⟩, h₃, h₄⟩
    simp only [usableRange, headerRange] at h₁ h₂ h₃ h₄
    have hlt := (hi.contents.live B' hB').headerSize_lt
    have heq := (hheld B hB a (le_trans (Nat.sub_le _ _) h₁) h₂).unique
      (hheld B' hB' a h₃ (by omega))
    -- a block does not reach its own header
    omega

/-- **One event** leaves the live blocks it is not given untouched. -/
theorem Inv.untouched (hi : Inv P g c.live c.heap) (hready : Ready c.heap) (hP : ¬ P.shifted)
    (hp : c.Permitted e) (hh : c.Honours P e) (hs : c.step e = some c') : c.Untouched c' e := by
  obtain ⟨g', ha⟩ := Config.step_after hi hready hp hh hs
  rintro B hB hne a ⟨h₁, h₂⟩
  refine ha.grows.held a B.ptr ((hi.contents.live B hB).held hi.layout hP
    (le_trans (Nat.sub_le _ _) h₁) h₂) ?_
  rintro (he | hout)
  · exact hne he
  · exact hout B hB rfl

/-- **Heap integrity**: in every reachable configuration the heap is integral, and every further
event leaves the live blocks it is not given untouched. -/
theorem heap_integrity {os : Kernel} (hos : os.failure = .excluded)
    (hr : Config.Run .unshifted os c) :
    c.Integral ∧ ∀ e c', c.Permitted e → c.Honours .unshifted e → c.step e = some c' →
      c.Untouched c' e := by
  obtain ⟨g, hi, hready⟩ := hr.sound hos
  exact ⟨hi.integral fun hf => hf, fun e c' hp hh hs =>
    hi.untouched hready (fun hf => hf) hp hh hs⟩

/-- Two slots and a mapping, a write, a release by another thread and a reuse. -/
theorem heap_integrity_reuse : ∃ c, Config.Run .unshifted (bumpKernel 0 .excluded) c ∧
    c.live.map Block.ptr = [47319765008, 103154397184, 47319765056] ∧ c.Integral := by
  have hrun : ((Config.run .unshifted (bumpKernel 0 .excluded)
      [⟨1, .malloc 24⟩, ⟨1, .malloc 24⟩, ⟨1, .malloc 0x40000⟩, ⟨1, .write 47319765008 20 7⟩,
        ⟨2, .free 47319765008⟩, ⟨1, .malloc 17⟩]).map fun c => c.live.map Block.ptr) =
      some [47319765008, 103154397184, 47319765056] := by decide +kernel
  obtain ⟨c, hc, hlive⟩ := Option.map_eq_some_iff.mp hrun
  exact ⟨c, .of_run hc, hlive, (heap_integrity rfl (.of_run hc)).1⟩

end Semalloc
