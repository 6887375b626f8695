import Semalloc.Backend.Audit

/-!
# Remote frees and drains

A remote free pushes a block whether or not it was freed before. A first free lets the block wait.
A second free of a block that waits closes a loop, or puts a block that was lost behind a loop back
in front of it, and a second free of a block that was drained leaves nothing but that block. A drain
pops the waiting blocks one by one, and then finds the list empty or fails.

## Main definitions

* `Heap.push`: a block on the remote free list of a manager
* `Emptied`: what a drain leaves that returned

## Main results

* `Audited.pushLive`: a first free
* `Audited.pushAway`, `Audited.pushSpent`: a second free, after which the drain is going to fail
* `Audited.drainFreeList`: the drain returns or fails the double-free check, and it fails when a
  second free was pushed
-/

set_option autoImplicit false

namespace Semalloc

open ByteMemory Region Effect MemoryManager Config

variable {g g' : Ghost} {live live' away away' : List Block} {h h' : Heap} {B : Block}
  {D D' : ℕ → Prop} {m : MemoryManager} {m' : ByteMemory} {p t x y : ℕ} {l : List ℕ}

/-! ## The push -/

/-- The process with a block pushed on the remote free list of the manager `m` at `t`. -/
@[simps! -fullyApplied] def Heap.push (h : Heap) (t p : ℕ) (m : MemoryManager) : Heap :=
  (h.setMem (writeLE h.mem p 8 m.freeList)).setManager t { m with freeList := p }

theorem Heap.setManager_mute (hm : h.globalMemoryManager t = some m) (p : ℕ) :
    (h.setManager t { m with freeList := p }).mute = h.mute := by
  have hsame : ((h.setManager t { m with freeList := p }).mute).globalMemoryManager =
      h.mute.globalMemoryManager := by
    funext t'
    by_cases htt : t' = t
    · subst htt
      simp [mute, hm]
    · simp [mute, htt]
  exact congrArg (fun managers => { h with globalMemoryManager := managers }) hsame

theorem Heap.setManager_heads (m : MemoryManager) (p : ℕ) :
    (h.setManager t { m with freeList := p }).heads = Function.update h.heads t p := by
  funext t'
  by_cases htt : t' = t
  · subst htt
    simp [heads]
  · simp [heads, htt]

theorem Heap.push_mute (hm : h.globalMemoryManager t = some m) :
    (h.push t p m).mute = (h.setMem (writeLE h.mem p 8 m.freeList)).mute :=
  Heap.setManager_mute (h := h.setMem (writeLE h.mem p 8 m.freeList)) hm p

/-- The block at `p` is one of a manager, whether it was freed or not. -/
structure OfManager (g : Ghost) (m : ByteMemory) (t p : ℕ) : Prop where
  headerSize_le : headerSize ≤ p
  own : ∃ b, g.own (p - headerSize) = .slot b (p - headerSize)
  threadId : RegularHeader.threadId m (p - headerSize) = t

theorem SlotBlock.ofManager {b s : ℕ} {c : Compartment} {m : ByteMemory}
    (hp : SlotBlock .unshifted g.own g.reg m b c s p) : OfManager g m c.thread p := by
  have hhead : p - headerSize = s := by
    have := hp.whole.1
    omega
  refine ⟨?_, ⟨b, ?_⟩, hp.threadId⟩
  · have := hp.slot_le
    omega
  · rw [hhead]
    exact hp.own

namespace OfManager

variable {m : ByteMemory}

/-- The first bytes of the block are data of its slot. -/
theorem data (hp : OfManager g m t p) (hl : Layout g.own g.reg h) {a : ℕ} (h₁ : p ≤ a)
    (h₂ : a < p + 8) : ∃ b, g.own a = .slot b (p - headerSize) := by
  obtain ⟨b, ho⟩ := hp.own
  have hle := hp.headerSize_le
  exact ⟨b, hl.slot_head ho (by omega) (by simp only [headerSize] at *; omega)⟩

/-- A link written to the block changes no header. -/
theorem still (hp : OfManager g m t p) (hl : Layout g.own g.reg h) (v : ℕ) :
    Still g (fun _ => False) m (writeLE m p 8 v) := by
  rintro b s ho - a ⟨h₁, h₂⟩
  by_contra hne
  have hin : p ≤ a ∧ a < p + 8 := by
    by_contra hout
    exact hne (writeLE_of_outside (by omega))
  obtain ⟨b', ho'⟩ := hp.data hl hin.1 hin.2
  rw [hl.slot_head ho h₁ (by omega)] at ho'
  have hs := (Owner.slot.inj ho').2
  have hle := hp.headerSize_le
  simp only [headerSize] at hs hle
  omega

/-- A link written to the block changes no other link. -/
theorem link (hp : OfManager g m t p) (hl : Layout g.own g.reg h) (v : ℕ) {q t' : ℕ}
    (hq : OfManager g m t' q) (hne : q ≠ p) : link (writeLE m p 8 v) q = link m q := by
  refine readLE_congr fun a h₁ h₂ => ?_
  by_contra hchanged
  have hin : p ≤ a ∧ a < p + 8 := by
    by_contra hout
    exact hchanged (writeLE_of_outside (by omega))
  obtain ⟨b, ho⟩ := hp.data hl hin.1 hin.2
  obtain ⟨b', ho'⟩ := hq.data hl h₁ h₂
  rw [ho] at ho'
  have hs := (Owner.slot.inj ho').2
  have hle := hp.headerSize_le
  have hle' := hq.headerSize_le
  omega

end OfManager

/-- What a drain that returned leaves: nothing waits for the manager, and nothing was handed out. -/
structure Emptied (D : ℕ → Prop) (live : List Block) (t : ℕ) (h h' : Heap) : Prop where
  sound : ¬ D t
  served : h'.served = h.served
  tls : h'.tls = h.tls
  manager : ∃ m, h'.globalMemoryManager t = some m
  heads : h'.heads t = 0
  audited : ∃ g' away', Audited D g' away' live h' ∧ ∀ p, ¬ Waits away' h'.mem t p

/-- The process ended in a double-free check, and the heap is in order. -/
def Caught (live : List Block) (e : Halt) (h : Heap) : Prop :=
  e = .doubleFree ∧ ∃ g away, Inv .unshifted g (live ++ away) h.mute

namespace Audited

theorem layout (ha : Audited D g away live h) : Layout g.own g.reg h := by
  have hl := ha.inv.layout.relist h.heads
  rwa [Heap.mute_relist] at hl

/-- A waiting block is one of the manager it waits for. -/
theorem ofManager (ha : Audited D g away live h) (hp : Waits away h.mem t p) :
    OfManager g h.mem t p := by
  obtain ⟨A, hA, rfl, rfl⟩ := hp
  obtain ⟨b, c, s, hslot⟩ := ha.slots A hA
  have hof := hslot.block.ofManager
  rwa [← hslot.block.threadId] at hof

/-- The head of a remote free list is an address. -/
theorem head_lt (ha : Audited D g away live h) (t : ℕ) : h.heads t < 2 ^ 64 := by
  have hl := ha.layout
  have hin : ∀ p b, headerSize ≤ p → g.own (p - headerSize) = .slot b (p - headerSize) →
      p < 2 ^ 64 := fun p b hle ho => by
    have hown := hl.slot_head ho (a := p) (by omega) (by simp only [headerSize] at *; omega)
    have := (hl.userSpace p (hl.mapped p (by rw [hown]; simp))).2
    omega
  obtain ⟨l, y, hlist, -⟩ := ha.listed t
  cases l with
  | nil =>
    have hhead : h.heads t = y := hlist.segment
    rcases hlist.stop with ⟨hy, -⟩ | hy | ⟨b, c, hle, ho, -⟩
    · omega
    · cases hy
    · exact hhead ▸ hin y b hle ho
  | cons q l =>
    have hhead := hlist.segment.1
    have hof := ha.ofManager (hlist.waits q List.mem_cons_self)
    obtain ⟨b, ho⟩ := hof.own
    exact hhead ▸ hin q b hof.headerSize_le ho

/-- The blocks of a list keep their headers, and their links but for the block at `p`. -/
theorem push_bytes (ha : Audited D g away live h) (hp : OfManager g h.mem t p) (v : ℕ) {q t' : ℕ}
    (hq : OfManager g h.mem t' q) : SameHeader h.mem (writeLE h.mem p 8 v) (q - headerSize) ∧
      (q ≠ p → link (writeLE h.mem p 8 v) q = link h.mem q) := by
  obtain ⟨b, ho⟩ := hq.own
  exact ⟨hp.still ha.layout v b _ ho fun hf => hf, hp.link ha.layout v hq⟩

/-- **A push** on the list of one manager, which leaves the other lists alone. -/
theorem push (ha : Audited D g away live h) (hm : h.globalMemoryManager t = some m)
    (hp : OfManager g h.mem t p) (hinv : Inv .unshifted g (live' ++ away') h.mute)
    (hslots : ∀ A ∈ away', ∃ b c s, SlotLive .unshifted g.own g.reg g.use h.mem b c s A)
    (hsub : ∀ A ∈ away, A ∈ away') (hnew : ∀ A ∈ away', A.ptr ≠ p → A ∈ away)
    (hout : ∀ q, Outside (live' ++ away') q → Outside (live ++ away) q)
    (hD : ∀ t', t' ≠ t → D' t' → D t')
    (hlist : ∃ l y, Listed g away' (writeLE h.mem p 8 m.freeList) t p l y ∧ (D' t → y ≠ 0)) :
    Audited D' g away' live' (h.push t p m) := by
  have hl := ha.layout
  have hstill := hp.still hl m.freeList
  have hheads : (h.push t p m).heads = Function.update h.heads t p := Heap.setManager_heads m p
  have hchanged : ∀ a, writeLE h.mem p 8 m.freeList a ≠ h.mem a →
      ∃ b s, g.own a = .slot b s ∧ s + headerSize ≤ a := by
    intro a hne
    have hin : p ≤ a ∧ a < p + 8 := by
      by_contra hnot
      exact hne (writeLE_of_outside (by omega))
    obtain ⟨b, ho⟩ := hp.data hl hin.1 hin.2
    have hle := hp.headerSize_le
    exact ⟨b, _, ho, by omega⟩
  refine ⟨?_, ha.ready, fun A hA => ?_, ha.records, fun q e c he hc hq hq' => ?_, fun t' => ?_⟩
  · rw [Heap.push_mute hm]
    exact hinv.writeData hchanged
  · obtain ⟨b, c, s, hslot⟩ := hslots A hA
    have hsame := (ha.push_bytes hp m.freeList hslot.block.ofManager).1
    exact ⟨b, c, s, hslot.block.congr hsame, hslot.use, hslot.count_le, hslot.limit_le⟩
  · have hkept := ha.spent q e c he hc hq (hout q hq')
    obtain ⟨hle, b, ho, -⟩ := ha.slot_of_newest he hc hq
    exact hkept.still hstill hle ho fun hf => hf
  · rw [hheads]
    by_cases htt : t' = t
    · subst htt
      rw [Function.update_self]
      exact hlist
    · rw [Function.update_of_ne htt]
      obtain ⟨l, y, hlist', hy⟩ := ha.listed t'
      have hne : ∀ q, Waits away h.mem t' q → q ≠ p := by
        rintro q hq rfl
        exact htt ((ha.ofManager hq).threadId.symm.trans hp.threadId)
      refine ⟨l, y, hlist'.transport (fun q hq => ?_) (fun q _ A hA hA' => ⟨A, hsub A hA, hA'⟩)
        (fun q hq => ?_) fun hr => hr.still hstill (fun hf => hf) (.refl _ g h), fun hD' =>
        hy (hD t' htt hD')⟩
      · obtain ⟨hsame, hlink⟩ := ha.push_bytes hp m.freeList
          (ha.ofManager (hlist'.waits q hq))
        exact ⟨hsame, hlink (hne q (hlist'.waits q hq))⟩
      · obtain ⟨A, hA, rfl, hthread⟩ := hq
        obtain ⟨b, c, s, hslot⟩ := hslots A hA
        have hsame := (ha.push_bytes hp m.freeList hslot.block.ofManager).1
        have hthread' := hsame.threadId.symm.trans hthread
        refine ⟨A, hnew A hA ?_, rfl, hthread'⟩
        rintro rfl
        exact htt (hthread'.symm.trans hp.threadId)

/-- The list with a block in front that was not on it. -/
theorem push_front (ha : Audited D g away live h) (hp : OfManager g h.mem t p)
    (hlist : Listed g away h.mem t (h.heads t) l y) (hnot : p ∉ l)
    (hslots : ∀ A ∈ away', ∃ b c s, SlotLive .unshifted g.own g.reg g.use h.mem b c s A)
    (hsub : ∀ A ∈ away, A ∈ away') (hnew : ∀ A ∈ away', A.ptr ≠ p → A ∈ away)
    (hwaits : ∃ A ∈ away', A.ptr = p) :
    Listed g away' (writeLE h.mem p 8 (h.heads t)) t p (p :: l) y := by
  have hne : ∀ q ∈ l, q ≠ p := fun q hq hqp => hnot (hqp ▸ hq)
  have hbytes := fun q hq => ha.push_bytes hp (h.heads t) (ha.ofManager (hlist.waits q hq))
  have hpos : p ≠ 0 := by
    have := hp.headerSize_le
    simp only [headerSize] at this
    omega
  have hlink : link (writeLE h.mem p 8 (h.heads t)) p = h.heads t :=
    readLE_writeLE (by norm_num; exact ha.head_lt t)
  refine ⟨hlist.segment.push hpos hlink fun q hq => (hbytes q hq).2 (hne q hq),
    List.nodup_cons.mpr ⟨hnot, hlist.nodup⟩, fun q hq => ?_, ?_⟩
  · rcases List.mem_cons.mp hq with rfl | hq
    · obtain ⟨A, hA, hptr⟩ := hwaits
      have hthread := (ha.push_bytes hp (h.heads t) hp).1.threadId
      exact ⟨A, hA, hptr, hthread.trans hp.threadId⟩
    · obtain ⟨A, hA, hptr, hthread⟩ := hlist.waits q hq
      exact ⟨A, hsub A hA, hptr, (hbytes q hq).1.threadId.trans hthread⟩
  · refine hlist.stop.imp (fun hnull => ⟨hnull.1, fun q hq => ?_⟩)
      (Or.imp (List.mem_cons_of_mem p) fun hr => ?_)
    · obtain ⟨A, hA, rfl, hthread⟩ := hq
      by_cases hAp : A.ptr = p
      · exact hAp ▸ List.mem_cons_self
      · obtain ⟨b, c, s, hslot⟩ := hslots A hA
        have hsame := (ha.push_bytes hp (h.heads t) hslot.block.ofManager).1
        exact List.mem_cons_of_mem p
          (hnull.2 _ ⟨A, hnew A hA hAp, rfl, hsame.threadId.symm.trans hthread⟩)
    · exact hr.still (hp.still ha.layout _) (fun hf => hf) (.refl _ g h)

/-- **A first free**: the block starts to wait. -/
theorem pushLive (ha : Audited D g away live h) (hB : B ∈ live) {b s : ℕ} {c : Compartment}
    (hslot : SlotLive .unshifted g.own g.reg g.use h.mem b c s B)
    (hm : h.globalMemoryManager c.thread = some m) :
    Audited D g (B :: away) (dropLive live B.ptr) (h.push c.thread B.ptr m) := by
  have hp := hslot.block.ofManager
  have hheads : h.heads c.thread = m.freeList := Heap.heads_eq hm
  have hmem : ∀ A ∈ dropLive live B.ptr, A ∈ live ∧ A.ptr ≠ B.ptr := fun A hA => by
    simpa [dropLive] using hA
  have hslots : ∀ A ∈ B :: away,
      ∃ b c s, SlotLive .unshifted g.own g.reg g.use h.mem b c s A := by
    intro A hA
    rcases List.mem_cons.mp hA with rfl | hA
    · exact ⟨b, c, s, hslot⟩
    · exact ha.slots A hA
  have hnew : ∀ A ∈ B :: away, A.ptr ≠ B.ptr → A ∈ away := by
    intro A hA hne
    rcases List.mem_cons.mp hA with rfl | hA
    · exact absurd rfl hne
    · exact hA
  obtain ⟨l, y, hlist, hy⟩ := ha.listed c.thread
  have hnot : B.ptr ∉ l := fun hin => by
    obtain ⟨A, hA, hptr, -⟩ := hlist.waits _ hin
    exact ha.apart hB hA hptr
  refine ha.push hm hp ?_ hslots (fun A hA => List.mem_cons_of_mem B hA) hnew ?_
    (fun _ _ hD => hD) ⟨B.ptr :: l, y, ?_, hy⟩
  · refine ha.inv.setLive (fun A hA => ha.inv.contents.live A ?_) (fun A hA => ⟨A, ?_, rfl⟩) ?_
    iterate 2
      rcases List.mem_append.mp hA with hA | hA
      · exact List.mem_append_left _ (hmem A hA).1
      · rcases List.mem_cons.mp hA with rfl | hA
        · exact List.mem_append_left _ hB
        · exact List.mem_append_right _ hA
    · have hperm : List.Perm (dropLive live B.ptr ++ B :: away)
          (B :: dropLive (live ++ away) B.ptr) := by
        rw [ha.dropLive_live hB]
        exact List.perm_middle
      rw [(hperm.map Block.ptr).nodup_iff, List.map_cons, List.nodup_cons]
      refine ⟨fun hin => ?_, ha.inv.contents.liveNodup.sublist (List.filter_sublist.map _)⟩
      obtain ⟨A, hA, hptr⟩ := List.mem_map.mp hin
      simp [dropLive, hptr] at hA
  · intro q hq A hA
    rcases List.mem_append.mp hA with hA | hA
    · by_cases heq : A.ptr = B.ptr
      · rw [heq]
        exact hq B (List.mem_append_right _ List.mem_cons_self)
      · exact hq A (List.mem_append_left _ (List.mem_filter.mpr ⟨hA, by simpa using heq⟩))
    · exact hq A (List.mem_append_right _ (List.mem_cons_of_mem B hA))
  · rw [← hheads]
    exact ha.push_front hp hlist hnot hslots (fun A hA => List.mem_cons_of_mem B hA) hnew
      ⟨B, List.mem_cons_self, rfl⟩

/-- A list does not end at the null link when a waiting block is missing from it. -/
theorem stop_ne_zero (ha : Audited D g away live h) {q : ℕ}
    (hlist : Listed g away h.mem t (h.heads t) l y) (hq : Waits away h.mem t q) (hnot : q ∉ l) :
    y ≠ 0 := by
  rcases hlist.stop with ⟨-, hall⟩ | hy | hr
  · exact absurd (hall q hq) hnot
  · rintro rfl
    have := (ha.ofManager (hlist.waits 0 hy)).headerSize_le
    simp [headerSize] at this
  · exact hr.pos

/-- **A second free** of a block that waits, or that was lost behind a loop. -/
theorem pushAway (ha : Audited D g away live h) (hB : B ∈ away) {b s : ℕ} {c : Compartment}
    (hslot : SlotLive .unshifted g.own g.reg g.use h.mem b c s B)
    (hm : h.globalMemoryManager c.thread = some m) :
    Audited (fun t => D t ∨ t = c.thread) g away live (h.push c.thread B.ptr m) := by
  have hp := hslot.block.ofManager
  have hwaits : Waits away h.mem c.thread B.ptr := ⟨B, hB, rfl, hslot.block.threadId⟩
  have hheads : h.heads c.thread = m.freeList := Heap.heads_eq hm
  refine ha.push hm hp ha.inv ha.slots (fun _ hA => hA) (fun _ hA _ => hA) (fun _ hq => hq)
    (fun t' ht hD => hD.resolve_right ht) ?_
  rw [← hheads]
  obtain ⟨l, y, hlist, -⟩ := ha.listed c.thread
  by_cases hin : B.ptr ∈ l
  · have hpos : B.ptr ≠ 0 := by
      have := hp.headerSize_le
      simp only [headerSize] at this
      omega
    have hlink : link (writeLE h.mem B.ptr 8 (h.heads c.thread)) B.ptr = h.heads c.thread :=
      readLE_writeLE (by norm_num; exact ha.head_lt c.thread)
    have hbytes := fun q hq =>
      ha.push_bytes hp (h.heads c.thread) (ha.ofManager (hlist.waits q hq))
    obtain ⟨l', hsub, hnodup, hseg⟩ := hlist.segment.loop hlist.nodup hin hpos hlink
      fun q hq hne => (hbytes q hq).2 hne
    refine ⟨B.ptr :: l', B.ptr, ⟨hseg, hnodup, fun q hq => ?_, .inr (.inl List.mem_cons_self)⟩,
      fun _ => hpos⟩
    obtain ⟨A, hA, hptr, hthread⟩ := hlist.waits q (hsub hq)
    exact ⟨A, hA, hptr, (hbytes q (hsub hq)).1.threadId.trans hthread⟩
  · exact ⟨B.ptr :: l, y, ha.push_front hp hlist hin ha.slots (fun _ hA => hA)
      (fun _ hA _ => hA) ⟨B, hB, rfl⟩, fun _ => ha.stop_ne_zero hlist hwaits hin⟩

/-- **A second free** of a block that was given back. -/
theorem pushSpent (ha : Audited D g away live h) (hm : h.globalMemoryManager t = some m)
    (hr : Rejected g h.mem t p) (ht : RegularHeader.threadId h.mem (p - headerSize) = t) :
    Audited (fun t' => D t' ∨ t' = t) g away live (h.push t p m) := by
  obtain ⟨b, c, hle, ho, -⟩ := id hr
  have hp : OfManager g h.mem t p := ⟨hle, ⟨b, ho⟩, ht⟩
  refine ha.push hm hp ha.inv ha.slots (fun _ hA => hA) (fun _ hA _ => hA) (fun _ hq => hq)
    (fun t' ht hD => hD.resolve_right ht) ⟨[], p, ⟨rfl, List.nodup_nil, ?_, ?_⟩, fun _ => hr.pos⟩
  · simp
  · exact .inr (.inr (hr.still (hp.still ha.layout _) (fun hf => hf) (.refl _ g h)))

/-! ## The drain -/

/-- **A block is popped** and given back to its BIBOP. -/
theorem popped (ha : Audited D g away live h) {b s : ℕ} {c : Compartment}
    (hslot : SlotLive .unshifted g.own g.reg g.use h.mem b c s B)
    (hlist : Listed g away h.mem c.thread (h.heads c.thread) (B.ptr :: l) y)
    (hy : D c.thread → y ≠ 0)
    (hafter : After .unshifted (· = B.ptr) g h.mute (live ++ dropLive away B.ptr) g' h'.mute)
    (hf : Freed h.mute b s (slotSize c.sizeClass) h'.mute)
    (hheads : h'.heads = Function.update h.heads c.thread (link h.mem B.ptr)) :
    Audited D g' (dropLive away B.ptr) live h' ∧
      Listed g' (dropLive away B.ptr) h'.mem c.thread (h'.heads c.thread) l y := by
  have hl := ha.layout
  have hs := hl.slotRange_of_reg hslot.block.own hslot.block.reg
  have hsize := slotSize_ge c.sizeClass
  obtain ⟨hptr, -, halloc, -⟩ := hslot.block.whole
  have hstill : Still g (· = B.ptr) h.mem h'.mem := by
    have hkept := hf.still ha.inv.layout hs
    rwa [← hptr] at hkept
  have hmem : ∀ A ∈ dropLive away B.ptr, A ∈ away ∧ A.ptr ≠ B.ptr := fun A hA => by
    simpa [dropLive] using hA
  have hkeep : ∀ A ∈ away, A.ptr ≠ B.ptr → A ∈ dropLive away B.ptr := fun A hA hne =>
    List.mem_filter.mpr ⟨hA, by simpa using hne⟩
  have hbytes : ∀ A ∈ away, A.ptr ≠ B.ptr → SameHeader h.mem h'.mem (A.ptr - headerSize) ∧
      link h'.mem A.ptr = link h.mem A.ptr := fun A hA hne => by
    obtain ⟨b', c', s', hslot'⟩ := ha.slots A hA
    have hkept := hslot'.bytes ha.inv.layout hafter.grows hne
    exact hkept
  have hgrows := hafter.grows.mono (y := fun _ => True) fun _ _ => trivial
  have hreject : ∀ {t z}, Rejected g h.mem t z → Rejected g' h'.mem t z := by
    rintro t z hr
    refine hr.still hstill ?_ hgrows
    rintro rfl
    obtain ⟨b', c', -, -, -, -, hbit⟩ := hr
    rw [hbit] at halloc
    cases halloc
  -- a list that the popped block is not on
  have hrest : ∀ {t head z l'}, Listed g away h.mem t head l' z → B.ptr ∉ l' →
      Listed g' (dropLive away B.ptr) h'.mem t head l' z := by
    intro t head z l' hlist' hnot
    refine hlist'.transport (fun q hq => ?_) (fun q hq A hA hA' => ?_) (fun q hq => ?_) hreject
    · obtain ⟨A, hA, rfl, -⟩ := hlist'.waits q hq
      exact hbytes A hA fun he => hnot (he ▸ hq)
    · exact ⟨A, hkeep A hA fun he => hnot (by rw [← he, hA']; exact hq), hA'⟩
    · obtain ⟨A, hA, rfl, hthread⟩ := hq
      obtain ⟨hA', hne⟩ := hmem A hA
      exact ⟨A, hA', rfl, (hbytes A hA' hne).1.threadId.symm.trans hthread⟩
  obtain ⟨hnot, hnodup⟩ := List.nodup_cons.mp hlist.nodup
  have hpopped : Listed g' (dropLive away B.ptr) h'.mem c.thread (link h.mem B.ptr) l y := by
    have hseg := hlist.segment.2.2
    refine ⟨hseg.congr fun q hq => ?_, hnodup, fun q hq => ?_, ?_⟩
    · obtain ⟨A, hA, rfl, -⟩ := hlist.waits q (List.mem_cons_of_mem _ hq)
      exact (hbytes A hA fun he => hnot (he ▸ hq)).2
    · obtain ⟨A, hA, rfl, hthread⟩ := hlist.waits q (List.mem_cons_of_mem _ hq)
      have hne : A.ptr ≠ B.ptr := fun he => hnot (he ▸ hq)
      exact ⟨A, hkeep A hA hne, rfl, (hbytes A hA hne).1.threadId.trans hthread⟩
    · rcases hlist.stop with ⟨hz, hall⟩ | hin | hr
      · refine .inl ⟨hz, fun q hq => ?_⟩
        obtain ⟨A, hA, rfl, hthread⟩ := hq
        obtain ⟨hA', hne⟩ := hmem A hA
        have hin := hall A.ptr
          ⟨A, hA', rfl, (hbytes A hA' hne).1.threadId.symm.trans hthread⟩
        exact (List.mem_cons.mp hin).resolve_left hne
      · rcases List.mem_cons.mp hin with rfl | hin
        · -- the loop leads back to the block that is now free
          refine .inr (.inr ⟨b, c, ?_, ?_, hgrows.reg b c hslot.block.reg, rfl, ?_⟩)
          · omega
          · rw [hptr, Nat.add_sub_cancel]
            exact hgrows.slot _ _ _ hslot.block.own
          · have hspent := (hf.spent (by simp only [headerSize]; omega)).idle
            rwa [← hptr] at hspent
        · exact .inr (.inl hin)
      · exact .inr (.inr (hreject hr))
  have hhead : h'.heads c.thread = link h.mem B.ptr := by rw [hheads, Function.update_self]
  refine ⟨⟨hafter.inv, hafter.ready, fun A hA => ?_, ?_, fun q e k he hk hq hout => ?_,
    fun t => ?_⟩, by rw [hhead]; exact hpopped⟩
  · obtain ⟨hA', hne⟩ := hmem A hA
    obtain ⟨b', c', s', hslot'⟩ := ha.slots A hA'
    have hgrown : SlotLive .unshifted g'.own g'.reg g'.use h'.mute.mem b' c' s' A :=
      SlotLive.grows (h := h.mute) hslot' ha.inv.layout hafter.grows hne
    exact ⟨b', c', s', hgrown⟩
  · rw [show h'.served = h.served from hf.served]
    exact ha.records
  · refine ha.spent_of_freed hslot hf he hk hq fun hne A hA => ?_
    rcases List.mem_append.mp hA with hA | hA
    · exact hout A (List.mem_append_left _ hA)
    · rintro rfl
      exact hout A (List.mem_append_right _ (hkeep A hA hne)) rfl
  · by_cases ht : t = c.thread
    · subst ht
      exact ⟨l, y, by rw [hhead]; exact hpopped, hy⟩
    · obtain ⟨l', z, hlist', hz⟩ := ha.listed t
      refine ⟨l', z, ?_, hz⟩
      rw [hheads, Function.update_of_ne ht]
      refine hrest hlist' fun hin => ht ?_
      exact (ha.ofManager (hlist'.waits _ hin)).threadId.symm.trans hslot.block.threadId

theorem list_length (ha : Audited D g away live h) {head : ℕ}
    (hlist : Listed g away h.mem t head l y) : l.length < 2 ^ 64 := by
  have hl := ha.layout
  have hsub : l ⊆ List.range (2 ^ 63) := by
    intro p hp
    have hof := ha.ofManager (hlist.waits p hp)
    obtain ⟨b, ho⟩ := hof.data hl (a := p) le_rfl (by omega)
    exact List.mem_range.mpr (hl.userSpace p (hl.mapped p (by rw [ho]; simp))).2
  have hlen := (List.Nodup.subperm hlist.nodup hsub).length_le
  rw [List.length_range] at hlen
  omega

/-- The drain fails at a slot whose block was given back. -/
theorem drainFreeList_rejected {n : ℕ} {post : Unit → Heap → Prop}
    (ha : Audited D g away live h) (hm : h.globalMemoryManager t = some m)
    (hr : Rejected g h.mem t m.freeList) :
    Runs (drainFreeList t (n + 1)) h post (Caught live) := by
  have hl := ha.layout
  have hpos := hr.pos
  obtain ⟨b, c, hle, ho, hc, -, hbit⟩ := hr
  have hs := hl.slotRange_of_reg ho hc
  have hsize := slotSize_ge c.sizeClass
  have hcov : covers h.maps m.freeList 8 = true :=
    hl.slot_covers hs (by omega) (by simp only [headerSize] at *; omega)
  have hcov' : covers h.maps (m.freeList - headerSize) headerSize = true :=
    hl.slot_covers hs le_rfl (by simp only [headerSize] at *; omega)
  have hmute : (h.setManager t { m with freeList := readLE h.mem m.freeList 8 }).mute = h.mute :=
    Heap.setManager_mute hm _
  unfold drainFreeList
  refine Runs.after_spec (getManager_spec hm ?_)
  dsimp only
  refine Runs.ite (fun hz => absurd hz hpos) fun _ => ?_
  refine Runs.after_spec (peek_spec (.inl hcov) fun _ => ?_)
  refine Runs.after_spec (setManager_spec ?_)
  refine Runs.after_spec (peek_spec (.inl hcov') fun _ => ?_)
  simp only [Heap.setManager_mem, hbit, Bool.not_false, if_true]
  refine Runs.bind (Runs.throw ⟨rfl, g, away, ?_⟩)
  rw [hmute]
  exact ha.inv

/-- In the muted process a popped block leaves the live ones, and its slot is given back. -/
theorem give_back (ha : Audited D g away live h) (hB : B ∈ away) {b s : ℕ} {c : Compartment}
    {S : SingleBIBOP} {m₁ : ByteMemory}
    (hslot : SlotLive .unshifted g.own g.reg g.use h.mem b c s B) (hS : h.bibops b = some S)
    (hm₁ : Released h.mem m₁ s (slotSize c.sizeClass) S.freeList) :
    ∃ g', After .unshifted (· = B.ptr) g h.mute (live ++ dropLive away B.ptr) g'
      ((h.mute.setMem (RegularHeader.setFree m₁ s)).setBIBOP b { S with freeList := s }) := by
  have hslot' : SlotLive .unshifted g.own g.reg g.use h.mute.mem b c s B := hslot
  have hS' : h.mute.bibops b = some S := hS
  have hm₁' : Released h.mute.mem m₁ s (slotSize c.sizeClass) S.freeList := hm₁
  have hdrop := ha.inv.dropSlot hslot'
  rw [ha.dropLive_away hB] at hdrop
  have hk : ¬ Promise.unshifted.kept c := fun hf => hf
  obtain ⟨hi, hg⟩ := hdrop.release hS' hslot.block.own hslot.block.reg (by simp) hk hm₁'
  refine ⟨_, hi, ?_, (Grows.dropSlot hslot').trans (hg.mono fun _ hf => hf.elim)⟩
  exact Ready.setBIBOP (h := h.mute.setMem _) ha.ready (ha.ready b S hS)

/-- The drain pops the block at the head. -/
theorem drainFreeList_waiting {n : ℕ} {post : Unit → Heap → Prop}
    (ha : Audited D g away live h) (hm : h.globalMemoryManager t = some m) (hB : B ∈ away)
    (hptr : B.ptr = m.freeList) (hthread : RegularHeader.threadId h.mem (B.ptr - headerSize) = t)
    (hlist : Listed g away h.mem t (h.heads t) (B.ptr :: l) y) (hy : D t → y ≠ 0)
    (hrest : ∀ g' h', Audited D g' (dropLive away B.ptr) live h' →
      Listed g' (dropLive away B.ptr) h'.mem t (h'.heads t) l y →
      (∃ m', h'.globalMemoryManager t = some m') → h'.served = h.served → h'.tls = h.tls →
      Runs (drainFreeList t n) h' post (Caught live)) :
    Runs (drainFreeList t (n + 1)) h post (Caught live) := by
  obtain ⟨b, c, s, hslot⟩ := ha.slots B hB
  have hblock := hslot.block
  obtain rfl : c.thread = t := hblock.threadId.symm.trans hthread
  have hi := ha.inv
  have hs := ha.layout.slotRange_of_reg hblock.own hblock.reg
  have hle := hblock.slot_le
  have hle' := hblock.le_slot
  have hcov := hblock.head_covers ha.layout
  have hcov' : covers h.maps B.ptr 8 = true :=
    ha.layout.slot_covers hs (by omega) (by simp only [headerSize] at *; omega)
  obtain ⟨hstart, hregular, halloc, -⟩ := hblock.whole
  have hhead : B.ptr - headerSize = s := by omega
  have hbibop := hblock.bibop
  rw [hhead] at hcov hregular halloc hbibop
  obtain ⟨S, hS, -⟩ := ha.layout.bibop b c hblock.reg
  have hnext := hi.freeList_lt (h := h.mute) hS
  have hmute : (h.setManager c.thread { m with freeList := readLE h.mem B.ptr 8 }).mute =
      h.mute := Heap.setManager_mute hm _
  have hl₁ := ha.layout.setManager hm
    (ManagerOk.setFreeList (y := readLE h.mem B.ptr 8) (ha.layout.manager _ m hm))
  unfold drainFreeList
  refine Runs.after_spec (getManager_spec hm ?_)
  dsimp only
  rw [← hptr]
  refine Runs.ite (fun hz => ?_) fun _ => ?_
  · simp only [headerSize] at hle
    omega
  rw [hhead]
  refine Runs.after_spec (peek_spec (.inl hcov') fun _ => ?_)
  refine Runs.after_spec (setManager_spec ?_)
  refine Runs.after_spec (peek_spec (.inl hcov) fun _ => ?_)
  simp only [Heap.setManager_mem, halloc, Bool.not_true, Bool.false_eq_true, if_false]
  refine Runs.after_spec (peek_spec (.inl hcov) fun _ => ?_)
  refine Runs.after_spec (peek_spec (.inl hcov) fun _ => ?_)
  simp only [Heap.setManager_mem, hregular, Bool.not_true, Bool.false_eq_true, if_false, hbibop]
  refine Runs.after_spec (freeObject_spec hl₁ hs hS hnext fun m₁ hm₁ => ?_)
  refine Runs.after_spec (poke_spec (.inl hcov) fun _ => ?_)
  have hmute' : ((((h.setManager c.thread { m with freeList := readLE h.mem B.ptr 8 }).setMem
      (RegularHeader.setFree m₁ s)).setBIBOP b { S with freeList := s }).mute) =
      (h.mute.setMem (RegularHeader.setFree m₁ s)).setBIBOP b { S with freeList := s } := by
    rw [← hmute]
    rfl
  obtain ⟨g', hafter⟩ := ha.give_back hB hslot hS hm₁
  rw [← hmute'] at hafter
  have hf : Freed h.mute b s (slotSize c.sizeClass) _ := ⟨S, m₁, hS, hm₁, hmute'⟩
  have hheads := Heap.setManager_heads (h := h) (t := c.thread) m (readLE h.mem B.ptr 8)
  obtain ⟨ha', hlist'⟩ := ha.popped hslot hlist hy hafter hf hheads
  exact hrest g' _ ha' hlist' ⟨_, Function.update_self _ _ _⟩ rfl rfl

/-- **The drain** pops the waiting blocks, and returns or fails the double-free check. -/
theorem drainFreeList {n : ℕ} (ha : Audited D g away live h)
    (hm : h.globalMemoryManager t = some m) (hlist : Listed g away h.mem t (h.heads t) l y)
    (hy : D t → y ≠ 0) (hn : l.length < n) :
    Runs (drainFreeList t n) h (fun _ h' => Emptied D live t h h') (Caught live) := by
  induction n generalizing g away h m l with
  | zero => omega
  | succ n ih =>
    have hhead : h.heads t = m.freeList := Heap.heads_eq hm
    cases l with
    | nil =>
      have hstop : m.freeList = y := hhead.symm.trans hlist.segment
      rcases hlist.stop with ⟨rfl, hall⟩ | hin | hr
      · -- the list is empty
        unfold MemoryManager.drainFreeList
        refine Runs.after_spec (getManager_spec hm ?_)
        refine Runs.ite (fun _ => Runs.pure ?_) fun hne => absurd hstop hne
        refine ⟨fun hD => hy hD rfl, rfl, rfl, ⟨m, hm⟩, by rw [hhead, hstop], g, away, ha, ?_⟩
        exact fun p hp => by cases hall p hp
      · cases hin
      · exact ha.drainFreeList_rejected hm (by rwa [hstop])
    | cons q l =>
      obtain ⟨B, hB, rfl, hthread⟩ := hlist.waits q List.mem_cons_self
      have hptr : B.ptr = m.freeList := hlist.segment.1.symm.trans hhead
      refine ha.drainFreeList_waiting hm hB hptr hthread hlist hy ?_
      rintro g' h' ha' hlist' ⟨m', hm'⟩ hserved htls
      refine (ih ha' hm' hlist' (by simpa using hn)).imp fun _ h'' he => ?_
      exact ⟨he.sound, he.served.trans hserved, he.tls.trans htls, he.manager, he.heads,
        he.audited⟩

/-- **`handleFreeList`** in a process with blocks freed twice. -/
theorem handleFreeList (ha : Audited D g away live h) (hm : h.globalMemoryManager t = some m) :
    Runs (handleFreeList t) h (fun _ h' => Emptied D live t h h') (Caught live) := by
  obtain ⟨l, y, hlist, hy⟩ := ha.listed t
  exact ha.drainFreeList hm hlist hy (ha.list_length hlist)

end Audited

end Semalloc
