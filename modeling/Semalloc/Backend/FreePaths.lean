import Semalloc.Backend.BIBOPSpec

/-!
# The two ways to free a slot

A thread frees its own blocks with `freeRegularMemory`. A block of another thread is pushed on its
owner's list by `freeOtherThreadMemory`, and the owner frees it in `handleFreeList`. The first
subtracts the header's `memalign_offset` from the pointer to find the slot, the second takes the
header for the start of the slot.

## Main definitions

* `InUse`: what a header tells about a block in a slot, whatever its offset
* `freeRemotely`: the push and the drain
* `SameRelease`: two processes in which a BIBOP and a control byte are the same
* `PathsAgree`: both ways to free a block return and leave the same

## Main results

* `free_paths_agree`: the two ways agree just when the header's offset is zero
-/

set_option autoImplicit false

namespace Semalloc

open ByteMemory Region Effect MemoryManager

/-- The slot at `s` of the BIBOP at `b` is in use for the block at `ptr`, as the header before
`ptr` tells: it has the allocation bit, and an offset that leads back to the slot. The free slots
of the BIBOP lie elsewhere. -/
structure InUse (h : Heap) (b s ptr : ℕ) (B : SingleBIBOP) (frees : List ℕ) : Prop where
  bibop : h.bibops b = some B
  header : RegularHeader.bibop h.mem (ptr - headerSize) = b
  regular : RegularHeader.isRegular h.mem (ptr - headerSize) = true
  allocation : RegularHeader.isAllocation h.mem (ptr - headerSize) = true
  offset : ptr = s + headerSize + RegularHeader.memalignOffset h.mem (ptr - headerSize)
  pos : 0 < s
  room : ptr + 8 ≤ s + B.objectSize
  top : s + B.objectSize ≤ 2 ^ 64
  mapped : covers h.maps s B.objectSize = true
  head_lt : B.freeList < 2 ^ 64
  chain : Chain (link h.mem) B.freeList frees
  apart : ∀ x ∈ frees, x + 8 ≤ s ∨ s + B.objectSize ≤ x

/-- The block is pushed on its owner's list, and the owner drains the list. -/
def freeRemotely (this ptr : ℕ) : Proc Unit := do
  freeOtherThreadMemory this ptr
  handleFreeList this

/-- The BIBOP at `b`, its free list and the control byte of the header are the same. -/
structure SameRelease (b header : ℕ) (h h' : Heap) : Prop where
  bibop : h.bibops b = h'.bibops b
  contents : ∀ B, h.bibops b = some B →
    ∃ l, Chain (link h.mem) B.freeList l ∧ Chain (link h'.mem) B.freeList l
  controlByte : RegularHeader.controlByte h.mem header = RegularHeader.controlByte h'.mem header

/-- The owner frees the block itself in `h`, or drains it in `h₁`; both return, and leave the
BIBOP and the control byte alike. -/
def PathsAgree (this b ptr : ℕ) (h h₁ : Heap) : Prop :=
  ∃ h₂ h₃, freeRegularMemory this ptr h = .ok () h₂ ∧ freeRemotely this ptr h₁ = .ok () h₃ ∧
    SameRelease b (ptr - headerSize) h₂ h₃

variable {h h₁ h' : Heap} {this b s ptr : ℕ} {B : SingleBIBOP} {frees : List ℕ}
  {m : MemoryManager} {post : Unit → Heap → Prop} {halt : Halt → Prop}

/-! ## The parts of the two paths -/

/-- The memory after a slot of a BIBOP was linked at the head of the free list: large slots have
whole pages of their data zeroed. -/
def linkSlot (m : ByteMemory) (x size head : ℕ) : ByteMemory :=
  if size ≥ memoryReleaseThreshold ∧ (x + headerSize) % pageSize = 0 then
    fill (writeLE m x 8 head) (x + headerSize) (pageCeil ((size >>> pageSizeBit) <<< pageSizeBit)) 0
  else writeLE m x 8 head

/-- The process after `freeObject`. -/
def freeSlotAt (h : Heap) (b x : ℕ) (B : SingleBIBOP) : Heap :=
  (h.setMem (linkSlot h.mem x B.getObjectSize B.freeList)).setBIBOP b { B with freeList := x }

theorem freeObject_at {x : ℕ} (hB : h.bibops b = some B) (hcov : covers h.maps x 8 = true)
    (hp : post () (freeSlotAt h b x B)) : Spec (SingleBIBOP.freeObject b x) h post halt := by
  unfold SingleBIBOP.freeObject
  refine Spec.bind (getBIBOP_spec hB ?_)
  refine Spec.bind (poke_spec (.inl hcov) fun _ => ?_)
  refine Spec.bind (setBIBOP_spec ?_)
  refine Spec.ite (fun hlarge => madvise_spec (fun hpage => ?_) fun hpage => ?_) fun hsmall =>
    Spec.pure ?_
  · rw [freeSlotAt, linkSlot, if_pos ⟨hlarge, hpage⟩] at hp
    exact hp
  · rw [freeSlotAt, linkSlot, if_neg fun hboth => hpage hboth.2] at hp
    exact hp
  · rw [freeSlotAt, linkSlot, if_neg fun hboth => hsmall hboth.1] at hp
    exact hp

/-- A drain that returned leaves an empty list. -/
theorem handleFreeList_empties : Spec (handleFreeList this) h
    (fun _ h' => ∃ m, h'.globalMemoryManager this = some m ∧ m.freeList = 0) fun _ => True := by
  unfold handleFreeList
  generalize 2 ^ 64 = n
  induction n generalizing h with
  | zero => exact Spec.throw trivial
  | succ n ih =>
    unfold drainFreeList
    cases hm : h.globalMemoryManager this with
    | none =>
      have hnone : Spec (getManager this) h (fun _ _ => False) fun _ => True :=
        getManager_unmanaged hm
      exact Spec.seq hnone fun _ _ hf => hf.elim
    | some m =>
      refine Spec.bind (getManager_spec hm ?_)
      dsimp only
      refine Spec.ite (fun hempty => Spec.pure ⟨m, hm, hempty⟩) fun _ => ?_
      -- whatever the first block does, the rest of the list is drained after it
      refine Spec.seq Spec.trivial fun _ _ _ => ?_
      refine Spec.seq Spec.trivial fun _ _ _ => ?_
      refine Spec.seq Spec.trivial fun _ _ _ => ?_
      refine Spec.ite (fun _ => Spec.bind (Spec.throw trivial)) fun _ => ?_
      refine Spec.seq Spec.trivial fun _ _ _ => ?_
      refine Spec.seq Spec.trivial fun _ _ _ => ?_
      refine Spec.ite (fun _ => ?_) fun _ => ?_
      · exact Spec.seq Spec.trivial fun _ _ _ => Spec.seq Spec.trivial fun _ _ _ => ih
      · exact Spec.seq Spec.trivial fun _ _ _ => Spec.seq Spec.trivial fun _ _ _ => ih

/-! ## Where the paths lead -/

namespace InUse

theorem slot_lt (hu : InUse h b s ptr B frees) : s + headerSize ≤ ptr := by
  have := hu.offset
  omega

theorem header_covers (hu : InUse h b s ptr B frees) :
    covers h.maps (ptr - headerSize) headerSize = true := by
  have hle := hu.slot_lt
  have hroom := hu.room
  have hsize : headerSize = 16 := rfl
  exact covers_iff.mpr fun a h₁ h₂ => covers_iff.mp hu.mapped a (by omega) (by omega)

theorem covers_word (hu : InUse h b s ptr B frees) {x : ℕ} (hx : s ≤ x) (hend : x ≤ ptr) :
    covers h.maps x 8 = true := by
  have hroom := hu.room
  exact covers_iff.mpr fun a h₁ h₂ => covers_iff.mp hu.mapped a (by omega) (by omega)

/-- The block is still in use when another manager's list, or the block's data, has changed. -/
theorem congr (hu : InUse h b s ptr B frees) (hbibops : h'.bibops = h.bibops)
    (hmaps : h'.maps = h.maps)
    (hmem : ∀ a, a < ptr ∨ s + B.objectSize ≤ a → h'.mem a = h.mem a) :
    InUse h' b s ptr B frees := by
  have hsize : headerSize = 16 := rfl
  have hle := hu.slot_lt
  have hroom := hu.room
  have hhead : ∀ n k, n + k ≤ headerSize →
      readLE h'.mem (ptr - headerSize + n) k = readLE h.mem (ptr - headerSize + n) k :=
    fun n k hn => readLE_congr fun a h₁ h₂ => hmem a (by omega)
  have hcontrol : RegularHeader.controlByte h'.mem (ptr - headerSize) =
      RegularHeader.controlByte h.mem (ptr - headerSize) := hmem _ (by omega)
  refine ⟨by rw [hbibops, hu.bibop], (hhead 0 8 (by omega)).trans hu.header, ?_, ?_, ?_, hu.pos,
    hu.room, hu.top, by rw [hmaps]; exact hu.mapped, hu.head_lt, ?_, hu.apart⟩
  · rw [RegularHeader.isRegular, hcontrol]
    exact hu.regular
  · rw [RegularHeader.isAllocation, hcontrol]
    exact hu.allocation
  · rw [RegularHeader.memalignOffset, hhead 8 4 (by omega)]
    exact hu.offset
  · refine hu.chain.congr fun x hx => readLE_congr fun a h₁ h₂ => hmem a ?_
    have := hu.apart x hx
    omega

end InUse

/-- A slot and a header after `freeObject` of the slot at `x` and `setFree` of the header. -/
def freedAt (h : Heap) (b x header : ℕ) (B : SingleBIBOP) : Heap :=
  (freeSlotAt h b x B).setMem
    (RegularHeader.setFree (freeSlotAt h b x B).mem header)

/-- **The local path** frees the slot that the offset leads to. -/
theorem freeRegularMemory_at (hdrain : handleFreeList this h = .ok () h₁)
    (hu : InUse h₁ b s ptr B frees) (hp : post () (freedAt h₁ b s (ptr - headerSize) B)) :
    Spec (freeRegularMemory this ptr) h post halt := by
  have hsize : headerSize = 16 := rfl
  have hle := hu.slot_lt
  have hcov := hu.header_covers
  have hslot : ptr - headerSize - RegularHeader.memalignOffset h₁.mem (ptr - headerSize) = s := by
    have := hu.offset
    omega
  have hdrained : Spec (handleFreeList this) h (fun _ t => t = h₁) halt := by
    unfold Spec
    rw [hdrain]
  unfold freeRegularMemory
  refine Spec.seq hdrained ?_
  rintro - _ rfl
  refine Spec.ite (fun hz => absurd hz (by omega)) fun _ => ?_
  dsimp only
  refine Spec.bind (peek_spec (.inl hcov) fun _ => ?_)
  rw [if_neg (by rw [hu.allocation]; decide)]
  refine Spec.bind (peek_spec (.inl hcov) fun _ => ?_)
  refine Spec.bind (peek_spec (.inl hcov) fun _ => ?_)
  refine Spec.bind (peek_spec (.inl hcov) fun _ => ?_)
  rw [if_neg (by rw [hu.regular]; decide), hslot, hu.header]
  refine Spec.bind (freeObject_at hu.bibop (hu.covers_word le_rfl (by omega)) ?_)
  exact poke_spec (.inl hcov) fun _ => hp

/-- The process after the push of a block on an empty list. -/
def pushed (h : Heap) (this ptr : ℕ) (m : MemoryManager) : Heap :=
  (h.setMem (writeLE h.mem ptr 8 0)).setManager this { m with freeList := ptr }

/-- **The remote path** takes the header for the start of the slot. -/
theorem freeRemotely_at (hm : h.globalMemoryManager this = some m) (hempty : m.freeList = 0)
    (hu : InUse h b s ptr B frees)
    (hp : post () (freedAt ((pushed h this ptr m).setManager this { m with freeList := 0 }) b
      (ptr - headerSize) (ptr - headerSize) B)) :
    Spec (freeRemotely this ptr) h post halt := by
  have hsize : headerSize = 16 := rfl
  have hle := hu.slot_lt
  have hroom := hu.room
  have hlink : readLE (writeLE h.mem ptr 8 0) ptr 8 = 0 := readLE_writeLE (by norm_num)
  unfold freeRemotely freeOtherThreadMemory
  refine Spec.bind (Spec.bind (getManager_spec hm ?_))
  rw [hempty]
  refine Spec.bind (poke_spec (.inl (hu.covers_word (by omega) le_rfl)) fun _ => ?_)
  refine setManager_spec ?_
  -- the drain finds the block at the head of the list
  have hm₁ : (pushed h this ptr m).globalMemoryManager this = some { m with freeList := ptr } :=
    Function.update_self _ _ _
  have hu₁ : InUse (pushed h this ptr m) b s ptr B frees := hu.congr rfl rfl fun a ha =>
    writeLE_of_outside (by omega)
  change Spec (handleFreeList this) (pushed h this ptr m) post halt
  unfold handleFreeList
  obtain ⟨n, hfuel⟩ : ∃ n, 2 ^ 64 = n + 1 + 1 := ⟨2 ^ 64 - 2, by norm_num⟩
  rw [hfuel]
  unfold drainFreeList
  refine Spec.bind (getManager_spec hm₁ ?_)
  dsimp only
  refine Spec.ite (fun hz => absurd hz (by omega)) fun _ => ?_
  refine Spec.bind (peek_spec (.inl (hu₁.covers_word (by omega) le_rfl)) fun _ => ?_)
  refine Spec.bind (setManager_spec ?_)
  have hnext : readLE (pushed h this ptr m).mem ptr 8 = 0 := hlink
  rw [hnext]
  have hu₂ : InUse ((pushed h this ptr m).setManager this { m with freeList := 0 }) b s ptr B
      frees := hu₁.congr rfl rfl fun _ _ => rfl
  have hcov := hu₂.header_covers
  refine Spec.bind (peek_spec (.inl hcov) fun _ => ?_)
  rw [if_neg (by rw [hu₂.allocation]; decide)]
  refine Spec.bind (peek_spec (.inl hcov) fun _ => ?_)
  refine Spec.bind (peek_spec (.inl hcov) fun _ => ?_)
  rw [if_neg (by rw [hu₂.regular]; decide), hu₂.header]
  refine Spec.bind (freeObject_at hu₂.bibop (hu₂.covers_word (by omega) (by omega)) ?_)
  refine Spec.bind (poke_spec (.inl hcov) fun _ => ?_)
  -- and then the list is empty
  unfold drainFreeList
  refine Spec.bind (getManager_spec (Function.update_self _ _ _) ?_)
  dsimp only
  rw [if_pos rfl]
  exact Spec.pure hp

/-! ## When they agree -/

theorem linkSlot_of_outside {mem : ByteMemory} {x size head a : ℕ} (hsmall : a < x + headerSize)
    (ha : a < x ∨ x + 8 ≤ a) : linkSlot mem x size head a = mem a := by
  unfold linkSlot
  split
  · exact (fill_of_outside (Or.inl hsmall)).trans (writeLE_of_outside ha)
  · exact writeLE_of_outside ha

/-- The pages that are zeroed lie in the slot. -/
theorem linkSlot_of_beyond {mem : ByteMemory} {x size head a : ℕ}
    (ha : a < x ∨ x + headerSize + size ≤ a) : linkSlot mem x size head a = mem a := by
  have hsize : headerSize = 16 := rfl
  have hlen : pageCeil ((size >>> pageSizeBit) <<< pageSizeBit) ≤ size := by
    rw [Nat.shiftRight_eq_div_pow, Nat.shiftLeft_eq, pageCeil_of_mod (by simp [pageSizeBit])]
    simp only [pageSizeBit]
    omega
  unfold linkSlot
  split
  · exact (fill_of_outside (by omega)).trans (writeLE_of_outside (by omega))
  · exact writeLE_of_outside (by omega)

theorem link_linkSlot {mem : ByteMemory} {x size head : ℕ} (hhead : head < 2 ^ 64) :
    link (linkSlot mem x size head) x = head := by
  have hsize : headerSize = 16 := rfl
  have hword : readLE (writeLE mem x 8 head) x 8 = head := readLE_writeLE (by norm_num; exact hhead)
  unfold linkSlot
  split
  · exact (readLE_congr fun a _ h₂ => fill_of_outside (by omega)).trans hword
  · exact hword

/-- The BIBOP after a slot was linked. -/
theorem freedAt_bibop {x header : ℕ} :
    (freedAt h b x header B).bibops b = some { B with freeList := x } :=
  Function.update_self _ _ _

/-- A slot that is freed where it starts heads the free list, and its header loses the allocation
bit. -/
theorem freedAt_chain (hu : InUse h b s ptr B frees) (hptr : ptr = s + headerSize) :
    Chain (link (freedAt h b s (ptr - headerSize) B).mem) s (s :: frees) := by
  have hsize : headerSize = 16 := rfl
  have hroom := hu.room
  have hfree : ∀ a, a ≠ s + 14 → (freedAt h b s (ptr - headerSize) B).mem a =
      linkSlot h.mem s B.getObjectSize B.freeList a := fun a ha =>
    setFree_of_ne _ (by omega)
  refine hu.chain.push hu.pos.ne' ?_ fun x hx => ?_
  · exact (readLE_congr fun a h₁ h₂ => hfree a (by omega)).trans (link_linkSlot hu.head_lt)
  · have hapart := hu.apart x hx
    refine readLE_congr fun a h₁ h₂ => (hfree a (by omega)).trans (linkSlot_of_beyond ?_)
    rw [SingleBIBOP.getObjectSize]
    omega

theorem freedAt_controlByte (hptr : ptr = s + headerSize) :
    RegularHeader.controlByte (freedAt h b s (ptr - headerSize) B).mem (ptr - headerSize) =
      RegularHeader.controlByte h.mem (ptr - headerSize) &&& 0xFB#8 := by
  have hsize : headerSize = 16 := rfl
  have hkept : linkSlot h.mem s B.getObjectSize B.freeList (ptr - headerSize + 14) =
      h.mem (ptr - headerSize + 14) := linkSlot_of_outside (by omega) (by omega)
  have hself : RegularHeader.controlByte (freedAt h b s (ptr - headerSize) B).mem
      (ptr - headerSize) = RegularHeader.controlByte
        (linkSlot h.mem s B.getObjectSize B.freeList) (ptr - headerSize) &&& 0xFB#8 :=
    writeByte_self _
  rw [hself, RegularHeader.controlByte, hkept]
  rfl

/-- The heads of the free lists tell the slot starts apart. -/
theorem PathsAgree.offset_zero (ha : PathsAgree this b ptr h h₁)
    (hdrain : handleFreeList this h = .ok () h₁) (hu : InUse h₁ b s ptr B frees) :
    RegularHeader.memalignOffset h₁.mem (ptr - headerSize) = 0 := by
  obtain ⟨m, hm, hempty⟩ := handleFreeList_empties.of_ok hdrain
  obtain ⟨h₂, h₃, hrun₂, hrun₃, hbibop, -, -⟩ := ha
  have hlocal : Spec (freeRegularMemory this ptr) h
      (fun _ h₂ => h₂.bibops b = some { B with freeList := s }) fun _ => False :=
    freeRegularMemory_at hdrain hu freedAt_bibop
  have hremote : Spec (freeRemotely this ptr) h₁
      (fun _ h₃ => h₃.bibops b = some { B with freeList := ptr - headerSize }) fun _ => False :=
    freeRemotely_at hm hempty hu freedAt_bibop
  rw [hlocal.of_ok hrun₂, hremote.of_ok hrun₃] at hbibop
  have hhead := congrArg SingleBIBOP.freeList (Option.some.inj hbibop)
  have hoffset := hu.offset
  dsimp only at hhead
  omega

/-- **The two free paths agree** on a block in use just when its header carries no offset: freed
by its owner, after the owner drained its list, or pushed on the drained list and drained. -/
theorem free_paths_agree (hdrain : handleFreeList this h = .ok () h₁)
    (hu : InUse h₁ b s ptr B frees) :
    PathsAgree this b ptr h h₁ ↔ RegularHeader.memalignOffset h₁.mem (ptr - headerSize) = 0 := by
  refine ⟨fun ha => ha.offset_zero hdrain hu, fun hzero => ?_⟩
  have hsize : headerSize = 16 := rfl
  have hoffset := hu.offset
  have hroom := hu.room
  obtain ⟨m, hm, hempty⟩ := handleFreeList_empties.of_ok hdrain
  have hptr : ptr = s + headerSize := by omega
  have hs : ptr - headerSize = s := by omega
  have hdata : ∀ a, a < ptr ∨ s + B.objectSize ≤ a → writeLE h₁.mem ptr 8 0 a = h₁.mem a :=
    fun a ha => writeLE_of_outside (by omega)
  have hu' : InUse ((pushed h₁ this ptr m).setManager this { m with freeList := 0 }) b s ptr B
      frees := hu.congr rfl rfl hdata
  have hlocal : Spec (freeRegularMemory this ptr) h
      (fun _ h₂ => h₂ = freedAt h₁ b s (ptr - headerSize) B) fun _ => False :=
    freeRegularMemory_at hdrain hu rfl
  have hremote : Spec (freeRemotely this ptr) h₁ (fun _ h₃ => h₃ = freedAt
      ((pushed h₁ this ptr m).setManager this { m with freeList := 0 }) b s (ptr - headerSize) B)
      fun _ => False := by
    have hpath : Spec (freeRemotely this ptr) h₁ (fun _ h₃ => h₃ = freedAt
        ((pushed h₁ this ptr m).setManager this { m with freeList := 0 }) b (ptr - headerSize)
        (ptr - headerSize) B) fun _ => False := freeRemotely_at hm hempty hu rfl
    rwa [hs] at hpath ⊢
  obtain ⟨⟨⟩, h₂, hrun₂, rfl⟩ := hlocal.exists_ok
  obtain ⟨⟨⟩, h₃, hrun₃, rfl⟩ := hremote.exists_ok
  refine ⟨_, _, hrun₂, hrun₃, by rw [freedAt_bibop, freedAt_bibop], fun B' hB' => ?_, ?_⟩
  · rw [freedAt_bibop] at hB'
    obtain rfl := Option.some.inj hB'
    exact ⟨s :: frees, freedAt_chain hu hptr, freedAt_chain hu' hptr⟩
  · rw [freedAt_controlByte hptr, freedAt_controlByte hptr]
    exact congrArg (· &&& 0xFB#8) (hdata (ptr - headerSize + 14) (by omega)).symm

/-! ## A slot with an offset -/

/-- A BIBOP with one slot of 256 bytes in use. -/
def oneSlotBIBOP : SingleBIBOP where
  bump := 4096 + 272
  base := 4096
  objectSize := 272
  freeList := 0
  capacity := 4096
  chunks := [⟨4096, 4096⟩]

/-- A process with that slot, whose block starts `offset` bytes into the data of the slot. -/
def oneSlotHeap (offset : ℕ) : Heap :=
  let header := 4096 + offset
  let m : ByteMemory := fun _ => 0
  let m := RegularHeader.setBibop m header 65536
  let m := RegularHeader.setMemalignOffset m header offset
  let m := RegularHeader.setAllocation m header
  { (Config.initial (bumpKernel 0 .excluded)).heap with
    maps := [⟨4096, 4096⟩]
    mem := m
    bibops := Function.update (fun _ => none) 65536 (some oneSlotBIBOP)
    globalMemoryManager := Function.update (fun _ => none) 0 (some {
      individualDataPool := fun _ => ⟨0, 0, 0⟩
      lazyIdentifiers := fun _ => ⟨0, 0⟩
      metadataPool := ⟨0, 0, 0⟩
      globalBIBOP := fun _ => 0
      individualDatPoolBump := 0
      individualBIBOP := fun _ => ⟨fun _ => allOnes, BitVec.ofNat 64 allOnes⟩
      freeList := 0
      threadId := 0 }) }

theorem oneSlotHeap_inUse {offset : ℕ} (hoffset : offset = 0 ∨ offset = 48) :
    InUse (oneSlotHeap offset) 65536 4096 (4112 + offset) oneSlotBIBOP [] := by
  rcases hoffset with rfl | rfl
  · exact ⟨rfl, by decide, by decide, by decide, by decide, by decide, by decide, by decide,
      by decide, by decide, rfl, by simp⟩
  · exact ⟨rfl, by decide, by decide, by decide, by decide, by decide, by decide, by decide,
      by decide, by decide, rfl, by simp⟩

theorem free_paths_agree_unshifted : PathsAgree 0 65536 4112 (oneSlotHeap 0) (oneSlotHeap 0) :=
  (free_paths_agree rfl (oneSlotHeap_inUse (Or.inl rfl))).mpr (by decide)

/-- **An interior pointer in the free list**: the remote path links the header of a block shifted
by 48 bytes instead of its slot. -/
theorem shifted_free_paths_differ :
    InUse (oneSlotHeap 48) 65536 4096 4160 oneSlotBIBOP [] ∧
      ¬ PathsAgree 0 65536 4160 (oneSlotHeap 48) (oneSlotHeap 48) := by
  have hu := oneSlotHeap_inUse (Or.inr rfl)
  refine ⟨hu, fun ha => ?_⟩
  have hzero := ha.offset_zero rfl hu
  exact absurd hzero (by decide)

end Semalloc
