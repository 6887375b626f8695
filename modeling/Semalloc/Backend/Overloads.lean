import Semalloc.Backend.Requests

/-!
# The two overloads of `mallocMemory`

The source has the allocation algorithm twice: once over a size word, which it decodes itself, and
once over a decoded size, a context and a loop flag. `Backend.MemoryManager` states what the copies
share once. Here each copy stands as the source has it, statement by statement, and is shown to be
what that module says it is.

## Main definitions

* `Overload.mallocMemory`: the copy over a size word
* `Overload.mallocMemoryCSI`: the copy over the decoded values

## Main results

* `Overload.mallocMemory_eq`, `Overload.mallocMemoryCSI_eq`: the copies and the model
* `overloads_agree`: the copies do the same on a word without the huge bit
-/

set_option autoImplicit false

namespace Semalloc

open ByteMemory Region

namespace MemoryManager

namespace Overload

/-- `void *MemoryManager::mallocMemory(size_t size)`. -/
def mallocMemory (this : ℕ) (size : Word) : Proc ℕ := do
  handleFreeList this
  if size &&& csiHugeSizeBitMask ≠ 0 then
    let ptr ← allocateHuge (size &&& csiHugeSizeSizeMask)
    return ptr
  let realSize := size &&& realSizeBitMask
  if realSize = 0 then return 0
  if realSize.toNat ≥ bagThreshold then return ← allocateHuge realSize
  let CSI := (size &&& csiBitMask) >>> 32
  -- the right operand of `&&` runs only when the left one is true
  let individual ←
    if size &&& csiLoopBitMask ≠ 0 then (do return !(← tryPutToLazyPool this CSI)) else pure false
  if individual then
    let currentBIBOP ← getIndividualBIBOPbyCSI this CSI realSize.toNat
    let ptr ← SingleBIBOP.allocateObject currentBIBOP
    let ptr ←
      if ptr = 0 then (do
        let chunk ← acquireIndividualDataPool this
        SingleBIBOP.extendSingleBIBOP currentBIBOP chunk individualBIBOPSize
        SingleBIBOP.allocateObject currentBIBOP)
      else pure ptr
    let data := ptr + headerSize
    let header := ptr
    let threadId := (← getManager this).threadId
    poke header headerSize (RegularHeader.setThreadId · header threadId)
    poke header headerSize (RegularHeader.setBibop · header currentBIBOP)
    poke header headerSize (RegularHeader.setRegular · header)
    poke header headerSize (RegularHeader.setIndividual · header)
    poke header headerSize (RegularHeader.setAllocation · header)
    poke header headerSize (RegularHeader.setMemalignOffset · header 0)
    let k := BIBOP.computeSizeIndex realSize.toNat
    serve (.pool ⟨this, some CSI, k⟩) ptr (slotSize k) data
    return data
  else
    let globalBIBOP := (← getManager this).globalBIBOP
    let targetBIBOP := globalBIBOP (BIBOP.computeSizeIndex realSize.toNat)
    let ptr ← SingleBIBOP.allocateObject targetBIBOP
    let ptr ←
      if ptr = 0 then (do
        let chunk ← acquireIndividualDataPool this
        SingleBIBOP.extendSingleBIBOP targetBIBOP chunk individualBIBOPSize
        SingleBIBOP.allocateObject targetBIBOP)
      else pure ptr
    let data := ptr + headerSize
    let header := ptr
    let threadId := (← getManager this).threadId
    poke header headerSize (RegularHeader.setThreadId · header threadId)
    poke header headerSize (RegularHeader.setBibop · header targetBIBOP)
    poke header headerSize (RegularHeader.setRegular · header)
    poke header headerSize (RegularHeader.setGlobal · header)
    poke header headerSize (RegularHeader.setAllocation · header)
    poke header headerSize (RegularHeader.setMemalignOffset · header 0)
    let k := BIBOP.computeSizeIndex realSize.toNat
    serve (.pool ⟨this, none, k⟩) ptr (slotSize k) data
    return data

/-- `void *MemoryManager::mallocMemory(size_t realSize, size_t CSI, bool inLoop)`. -/
def mallocMemoryCSI (this : ℕ) (realSize CSI : Word) (inLoop : Bool) : Proc ℕ := do
  handleFreeList this
  if realSize = 0 then return 0
  if realSize.toNat ≥ bagThreshold then return ← allocateHuge realSize
  let individual ← if inLoop then (do return !(← tryPutToLazyPool this CSI)) else pure false
  if individual then
    let currentBIBOP ← getIndividualBIBOPbyCSI this CSI realSize.toNat
    let ptr ← SingleBIBOP.allocateObject currentBIBOP
    let ptr ←
      if ptr = 0 then (do
        let chunk ← acquireIndividualDataPool this
        SingleBIBOP.extendSingleBIBOP currentBIBOP chunk individualBIBOPSize
        SingleBIBOP.allocateObject currentBIBOP)
      else pure ptr
    let data := ptr + headerSize
    let header := ptr
    let threadId := (← getManager this).threadId
    poke header headerSize (RegularHeader.setThreadId · header threadId)
    poke header headerSize (RegularHeader.setBibop · header currentBIBOP)
    poke header headerSize (RegularHeader.setRegular · header)
    poke header headerSize (RegularHeader.setIndividual · header)
    poke header headerSize (RegularHeader.setAllocation · header)
    poke header headerSize (RegularHeader.setMemalignOffset · header 0)
    let k := BIBOP.computeSizeIndex realSize.toNat
    serve (.pool ⟨this, some CSI, k⟩) ptr (slotSize k) data
    return data
  else
    let globalBIBOP := (← getManager this).globalBIBOP
    let targetBIBOP := globalBIBOP (BIBOP.computeSizeIndex realSize.toNat)
    let ptr ← SingleBIBOP.allocateObject targetBIBOP
    let ptr ←
      if ptr = 0 then (do
        let chunk ← acquireIndividualDataPool this
        SingleBIBOP.extendSingleBIBOP targetBIBOP chunk individualBIBOPSize
        SingleBIBOP.allocateObject targetBIBOP)
      else pure ptr
    let data := ptr + headerSize
    let header := ptr
    let threadId := (← getManager this).threadId
    poke header headerSize (RegularHeader.setThreadId · header threadId)
    poke header headerSize (RegularHeader.setBibop · header targetBIBOP)
    poke header headerSize (RegularHeader.setRegular · header)
    poke header headerSize (RegularHeader.setGlobal · header)
    poke header headerSize (RegularHeader.setAllocation · header)
    poke header headerSize (RegularHeader.setMemalignOffset · header 0)
    let k := BIBOP.computeSizeIndex realSize.toNat
    serve (.pool ⟨this, none, k⟩) ptr (slotSize k) data
    return data

/-! ## Stores into one header -/

theorem poke_of_covers {a n : ℕ} (f : ByteMemory → ByteMemory) {h : Heap}
    (hcov : covers h.maps a n = true) : poke a n f h = .ok () (h.setMem (f h.mem)) := by
  show (if covers h.maps a n then _ else _ : Proc Unit) h = _
  rw [hcov]
  rfl

theorem poke_of_not_covers {a n : ℕ} (f : ByteMemory → ByteMemory) {h : Heap}
    (hcov : covers h.maps a n = false) : poke a n f h = .error .segv h := by
  show (if covers h.maps a n then _ else _ : Proc Unit) h = _
  rw [hcov]
  rfl

/-- Two stores into the same range are one. -/
theorem poke_poke {α : Type} (a n : ℕ) (f g : ByteMemory → ByteMemory) (k : Unit → Proc α) :
    (do poke a n f; let u ← poke a n g; k u) = (do let u ← poke a n fun m => g (f m); k u) := by
  funext h
  show EStateM.bind (poke a n f) (fun _ => EStateM.bind (poke a n g) k) h =
    EStateM.bind (poke a n fun m => g (f m)) k h
  unfold EStateM.bind
  cases hcov : covers h.maps a n with
  | false => rw [poke_of_not_covers f hcov, poke_of_not_covers _ hcov]
  | true =>
    rw [poke_of_covers f hcov, poke_of_covers _ hcov]
    dsimp only
    rw [poke_of_covers g (h := h.setMem (f h.mem)) hcov]
    rfl

/-- What follows a branch follows both of its arms. -/
theorem ite_bind {α β : Type} {c : Prop} [Decidable c] (x y : Proc α) (f : α → Proc β) :
    (if c then x else y) >>= f = if c then x >>= f else y >>= f :=
  apply_ite (· >>= f) c x y

/-! ## The copies and the model -/

/-- The copy over decoded values is the model's. -/
theorem mallocMemoryCSI_eq (this : ℕ) (realSize CSI : Word) (inLoop : Bool) :
    mallocMemoryCSI this realSize CSI inLoop =
      MemoryManager.mallocMemoryCSI this realSize CSI inLoop := by
  unfold mallocMemoryCSI MemoryManager.mallocMemoryCSI allocateRegular allocateIndividual
    allocateGlobal allocateFrom
  -- six stores make a header, and an extension is followed by the same stores
  simp only [poke_poke, bind_assoc, pure_bind, ite_bind]
  rfl

/-- The copy over a word is the model's. -/
theorem mallocMemory_eq (this : ℕ) (size : Word) :
    mallocMemory this size = MemoryManager.mallocMemory this size := by
  unfold mallocMemory MemoryManager.mallocMemory allocateRegular allocateIndividual
    allocateGlobal allocateFrom
  simp only [poke_poke, bind_assoc, pure_bind, ite_bind, isHugeWord, inLoop, decide_eq_true_eq]
  rfl

end Overload

/-- On a word without the huge bit, the model of the first copy decodes it for the second. -/
theorem mallocMemory_of_not_huge (this : ℕ) {size : Word} (hhuge : isHugeWord size = false) :
    mallocMemory this size =
      mallocMemoryCSI this (getRealSize size) (getCSI size) (inLoop size) := by
  unfold mallocMemory mallocMemoryCSI
  rw [hhuge, if_neg Bool.false_ne_true]

/-- **The overloads agree**: from every state, on a word without the huge bit, both copies return
the same pointer, or halt for the same reason, and leave the same state. -/
theorem overloads_agree (this : ℕ) (size : Word) (hhuge : isHugeWord size = false) (h : Heap) :
    Overload.mallocMemory this size h =
      Overload.mallocMemoryCSI this (getRealSize size) ((size &&& csiBitMask) >>> 32)
        (size &&& csiLoopBitMask ≠ 0) h := by
  rw [Overload.mallocMemory_eq, Overload.mallocMemoryCSI_eq, mallocMemory_of_not_huge this hhuge]
  rfl

/-- The third request of a loop, served from the BIBOP of its context. -/
theorem overloads_agree_loop :
    ∃ c p h', Config.Run .cleanShifts (bumpKernel 0 .excluded) c ∧
      Overload.mallocMemory 0 0x4000000100000018 c.heap = .ok p h' ∧
      Overload.mallocMemoryCSI 0 24 1 true c.heap = .ok p h' := by
  have hrun : ((Config.run .cleanShifts (bumpKernel 0 .excluded)
      [⟨1, .malloc 0x4000000100000018⟩, ⟨1, .malloc 0x4000000100000018⟩]).map fun c =>
      servedWith (Overload.mallocMemory 0 0x4000000100000018 c.heap)) =
      some (some (75116560, 32)) := by decide +kernel
  obtain ⟨c, hc, hserved⟩ := Option.map_eq_some_iff.mp hrun
  obtain ⟨h', hok⟩ := servedWith_eq hserved
  refine ⟨c, _, h', .of_run hc, hok, ?_⟩
  rw [overloads_agree 0 0x4000000100000018 (by decide) c.heap] at hok
  exact hok

end MemoryManager

end Semalloc
