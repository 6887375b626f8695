import Semalloc.Backend.BIBOP

/-!
# The memory manager

A manager serves one thread. A non-loop allocation comes from the global BIBOP of its size class;
a loop allocation whose context was seen often enough comes from the BIBOP of its context and
size class, found by probing a table; large requests get a mapping of their own. Blocks freed by
other threads arrive on a list that is drained before every allocation and every local free.

`this` is the manager's index in `globalMemoryManager`.

## Main definitions

* `MemoryManager.mallocMemory`, `MemoryManager.mallocMemoryCSI`: the two overloads
* `MemoryManager.freeRegularMemory`, `MemoryManager.freeOtherThreadMemory`,
  `MemoryManager.handleFreeList`: local frees, remote frees, and the drain
* `MemoryManager.tryPutToLazyPool`, `MemoryManager.getIndividualBIBOPbyCSI`: the two probing tables
* `MemoryManager.allocateHuge`, `MemoryManager.freeHugeMemory`: mappings of their own
-/

set_option autoImplicit false

namespace Semalloc

open ByteMemory Region

namespace RegularHeader

/-- The header of a slot served from an individual BIBOP. -/
def initIndividual (m : ByteMemory) (header threadId bibop : ℕ) : ByteMemory :=
  let m := setThreadId m header threadId
  let m := setBibop m header bibop
  let m := setRegular m header
  let m := setIndividual m header
  let m := setAllocation m header
  setMemalignOffset m header 0

/-- The header of a slot served from the global BIBOP. -/
def initGlobal (m : ByteMemory) (header threadId bibop : ℕ) : ByteMemory :=
  let m := setThreadId m header threadId
  let m := setBibop m header bibop
  let m := setRegular m header
  let m := setGlobal m header
  let m := setAllocation m header
  setMemalignOffset m header 0

end RegularHeader

namespace MemoryManager

/-! ## Huge blocks -/

def allocateHuge (size : Word) : Proc ℕ := do
  let newSize := (size + 4096#64 - 1#64) &&& ~~~4095#64
  let addr ← mmap (newSize + 4096#64).toNat
  if addr = 0 then throw .noMemory
  let data := (addr + pageSize) % 2 ^ 64
  let header := data - headerSize
  poke header headerSize (HugeHeader.setSize · header newSize.toNat)
  poke header headerSize (HugeHeader.setHuge · header)
  serve .huge addr (newSize.toNat + pageSize) data
  return data

def freeHugeMemory (ptr : ℕ) : Proc Unit := do
  let size ← peek (ptr - headerSize) headerSize (HugeHeader.size · (ptr - headerSize))
  munmap (ptr - pageSize) ((size + pageSize) % 2 ^ 64)

def getHugeSize (ptr : ℕ) : Proc ℕ :=
  peek (ptr - headerSize) headerSize (HugeHeader.size · (ptr - headerSize))

/-- Both branches of `getRegularSize` read the size the same way. -/
def getRegularSize (ptr : ℕ) : Proc ℕ := do
  let bibop ← peek (ptr - headerSize) headerSize (RegularHeader.bibop · (ptr - headerSize))
  let B ← getBIBOP bibop
  return B.getObjectSize

/-! ## Chunks and BIBOPs -/

def acquireIndividualDataPool (this : ℕ) : Proc ℕ := do
  let m ← getManager this
  let bump := m.individualDatPoolBump
  let r := (m.individualDataPool bump).allocateMemory individualBIBOPSize
  setManager this { m with individualDataPool := Function.update m.individualDataPool bump r.1 }
  if r.2 = 0 then
    let m ← getManager this
    setManager this { m with individualDatPoolBump := bump + 1 }
    if bump + 1 ≥ individualDataPoolN then throw .dataPoolMax
    let fresh ← MemoryPool.allocateMemoryPool individualDataPoolSize
    let r := fresh.allocateMemory individualBIBOPSize
    let m ← getManager this
    setManager this
      { m with individualDataPool := Function.update m.individualDataPool (bump + 1) r.1 }
    return r.2
  return r.2

def allocateIndividualBIBOP (this objectSize : ℕ) : Proc ℕ := do
  let m ← getManager this
  let r := m.metadataPool.allocateMemory 40
  setManager this { m with metadataPool := r.1 }
  let data ← acquireIndividualDataPool this
  poke r.2 40 id
  setBIBOP r.2 (SingleBIBOP.init data objectSize individualBIBOPSize)
  return r.2

/-- Enter a new BIBOP of size class `k` at `index` of the context table. -/
def enterIndividualBIBOP (this index k : ℕ) (CSI : Word) : Proc ℕ := do
  let b ← allocateIndividualBIBOP this (minBagSize <<< k)
  let m ← getManager this
  let entry := m.individualBIBOP index
  setManager this { m with
    individualBIBOP := Function.update m.individualBIBOP index
      { ptr := Function.update entry.ptr k b, CSI := CSI } }
  return b

/-- The probing loop of `getIndividualBIBOPbyCSI`, with `n` offsets left. -/
def probeIndividualBIBOP (this : ℕ) (CSI : Word) (k : ℕ) : ℕ → Proc ℕ
  | 0 => throw .bibopMax
  | n + 1 => do
    let index := (hash CSI + (individualBIBOPMaxN - (n + 1))) % individualBIBOPMaxN
    let m ← getManager this
    let entry := m.individualBIBOP index
    if entry.CSI = CSI then
      if entry.ptr k ≠ allOnes then return entry.ptr k
      enterIndividualBIBOP this index k CSI
    else if entry.CSI.toNat = allOnes then
      enterIndividualBIBOP this index k CSI
    else probeIndividualBIBOP this CSI k n

def getIndividualBIBOPbyCSI (this : ℕ) (CSI : Word) (objectSize : ℕ) : Proc ℕ :=
  probeIndividualBIBOP this CSI (BIBOP.computeSizeIndex objectSize) individualBIBOPMaxN

/-- The probing loop of `tryPutToLazyPool`, with `n` indices left. -/
def probeLazyPool (this : ℕ) (CSI : Word) : ℕ → Proc Bool
  | 0 => throw .lazyMax
  | n + 1 => do
    let size := individualDataPoolN <<< 8
    let index := (size - (n + 1) + hash CSI) % size
    let m ← getManager this
    let element := m.lazyIdentifiers index
    if element.CSI = CSI then
      if element.occurCount.toNat < lazyOccur then
        setManager this { m with
          lazyIdentifiers := Function.update m.lazyIdentifiers index
            { element with occurCount := element.occurCount + 1 } }
        return true
      return false
    else if element.CSI = 0 then
      setManager this { m with
        lazyIdentifiers := Function.update m.lazyIdentifiers index { CSI := CSI, occurCount := 1 } }
      return true
    else probeLazyPool this CSI n

/-- Whether a loop allocation of this context is still served from the global pool. -/
def tryPutToLazyPool (this : ℕ) (CSI : Word) : Proc Bool :=
  probeLazyPool this CSI (individualDataPoolN <<< 8)

/-! ## Frees -/

/-- The drain of the remote free list, for at most `n` blocks. -/
def drainFreeList (this : ℕ) : ℕ → Proc Unit
  | 0 => throw .diverged
  | n + 1 => do
    let m ← getManager this
    let currentPtr := m.freeList
    if currentPtr = 0 then return
    let nxt ← peek currentPtr 8 (readLE · currentPtr 8)
    setManager this { m with freeList := nxt }
    let header := currentPtr - headerSize
    if !(← peek header headerSize (RegularHeader.isAllocation · header)) then throw .doubleFree
    let bibop ← peek header headerSize (RegularHeader.bibop · header)
    if !(← peek header headerSize (RegularHeader.isRegular · header)) then
      GlobalBIBOP.freeGlobalObject header
    else
      IndividualBIBOP.freeIndividualObject bibop header
    poke header headerSize (RegularHeader.setFree · header)
    drainFreeList this n

/-- `handleFreeList`. A list of distinct blocks has fewer than `2 ^ 64` of them. -/
def handleFreeList (this : ℕ) : Proc Unit := drainFreeList this (2 ^ 64)

/-- A remote free: the block is pushed on its owner's list, linked through its first bytes. -/
def freeOtherThreadMemory (this ptr : ℕ) : Proc Unit := do
  let m ← getManager this
  poke ptr 8 (writeLE · ptr 8 m.freeList)
  setManager this { m with freeList := ptr }

def freeRegularMemory (this ptr : ℕ) : Proc Unit := do
  handleFreeList this
  if ptr = 0 then return
  let header := ptr - headerSize
  if !(← peek header headerSize (RegularHeader.isAllocation · header)) then throw .doubleFree
  let offset ← peek header headerSize (RegularHeader.memalignOffset · header)
  let data := ptr - headerSize - offset
  let bibop ← peek header headerSize (RegularHeader.bibop · header)
  if !(← peek header headerSize (RegularHeader.isRegular · header)) then
    GlobalBIBOP.freeGlobalObject data
  else
    IndividualBIBOP.freeIndividualObject bibop data
  poke header headerSize (RegularHeader.setFree · header)

/-! ## Allocation -/

/-- A slot of the BIBOP at `b`, whose chunk is replaced when it is exhausted. -/
def allocateFrom (this b : ℕ) : Proc ℕ := do
  let ptr ← SingleBIBOP.allocateObject b
  if ptr = 0 then
    let chunk ← acquireIndividualDataPool this
    SingleBIBOP.extendSingleBIBOP b chunk individualBIBOPSize
    SingleBIBOP.allocateObject b
  else return ptr

/-- The loop branch: the BIBOP of the context and size class. -/
def allocateIndividual (this : ℕ) (realSize : ℕ) (CSI : Word) : Proc ℕ := do
  let currentBIBOP ← getIndividualBIBOPbyCSI this CSI realSize
  let ptr ← allocateFrom this currentBIBOP
  let m ← getManager this
  poke ptr headerSize (RegularHeader.initIndividual · ptr m.threadId currentBIBOP)
  let k := BIBOP.computeSizeIndex realSize
  serve (.pool ⟨this, some CSI, k⟩) ptr (slotSize k) (ptr + headerSize)
  return ptr + headerSize

/-- The non-loop branch: the global BIBOP of the size class. -/
def allocateGlobal (this : ℕ) (realSize : ℕ) : Proc ℕ := do
  let m ← getManager this
  let k := BIBOP.computeSizeIndex realSize
  let targetBIBOP := m.globalBIBOP k
  let ptr ← allocateFrom this targetBIBOP
  let m ← getManager this
  poke ptr headerSize (RegularHeader.initGlobal · ptr m.threadId targetBIBOP)
  serve (.pool ⟨this, none, k⟩) ptr (slotSize k) (ptr + headerSize)
  return ptr + headerSize

/-- The part both overloads of `mallocMemory` share, for sizes below the huge threshold. -/
def allocateRegular (this : ℕ) (realSize : ℕ) (CSI : Word) (inLoop : Bool) : Proc ℕ := do
  let individual ← if inLoop then (do return !(← tryPutToLazyPool this CSI)) else pure false
  if individual then allocateIndividual this realSize CSI
  else allocateGlobal this realSize

/-- `mallocMemory(size_t size)`. -/
def mallocMemory (this : ℕ) (size : Word) : Proc ℕ := do
  handleFreeList this
  if isHugeWord size then allocateHuge (getHugeWordSize size)
  else
    let realSize := getRealSize size
    if realSize = 0 then return 0
    else if realSize.toNat ≥ bagThreshold then allocateHuge realSize
    else allocateRegular this realSize.toNat (getCSI size) (inLoop size)

/-- `mallocMemory(size_t realSize, size_t CSI, bool inLoop)`. -/
def mallocMemoryCSI (this : ℕ) (realSize CSI : Word) (inLoop : Bool) : Proc ℕ := do
  handleFreeList this
  if realSize = 0 then return 0
  else if realSize.toNat ≥ bagThreshold then allocateHuge realSize
  else allocateRegular this realSize.toNat CSI inLoop

/-! ## Creation -/

/-- `InitGlobalBIBOP`, for the size classes from `i` up. -/
def initGlobalBIBOP (objects : ℕ → ℕ) : ℕ → Proc (ℕ → ℕ)
  | 0 => return objects
  | n + 1 => do
    let i := globalBagN - (n + 1)
    let data ← mmap globalSingleBIBOPSize
    let sb ← SingleBIBOP.allocateSingleBIBOP data (minBagSize <<< i) globalSingleBIBOPSize
    initGlobalBIBOP (Function.update objects i sb) n

/-- `AllocateMemoryManager` and `InitMemoryManager`: the tables start zeroed, the context table
filled with ones. -/
def allocateMemoryManager (threadId : ℕ) : Proc MemoryManager := do
  let mm ← mmap 75104296
  poke mm 75104296 id
  let dataPool ← MemoryPool.allocateMemoryPool individualDataPoolSize
  let metadataPool ← MemoryPool.allocateMemoryPool metadataPoolSize
  let r := metadataPool.allocateMemory 120
  poke r.2 120 id
  let globalBIBOP ← initGlobalBIBOP (fun _ => 0) globalBagN
  return {
    individualDataPool := fun _ => dataPool
    lazyIdentifiers := fun _ => ⟨0, 0⟩
    metadataPool := r.1
    globalBIBOP := globalBIBOP
    individualDatPoolBump := 0
    individualBIBOP := fun _ => ⟨fun _ => allOnes, BitVec.ofNat 64 allOnes⟩
    freeList := 0
    threadId := threadId % 2 ^ 16 }

end MemoryManager

end Semalloc
