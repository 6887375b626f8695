import Semalloc.Backend.Heap

/-!
# BIBOPs and memory pools

A `SingleBIBOP` serves slots of one size: from its free list when there is one, otherwise by
bumping through its chunk. A freed slot is linked into the free list through its own first bytes.
A `MemoryPool` hands out chunks of a large mapping.

## Main definitions

* `SingleBIBOP.allocateObject`, `SingleBIBOP.freeObject`, `SingleBIBOP.extendSingleBIBOP`
* `GlobalBIBOP.freeGlobalObject`, `IndividualBIBOP.freeIndividualObject`
* `BIBOP.computeSizeIndex`: the size class of a size
* `MemoryPool.allocateMemory`, `MemoryPool.allocateMemoryPool`
-/

set_option autoImplicit false

namespace Semalloc

open ByteMemory Region

/-- The bytes of a slot of size class `k`, its header included. -/
def slotSize (k : ℕ) : ℕ := (minBagSize <<< k) + headerSize

/-- Subtraction of 64-bit addresses. -/
def sub64 (a b : ℕ) : ℕ := (a + 2 ^ 64 - b) % 2 ^ 64

namespace SingleBIBOP

def getObjectSize (B : SingleBIBOP) : ℕ := B.objectSize - headerSize

/-- A slot of the BIBOP at `b`, or null when the chunk is exhausted. The bump pointer moves even
when the answer is null. -/
def allocateObject (b : ℕ) : Proc ℕ := do
  let B ← getBIBOP b
  if B.freeList ≠ 0 then
    let nxt ← peek B.freeList 8 (readLE · B.freeList 8)
    setBIBOP b { B with freeList := nxt }
    return B.freeList
  else
    let bump := (B.bump + B.objectSize) % 2 ^ 64
    setBIBOP b { B with bump := bump }
    if sub64 bump B.base ≥ B.capacity then return 0
    return B.bump

def freeObject (b ptr : ℕ) : Proc Unit := do
  let B ← getBIBOP b
  poke ptr 8 (writeLE · ptr 8 B.freeList)
  setBIBOP b { B with freeList := ptr }
  if B.getObjectSize ≥ memoryReleaseThreshold then
    madvise (ptr + headerSize) ((B.getObjectSize >>> pageSizeBit) <<< pageSizeBit)

def extendSingleBIBOP (b base capacity : ℕ) : Proc Unit := do
  let B ← getBIBOP b
  setBIBOP b { B with
    bump := base, base := base, capacity := capacity,
    chunks := ⟨base, capacity⟩ :: B.chunks }

/-- `InitSingleBIBOP` and `InitIndividualBIBOP` on a zeroed object, with the capacity set. -/
def init (base objectSize capacity : ℕ) : SingleBIBOP where
  bump := base
  base := base
  objectSize := objectSize + headerSize
  freeList := 0
  capacity := capacity
  chunks := [⟨base, capacity⟩]

/-- `AllocateSingleBIBOP`: a BIBOP object in a mapping of its own. -/
def allocateSingleBIBOP (base objectSize capacity : ℕ) : Proc ℕ := do
  let sb ← mmap 40
  if sb = 0 then throw .noMemory
  poke sb 40 id
  setBIBOP sb (init base objectSize capacity)
  return sb

end SingleBIBOP

/-- `freeIndividualObject` of the BIBOP at `b`. -/
def IndividualBIBOP.freeIndividualObject (b ptr : ℕ) : Proc Unit :=
  SingleBIBOP.freeObject b ptr

/-- `freeGlobalObject`: releases pages, but keeps no free list. -/
def GlobalBIBOP.freeGlobalObject (ptr : ℕ) : Proc Unit := do
  let bibop ← peek ptr headerSize (RegularHeader.bibop · ptr)
  let B ← getBIBOP bibop
  if B.getObjectSize ≥ memoryReleaseThreshold then
    madvise ptr ((B.getObjectSize >>> pageSizeBit) <<< pageSizeBit)

/-- The least size class `k` whose `16 * 2 ^ k` bytes hold `size`. -/
def BIBOP.computeSizeIndex (size : ℕ) : ℕ :=
  if size ≤ minBagSize then 0 else log2 size - 4

namespace MemoryPool

/-- The pool after a request and the memory handed out, null when the pool is exhausted. -/
def allocateMemory (p : MemoryPool) (size : ℕ) : MemoryPool × ℕ :=
  let bump := (p.bumpMemory + size) % 2 ^ 64
  if bump > p.boundaryMemory then ({ p with bumpMemory := sub64 bump size }, 0)
  else ({ p with bumpMemory := bump }, p.bumpMemory)

def allocateMemoryPool (initSize : ℕ) : Proc MemoryPool := do
  let mp ← mmap 24
  poke mp 24 id
  let base ← mmap initSize
  return { baseMemory := base, bumpMemory := base, boundaryMemory := (base + initSize) % 2 ^ 64 }

end MemoryPool

end Semalloc
