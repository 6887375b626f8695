import Semalloc.Backend.MemoryManager

/-!
# The allocation entry points

The functions of `semalloc.cc` and `threads.h`, as called by the thread with the system
identifier `τ` (the answer of `get_thread_id`).

## Main definitions

* `initThread`: the first call of a thread creates its manager
* `cssMalloc`, `cssFree`, `cssRealloc`, `cssCalloc`, `cssMemalign`, `cssPosixMemalign`,
  `cssAlignedAlloc`, `cssMallocUsableSize`: the entry points
-/

set_option autoImplicit false

namespace Semalloc

open ByteMemory Region MemoryManager

/-- `init_thread`: the next manager index, which the source does not bound. -/
def initThread (τ : ℕ) : Proc Unit := do
  let currentThreadID := (← get).threadBump
  modify fun h => h.setThreadBump (h.threadBump + 1)
  let m ← allocateMemoryManager currentThreadID
  if currentThreadID ≥ maxThread then throw .undefined
  setManager currentThreadID m
  modify fun h => h.setThread τ { tid := τ, threadId := currentThreadID }

/-- The check most entry points start with: `if (tid != get_thread_id()) init_thread()`. -/
def ensureThread (τ : ℕ) : Proc Unit := do
  if ((← get).tls τ).tid ≠ τ then initThread τ

/-- The index of the manager the calling thread goes to: its thread-local `thread_id`. -/
def getThreadId (τ : ℕ) : Proc ℕ := do
  let threadId := ((← get).tls τ).threadId
  modify fun h => h.addCall ⟨τ, threadId⟩
  return threadId

def cssMallocUsableSize (ptr : ℕ) : Proc ℕ := do
  if ← peek (ptr - headerSize) headerSize (HugeHeader.isHuge · (ptr - headerSize)) then
    getHugeSize ptr
  else getRegularSize ptr

/-- The part `css_free` and `css_realloc` share: dispatch on the header. -/
def releaseBlock (τ ptr : ℕ) : Proc Unit := do
  let header := ptr - headerSize
  if ← peek header headerSize (HugeHeader.isHuge · header) then freeHugeMemory ptr
  else
    let owner ← peek header headerSize (RegularHeader.threadId · header)
    let threadId ← getThreadId τ
    if owner = threadId then freeRegularMemory threadId ptr
    else freeOtherThreadMemory owner ptr

def cssMalloc (τ : ℕ) (size : Word) : Proc ℕ := do
  ensureThread τ
  mallocMemory (← getThreadId τ) size

def cssFree (τ ptr : ℕ) : Proc Unit := do
  ensureThread τ
  if ptr = 0 then return
  releaseBlock τ ptr

def cssRealloc (τ ptr : ℕ) (size : Word) : Proc ℕ := do
  ensureThread τ
  if ptr = 0 then mallocMemory (← getThreadId τ) size
  else if size = 0 then
    cssFree τ ptr
    return 0
  else
    let oldSize ← cssMallocUsableSize ptr
    let realSize := getRealSize size
    if realSize.toNat ≤ oldSize then return ptr
    else
      let newObject ← mallocMemory (← getThreadId τ) size
      peek ptr oldSize fun _ => ()
      poke newObject oldSize (copy · newObject ptr oldSize)
      releaseBlock τ ptr
      return newObject

/-- `css_calloc` has no initialization check of its own. -/
def cssCalloc (τ : ℕ) (nmemb size : Word) : Proc ℕ := do
  let realSize := getRealSize size
  let CSI := getCSI size
  let allocatedMemory ←
    mallocMemoryCSI (← getThreadId τ) (nmemb * realSize) CSI (inLoop size)
  poke allocatedMemory (nmemb * realSize).toNat
    (fill · allocatedMemory (nmemb * realSize).toNat 0)
  return allocatedMemory

/-- The size `css_memalign` asks for. -/
def memalignSize (alignment realSize : Word) : Word :=
  (realSize + 16#64) / alignment * alignment + 2#64 * alignment

/-- The second header `css_memalign` writes before a shifted address, and the end of the
first. -/
def shiftHeader (threadId addr newAddr : ℕ) : Proc Unit := do
  let oldHeader := addr - headerSize
  let newHeader := newAddr - headerSize
  let oldBIBOP ← peek oldHeader headerSize (RegularHeader.bibop · oldHeader)
  poke newHeader headerSize (RegularHeader.setThreadId · newHeader threadId)
  poke newHeader headerSize (RegularHeader.setBibop · newHeader oldBIBOP)
  poke newHeader headerSize
    (RegularHeader.setMemalignOffset · newHeader (sub64 newAddr addr % 2 ^ 32))
  let controlByte ← peek oldHeader headerSize (RegularHeader.controlByte · oldHeader)
  poke newHeader headerSize (RegularHeader.setControlByte · newHeader controlByte)
  poke newHeader headerSize (RegularHeader.setAllocation · newHeader)
  poke oldHeader headerSize (RegularHeader.setFree · oldHeader)

/-- `css_memalign` has no initialization check of its own; an alignment of zero passes the
power-of-two test and divides by zero. -/
def cssMemalign (τ : ℕ) (alignment size : Word) : Proc ℕ := do
  if alignment &&& (alignment - 1#64) ≠ 0 then throw .invalidAlignment
  let realSize := getRealSize size
  let CSI := getCSI size
  if alignment = 0 then throw .divisionByZero
  let threadId ← getThreadId τ
  let addr ← mallocMemoryCSI threadId (memalignSize alignment realSize) CSI (inLoop size)
  if addr % alignment.toNat = 0 then return addr
  else
    let newAddr := (addr / alignment.toNat * alignment.toNat + alignment.toNat) % 2 ^ 64
    shiftHeader threadId addr newAddr
    return newAddr

/-- `css_posix_memalign`: the pointer stored through the out-parameter; the return code is
always `0`. -/
def cssPosixMemalign (τ : ℕ) (a b : Word) : Proc ℕ := cssMemalign τ a b

def cssAlignedAlloc (τ : ℕ) (a b : Word) : Proc ℕ := cssMemalign τ a b

end Semalloc
