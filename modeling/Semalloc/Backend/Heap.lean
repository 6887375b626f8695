import Semalloc.Backend.Defines
import Semalloc.Library.ByteMemory
import Semalloc.Library.Region
import Semalloc.Library.Effect

/-!
# The allocator's state and its machine

The state of the process as the allocator sees it: byte memory with the mapped regions, the
allocator's own objects, and the thread-local variables. Headers live in byte memory, where
clients write around them; the BIBOPs, pools and managers live in mappings of their own that no
client is handed, and are kept as records under their addresses.

Memory accesses check the mapping and end the process with `segv` otherwise. Fields marked as
history are never read by the modelled code: they record what it did. The statistics counters
are left out, since no modelled function reads them.

## Main definitions

* `Kernel`: the answers of `mmap`, fresh page-aligned mappings
* `SingleBIBOP`, `MemoryPool`, `MemoryManager`, `Heap`: the objects of the allocator
* `HugeHeader`, `RegularHeader`: the two readings of the 16 bytes before a block
* `Proc`: programs of the allocator, with `peek`, `poke`, `mmap`, `munmap`, `madvise`
-/

set_option autoImplicit false

namespace Semalloc

open ByteMemory Region

/-! ## The operating system -/

/-- A length rounded up to whole pages. -/
def pageCeil (len : ℕ) : ℕ := (len + 4095) / 4096 * 4096

/-- The range `[a, a + len)`, rounded up to pages, is a page-aligned part of user space that
meets none of the mapped regions. -/
def Fresh (maps : List Region) (a len : ℕ) : Prop :=
  0 < len ∧ a % pageSize = 0 ∧ pageSize ≤ a ∧ a + pageCeil len ≤ 2 ^ 63 ∧
    ∀ r ∈ maps, a + pageCeil len ≤ r.base ∨ r.base + r.len ≤ a

/-- What happens when `mmap` fails: the code goes on with `MAP_FAILED`, or such runs are left out
of consideration. -/
inductive MmapFailure
  | excluded
  | returned
  deriving DecidableEq

/-- The kernel answers the `n`-th `mmap` call, given the mapped regions and the length, with an
address or with a failure. -/
structure Kernel where
  mmap : ℕ → List Region → ℕ → Option ℕ
  mmap_fresh : ∀ {n : ℕ} {maps : List Region} {len a : ℕ},
    mmap n maps len = some a → Fresh maps a len
  failure : MmapFailure

/-! ## The allocator's objects -/

/-- `SingleBIBOP`, with the intrusive free list's head. `chunks` is history: the chunks it was
given. -/
structure SingleBIBOP where
  bump : ℕ
  base : ℕ
  objectSize : ℕ
  freeList : ℕ
  capacity : ℕ
  chunks : List Region

structure MemoryPool where
  baseMemory : ℕ
  bumpMemory : ℕ
  boundaryMemory : ℕ

/-- `lazy_element_t`; `occurCount` is 8 bits wide. -/
structure LazyElement where
  CSI : Word
  occurCount : BitVec 8

/-- `IndividualBIBOP_c_t`: the BIBOPs of one context, one for each size class. -/
structure IndividualBIBOPEntry where
  ptr : ℕ → ℕ
  CSI : Word

structure MemoryManager where
  individualDataPool : ℕ → MemoryPool
  lazyIdentifiers : ℕ → LazyElement
  metadataPool : MemoryPool
  globalBIBOP : ℕ → ℕ
  individualDatPoolBump : ℕ
  individualBIBOP : ℕ → IndividualBIBOPEntry
  freeList : ℕ
  threadId : ℕ

/-- The thread-local variables `tid` and `thread_id`. -/
structure ThreadLocal where
  tid : ℕ
  threadId : ℕ

/-- The part of the memory a BIBOP serves: its thread, its size class and its context, which is
`none` for the BIBOPs of the global pool. -/
structure Compartment where
  thread : ℕ
  context : Option Word
  sizeClass : ℕ
  deriving DecidableEq

/-- Where an allocation was served from: a BIBOP, or `allocateHuge`. -/
inductive Origin
  | pool (c : Compartment)
  | huge
  deriving DecidableEq

/-- History: one allocation, with the whole slot or mapping and the pointer handed out. -/
structure Served where
  origin : Origin
  range : Region
  ptr : ℕ
  deriving DecidableEq

/-- History: the thread with a system identifier went to the manager at an index. -/
structure ManagerCall where
  thread : ℕ
  index : ℕ
  deriving DecidableEq

/-- The process. `tls` maps the system's thread identifiers to their thread-local variables;
`served` and `calls` are history, newest first. -/
structure Heap where
  os : Kernel
  mmapCount : ℕ
  maps : List Region
  mem : ByteMemory
  bibops : ℕ → Option SingleBIBOP
  globalMemoryManager : ℕ → Option MemoryManager
  threadBump : ℕ
  tls : ℕ → ThreadLocal
  served : List Served
  calls : List ManagerCall

namespace Heap

@[simps -fullyApplied] def setMem (h : Heap) (m : ByteMemory) : Heap := { h with mem := m }

@[simps -fullyApplied] def setMaps (h : Heap) (maps : List Region) : Heap := { h with maps := maps }

@[simps -fullyApplied] def setBIBOP (h : Heap) (b : ℕ) (B : SingleBIBOP) : Heap :=
  { h with bibops := Function.update h.bibops b (some B) }

@[simps -fullyApplied] def setManager (h : Heap) (t : ℕ) (m : MemoryManager) : Heap :=
  { h with globalMemoryManager := Function.update h.globalMemoryManager t (some m) }

@[simps -fullyApplied] def setThread (h : Heap) (τ : ℕ) (l : ThreadLocal) : Heap :=
  { h with tls := Function.update h.tls τ l }

@[simps -fullyApplied] def setThreadBump (h : Heap) (n : ℕ) : Heap := { h with threadBump := n }

@[simps -fullyApplied] def addServed (h : Heap) (e : Served) : Heap := { h with served := e :: h.served }

@[simps -fullyApplied] def addCall (h : Heap) (u : ManagerCall) : Heap :=
  { h with calls := u :: h.calls }

/-- The effect of an `mmap` call that answered `a`. -/
@[simps -fullyApplied] def addMapping (h : Heap) (a len : ℕ) : Heap :=
  { h with
    mmapCount := h.mmapCount + 1
    maps := ⟨a, pageCeil len⟩ :: h.maps
    mem := fill h.mem a (pageCeil len) 0 }

/-- History: the last allocation whose slot or mapping holds the address. -/
def newest (h : Heap) (a : ℕ) : Option Served := h.served.find? fun e => e.range.Contains a

theorem newest_mem {h : Heap} {a : ℕ} {e : Served} (he : h.newest a = some e) : e ∈ h.served :=
  List.mem_of_find?_eq_some he

theorem newest_contains {h : Heap} {a : ℕ} {e : Served} (he : h.newest a = some e) :
    e.range.Contains a := by
  simpa using List.find?_some he

end Heap

/-- Why the process ended. The first six are the source's own `exit` calls. -/
inductive Halt
  | doubleFree
  | dataPoolMax
  | bibopMax
  | lazyMax
  | noMemory
  | invalidAlignment
  | divisionByZero
  | segv
  | undefined
  | diverged
  | mmapExcluded
  deriving DecidableEq, Repr

/-- What the allocator draws from has no room left: a pool or a table is full, or the kernel refuses
a mapping. -/
def Halt.NoRoom : Halt → Prop
  | .dataPoolMax | .bibopMax | .lazyMax | .noMemory | .mmapExcluded => True
  | _ => False

/-- A program of the allocator. -/
abbrev Proc := EStateM Halt Heap

/-! ## Headers -/

namespace HugeHeader

def size (m : ByteMemory) (header : ℕ) : ℕ := readLE m header 8

def setSize (m : ByteMemory) (header size : ℕ) : ByteMemory := writeLE m header 8 size

def controlByte (m : ByteMemory) (header : ℕ) : BitVec 8 := m (header + 15)

def setHuge (m : ByteMemory) (header : ℕ) : ByteMemory :=
  writeByte m (header + 15) (controlByte m header ^^^ 0x01#8)

def isHuge (m : ByteMemory) (header : ℕ) : Bool := controlByte m header &&& 0x01#8 ≠ 0

end HugeHeader

namespace RegularHeader

def bibop (m : ByteMemory) (header : ℕ) : ℕ := readLE m header 8

def memalignOffset (m : ByteMemory) (header : ℕ) : ℕ := readLE m (header + 8) 4

def threadId (m : ByteMemory) (header : ℕ) : ℕ := readLE m (header + 12) 2

def controlByte (m : ByteMemory) (header : ℕ) : BitVec 8 := m (header + 14)

def setBibop (m : ByteMemory) (header bibop : ℕ) : ByteMemory := writeLE m header 8 bibop

def setMemalignOffset (m : ByteMemory) (header offset : ℕ) : ByteMemory :=
  writeLE m (header + 8) 4 offset

def setThreadId (m : ByteMemory) (header threadId : ℕ) : ByteMemory :=
  writeLE m (header + 12) 2 threadId

def setControlByte (m : ByteMemory) (header : ℕ) (b : BitVec 8) : ByteMemory :=
  writeByte m (header + 14) b

def setRegular (m : ByteMemory) (header : ℕ) : ByteMemory :=
  setControlByte m header (controlByte m header &&& 0xFE#8)

def isRegular (m : ByteMemory) (header : ℕ) : Bool := controlByte m header &&& 0x01#8 = 0

def setGlobal (m : ByteMemory) (header : ℕ) : ByteMemory :=
  setControlByte m header (controlByte m header ^^^ 0x02#8)

def setIndividual (m : ByteMemory) (header : ℕ) : ByteMemory :=
  setControlByte m header (controlByte m header &&& 0xFD#8)

def setAllocation (m : ByteMemory) (header : ℕ) : ByteMemory :=
  setControlByte m header (controlByte m header ^^^ 0x04#8)

def setFree (m : ByteMemory) (header : ℕ) : ByteMemory :=
  setControlByte m header (controlByte m header &&& 0xFB#8)

def isAllocation (m : ByteMemory) (header : ℕ) : Bool := controlByte m header &&& 0x04#8 ≠ 0

end RegularHeader

/-! ## Machine operations -/

/-- Read the `n` bytes at `a` through `f`. -/
def peek {α : Type} (a n : ℕ) (f : ByteMemory → α) : Proc α := do
  let h ← get
  if covers h.maps a n then return f h.mem else throw .segv

/-- Change the `n` bytes at `a` by `f`. -/
def poke (a n : ℕ) (f : ByteMemory → ByteMemory) : Proc Unit := do
  let h ← get
  if covers h.maps a n then modify fun h => h.setMem (f h.mem) else throw .segv

/-- `mmap` of fresh anonymous memory: zeroed pages at the kernel's address. -/
def mmap (len : ℕ) : Proc ℕ := do
  let h ← get
  match h.os.mmap h.mmapCount h.maps len with
  | some a =>
    modify fun h => h.addMapping a len
    return a
  | none =>
    modify fun h => { h with mmapCount := h.mmapCount + 1 }
    match h.os.failure with
    | .excluded => throw .mmapExcluded
    | .returned => return mapFailed

/-- `munmap`: the pages of the range are unmapped; an unaligned address is an error the callers
ignore. -/
def munmap (a len : ℕ) : Proc Unit :=
  if a % pageSize = 0 then
    modify fun h => h.setMaps (removeRange h.maps a (pageCeil len))
  else pure ()

/-- `madvise(a, len, MADV_DONTNEED)`: the pages of the range read as zero afterwards; an unaligned
address is an error the callers ignore. -/
def madvise (a len : ℕ) : Proc Unit :=
  if a % pageSize = 0 then
    modify fun h => h.setMem (fill h.mem a (pageCeil len) 0)
  else pure ()

/-- The BIBOP object at an address. -/
def getBIBOP (b : ℕ) : Proc SingleBIBOP := do
  match (← get).bibops b with
  | some B => return B
  | none => throw .undefined

def setBIBOP (b : ℕ) (B : SingleBIBOP) : Proc Unit :=
  modify fun h => h.setBIBOP b B

/-- The manager at an index of `globalMemoryManager`. -/
def getManager (t : ℕ) : Proc MemoryManager := do
  match (← get).globalMemoryManager t with
  | some m => return m
  | none => throw .undefined

def setManager (t : ℕ) (m : MemoryManager) : Proc Unit :=
  modify fun h => h.setManager t m

/-- History: record an allocation. -/
def serve (origin : Origin) (base len ptr : ℕ) : Proc Unit :=
  modify fun h => h.addServed ⟨origin, ⟨base, len⟩, ptr⟩

end Semalloc
