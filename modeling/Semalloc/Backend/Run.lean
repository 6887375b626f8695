import Semalloc.Backend.Entry
import Semalloc.Library.Transition

/-!
# Runs of client threads

Client threads call the entry points, one whole call at a time, and write into the blocks they
hold. A configuration is the process together with the live blocks. A client frees and
reallocates live pointers only, writes inside live blocks only, and calls the entry points that
check no initialization only on an initialized thread.

## Main definitions

* `Block`: a live block, with the byte count that reached `mallocMemory`
* `Op`, `Event`, `Config`, `Config.step`: the calls of the clients and their effect
* `Permitted`: the discipline of the clients
* `Config.initial`: the process before its first call
* `bumpKernel`: a kernel that places each mapping above all others
-/

set_option autoImplicit false

namespace Semalloc

open ByteMemory Region

/-- A block the clients hold: its pointer, the byte count that reached `mallocMemory` for it, and
how many bytes from the pointer on the clients write. -/
structure Block where
  ptr : ℕ
  count : ℕ
  limit : ℕ
  deriving DecidableEq

inductive Op
  | malloc (size : Word)
  | calloc (nmemb size : Word)
  | realloc (ptr : ℕ) (size : Word)
  | free (ptr : ℕ)
  | memalign (alignment size : Word)
  | write (ptr offset : ℕ) (byte : BitVec 8)

/-- A call by the thread with a system identifier. -/
structure Event where
  thread : ℕ
  op : Op

structure Config where
  heap : Heap
  live : List Block

/-- The byte count a word decodes to in `mallocMemory(size_t)`. -/
def decodedSize (size : Word) : ℕ :=
  if isHugeWord size then (getHugeWordSize size).toNat else (getRealSize size).toNat

/-- The usable size of a block, read without changing the state. -/
def usableSize (h : Heap) (ptr : ℕ) : ℕ :=
  match cssMallocUsableSize ptr h with
  | .ok n _ => n
  | .error _ _ => 0

namespace Config

/-- The live blocks with the block at a pointer removed. -/
def dropLive (live : List Block) (ptr : ℕ) : List Block := live.filter fun B => B.ptr ≠ ptr

/-- The live blocks with the block at a returned pointer added, unless it is null. -/
def addLive (live : List Block) (ptr count limit : ℕ) : List Block :=
  if ptr = 0 then live else ⟨ptr, count, limit⟩ :: live

/-- The live blocks with the byte count of the block at a pointer replaced. -/
def resizeLive (live : List Block) (ptr count : ℕ) : List Block :=
  live.map fun B => if B.ptr = ptr then { B with count := count } else B

/-- What a call leaves, if it returned. -/
def returned {α : Type} (r : EStateM.Result Halt Heap α) (live : α → Heap → List Block) :
    Option Config :=
  match r with
  | .ok a h => some ⟨h, live a h⟩
  | .error _ _ => none

/-- One event, undefined when the process ends in it. -/
def step (c : Config) (e : Event) : Option Config :=
  match e.op with
  | .malloc size =>
    returned (cssMalloc e.thread size c.heap) fun r h =>
      addLive c.live r (decodedSize size) (usableSize h r)
  | .calloc nmemb size =>
    returned (cssCalloc e.thread nmemb size c.heap) fun r h =>
      addLive c.live r (nmemb * getRealSize size).toNat (usableSize h r)
  | .realloc ptr size =>
    returned (cssRealloc e.thread ptr size c.heap) fun r h =>
      if r = ptr then resizeLive c.live ptr (getRealSize size).toNat
      else addLive (dropLive c.live ptr) r (decodedSize size) (usableSize h r)
  | .free ptr =>
    returned (cssFree e.thread ptr c.heap) fun _ _ => dropLive c.live ptr
  | .memalign alignment size =>
    returned (cssMemalign e.thread alignment size c.heap) fun r _ =>
      addLive c.live r (memalignSize alignment (getRealSize size)).toNat
        (getRealSize size).toNat
  | .write ptr offset byte =>
    returned (poke (ptr + offset) 1 (writeByte · (ptr + offset) byte) c.heap) fun _ _ => c.live

/-- The pointer is null or points to a live block. -/
def Owned (c : Config) (ptr : ℕ) : Prop := ptr = 0 ∨ ∃ B ∈ c.live, B.ptr = ptr

instance (c : Config) (ptr : ℕ) : Decidable (c.Owned ptr) :=
  inferInstanceAs (Decidable (ptr = 0 ∨ ∃ B ∈ c.live, B.ptr = ptr))

/-- The thread has run `init_thread`. -/
def Initialized (c : Config) (τ : ℕ) : Prop := (c.heap.tls τ).tid = τ

instance (c : Config) (τ : ℕ) : Decidable (c.Initialized τ) :=
  inferInstanceAs (Decidable ((c.heap.tls τ).tid = τ))

/-- The discipline of the clients. System thread identifiers are not null. -/
def Permitted (c : Config) (e : Event) : Prop :=
  e.thread ≠ 0 ∧
    match e.op with
    | .malloc _ => True
    | .calloc _ _ => True
    | .realloc ptr _ => c.Owned ptr
    | .free ptr => c.Owned ptr
    | .memalign _ _ => True
    | .write ptr offset _ => ∃ B ∈ c.live, B.ptr = ptr ∧ offset < B.limit

instance (c : Config) (e : Event) : Decidable (c.Permitted e) := by
  unfold Permitted
  cases e.op <;> infer_instance

/-- The process before the first call: nothing mapped, no manager, no thread initialized. -/
def initial (os : Kernel) : Config where
  heap := {
    os := os
    mmapCount := 0
    maps := []
    mem := fun _ => 0
    bibops := fun _ => none
    globalMemoryManager := fun _ => none
    threadBump := 0
    tls := fun _ => ⟨0, 0⟩
    served := []
    calls := [] }
  live := []

end Config

/-! ## A concrete kernel -/

/-- The first page boundary above all regions, and not below `start`. -/
def topOf (start : ℕ) (maps : List Region) : ℕ :=
  pageCeil (maps.foldr (fun r top => max (r.base + r.len) top) (max start pageSize))

theorem le_pageCeil (n : ℕ) : n ≤ pageCeil n := by
  unfold pageCeil
  omega

theorem pageCeil_mod (n : ℕ) : pageCeil n % 4096 = 0 := by
  unfold pageCeil
  omega

theorem le_topOf (start : ℕ) {maps : List Region} {r : Region} (hr : r ∈ maps) :
    r.base + r.len ≤ topOf start maps := by
  refine le_trans ?_ (le_pageCeil _)
  induction maps with
  | nil => cases hr
  | cons s maps ih =>
    rcases List.mem_cons.mp hr with rfl | hr
    · exact le_max_left _ _
    · exact (ih hr).trans (le_max_right _ _)

theorem pageSize_le_topOf (start : ℕ) (maps : List Region) : pageSize ≤ topOf start maps := by
  refine le_trans ?_ (le_pageCeil _)
  induction maps with
  | nil => exact le_max_right _ _
  | cons s maps ih => exact ih.trans (le_max_right _ _)

/-- The kernel that answers with the lowest page above everything mapped. -/
def bumpKernel (start : ℕ) (failure : MmapFailure) : Kernel where
  mmap _ maps len :=
    if 0 < len ∧ topOf start maps + pageCeil len ≤ 2 ^ 63 then some (topOf start maps) else none
  mmap_fresh := by
    intro _ maps len a h
    split at h
    · rename_i hcond
      cases h
      exact ⟨hcond.1, pageCeil_mod _, pageSize_le_topOf start maps, hcond.2,
        fun r hr => Or.inr (le_topOf start hr)⟩
    · cases h
  failure := failure

end Semalloc
