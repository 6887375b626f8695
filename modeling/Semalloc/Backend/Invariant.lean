import Semalloc.Backend.Run
import Semalloc.Library.Chain

/-!
# The heap invariant

The invariant is stated over a ghost view of the process: every byte has one owner, every BIBOP
one compartment, and every slot one use. Being functions, the three say by themselves that slots,
pools and mappings are disjoint, that no BIBOP serves two contexts, and that no slot is live and
free at once.

`Layout` relates owners to the allocator's objects, `Contents` relates uses to the bytes in
memory, and `History` relates both to what was handed out before. What a class of runs promises
beyond the discipline of the clients is a parameter, a `Promise`.

## Main definitions

* `Owner`, `Use`, `Ghost`: the ghost view
* `SlotBlock`, `HugeLive`, `LiveBlock`: what the header of a block says
* `Layout`, `Contents`, `History`, `Inv`: the invariant
* `Ready`: no BIBOP has bumped past its chunk
* `Grows`: what every operation keeps
-/

set_option autoImplicit false

namespace Semalloc

open ByteMemory Region

/-- Who owns a byte: nobody, the allocator for the moment, the allocator's objects, the unused part
of a metadata pool or of a data pool of a thread, the chunk of a BIBOP outside its slots, a slot of
a BIBOP, or the mapping of a huge block. -/
inductive Owner
  | nobody
  | fresh
  | metadata
  | metaPool (t : ℕ)
  | dataPool (t : ℕ)
  | spare (b : ℕ)
  | slot (b s : ℕ)
  | huge (p : ℕ)
  deriving DecidableEq

/-- Bytes of these owners are zero. -/
def Owner.Blank : Owner → Prop
  | .fresh | .metaPool _ | .dataPool _ | .spare _ => True
  | _ => False

/-- What a slot is used for: nothing for the moment, the free list, or the block at a pointer,
live or on a remote free list. -/
inductive Use
  | limbo
  | free
  | pending (p : ℕ)
  | live (p : ℕ)
  deriving DecidableEq

/-- The ghost view of a process. -/
structure Ghost where
  own : ℕ → Owner
  reg : ℕ → Option Compartment
  free : ℕ → List ℕ
  pending : ℕ → List ℕ
  use : ℕ → Use

/-- What a class of runs promises: compartments of which no block is ever released, and whether
blocks may be shifted by an alignment. -/
structure Promise where
  kept : Compartment → Prop
  shifted : Prop

/-- The link word at the start of a node. -/
def link (m : ByteMemory) (x : ℕ) : ℕ := readLE m x 8

/-! ## Blocks -/

/-- The header before `p` leads to the slot `s` of `b`. Either the block is the whole data of the
slot, with its allocation bit set, or it was shifted inside the slot, with that bit clear. -/
structure SlotBlock (P : Promise) (own : ℕ → Owner) (reg : ℕ → Option Compartment)
    (m : ByteMemory) (b : ℕ) (c : Compartment) (s p : ℕ) : Prop where
  reg : reg b = some c
  own : own s = .slot b s
  bibop : RegularHeader.bibop m (p - headerSize) = b
  threadId : RegularHeader.threadId m (p - headerSize) = c.thread
  notHuge : HugeHeader.isHuge m (p - headerSize) = false
  aligned : p % 16 = 0
  slot_le : s + headerSize ≤ p
  le_slot : p + headerSize ≤ s + slotSize c.sizeClass
  kind : (p = s + headerSize ∧ RegularHeader.isRegular m (p - headerSize) = true ∧
      RegularHeader.isAllocation m (p - headerSize) = true ∧
      RegularHeader.memalignOffset m (p - headerSize) = 0) ∨
    (P.shifted ∧ s + 2 * headerSize ≤ p ∧
      RegularHeader.isAllocation m (p - headerSize) = false)

/-- A live block with a mapping of its own, from the page before it to its end. -/
structure HugeLive (own : ℕ → Owner) (m : ByteMemory) (B : Block) : Prop where
  own : ∀ a, B.ptr - pageSize ≤ a →
    a < B.ptr + HugeHeader.size m (B.ptr - headerSize) → own a = .huge B.ptr
  isHuge : HugeHeader.isHuge m (B.ptr - headerSize) = true
  aligned : B.ptr % pageSize = 0
  ptr_ge : 2 * pageSize ≤ B.ptr
  top : B.ptr + HugeHeader.size m (B.ptr - headerSize) ≤ 2 ^ 63
  size_mod : HugeHeader.size m (B.ptr - headerSize) % pageSize = 0
  count_le : B.count ≤ HugeHeader.size m (B.ptr - headerSize)
  limit_le : B.limit ≤ HugeHeader.size m (B.ptr - headerSize)

/-- A live block in a slot. -/
structure SlotLive (P : Promise) (own : ℕ → Owner) (reg : ℕ → Option Compartment) (use : ℕ → Use)
    (m : ByteMemory) (b : ℕ) (c : Compartment) (s : ℕ) (B : Block) : Prop where
  block : SlotBlock P own reg m b c s B.ptr
  use : use s = .live B.ptr
  count_le : B.count ≤ minBagSize <<< c.sizeClass
  limit_le : B.ptr + B.limit ≤ s + slotSize c.sizeClass

inductive LiveBlock (P : Promise) (own : ℕ → Owner) (reg : ℕ → Option Compartment) (use : ℕ → Use)
    (m : ByteMemory) (B : Block) : Prop
  | slot {b s : ℕ} {c : Compartment} (h : SlotLive P own reg use m b c s B)
  | huge (h : HugeLive own m B)

/-! ## Layout -/

/-- The addresses a pool has not handed out belong to it. -/
structure PoolOk (own : ℕ → Owner) (o : Owner) (p : MemoryPool) : Prop where
  base_pos : 0 < p.bumpMemory
  bump_le : p.bumpMemory ≤ p.boundaryMemory
  top : p.boundaryMemory ≤ 2 ^ 63
  own : ∀ a, p.bumpMemory ≤ a → a < p.boundaryMemory → own a = o

/-- The BIBOP at `b` with its current chunk. -/
structure BIBOPOk (own : ℕ → Owner) (b : ℕ) (c : Compartment) (B : SingleBIBOP) : Prop where
  sizeClass : c.sizeClass < globalBagN
  thread : c.thread < 2 ^ 16
  objectSize : B.objectSize = slotSize c.sizeClass
  object : own b = .metadata
  bound : b < 2 ^ 63
  aligned : B.bump % 16 = 0
  base_pos : 0 < B.base
  base_le : B.base ≤ B.bump
  top : B.base + B.capacity ≤ 2 ^ 63
  chunk : ⟨B.base, B.capacity⟩ ∈ B.chunks
  spare : ∀ a, B.bump ≤ a → a < B.base + B.capacity → own a = .spare b

/-- The slot `s` of the BIBOP at `b` lies in one of its chunks and owns its own bytes. -/
structure SlotOk (own : ℕ → Owner) (b s : ℕ) (c : Compartment) (B : SingleBIBOP) : Prop where
  aligned : s % 16 = 0
  own : ∀ a, s ≤ a → a < s + slotSize c.sizeClass → own a = .slot b s
  chunk : ∃ r ∈ B.chunks, r.base ≤ s ∧ s + slotSize c.sizeClass ≤ r.base + r.len

/-- The manager at index `t`. -/
structure ManagerOk (own : ℕ → Owner) (reg : ℕ → Option Compartment) (t : ℕ) (m : MemoryManager) :
    Prop where
  threadId : m.threadId = t
  bound : t < maxThread
  dataPool : PoolOk own (.dataPool t) (m.individualDataPool m.individualDatPoolBump)
  dataAligned : (m.individualDataPool m.individualDatPoolBump).bumpMemory % 16 = 0
  metaPool : PoolOk own (.metaPool t) m.metadataPool
  globalBIBOP : ∀ k, k < globalBagN → reg (m.globalBIBOP k) = some ⟨t, none, k⟩
  table : ∀ i k, k < globalBagN → (m.individualBIBOP i).CSI.toNat ≠ allOnes →
    (m.individualBIBOP i).ptr k ≠ allOnes →
    reg ((m.individualBIBOP i).ptr k) = some ⟨t, some (m.individualBIBOP i).CSI, k⟩
  blank : ∀ i k, (m.individualBIBOP i).CSI.toNat = allOnes →
    (m.individualBIBOP i).ptr k = allOnes

structure Layout (own : ℕ → Owner) (reg : ℕ → Option Compartment) (h : Heap) : Prop where
  excluded : h.os.failure = .excluded
  mapped : ∀ a, own a ≠ .nobody → Mapped h.maps a
  userSpace : ∀ a, Mapped h.maps a → pageSize ≤ a ∧ a < 2 ^ 63
  bibop : ∀ b c, reg b = some c → ∃ B, h.bibops b = some B ∧ BIBOPOk own b c B
  known : ∀ b B, h.bibops b = some B → ∃ c, reg b = some c
  slot : ∀ a b s, own a = .slot b s → s ≤ a ∧ ∃ c B, reg b = some c ∧
    h.bibops b = some B ∧ a < s + slotSize c.sizeClass ∧ SlotOk own b s c B ∧
    ∃ m, h.globalMemoryManager c.thread = some m
  manager : ∀ t m, h.globalMemoryManager t = some m → ManagerOk own reg t m
  thread : ∀ τ, τ ≠ 0 → (h.tls τ).tid = τ →
    ∃ m, h.globalMemoryManager (h.tls τ).threadId = some m
  unborn : ∀ t, h.threadBump ≤ t → h.globalMemoryManager t = none

/-! ## Contents -/

structure Contents (P : Promise) (g : Ghost) (live : List Block) (h : Heap) : Prop where
  zero : ∀ a, (g.own a).Blank → h.mem a = 0
  clean : ∀ b s, g.own s = .slot b s → HugeHeader.isHuge h.mem s = false
  used : ∀ s, g.use s ≠ .limbo → ∃ b, g.own s = .slot b s
  freeChain : ∀ b B, h.bibops b = some B → Chain (link h.mem) B.freeList (g.free b)
  freeSlot : ∀ b s, s ∈ g.free b → g.own s = .slot b s ∧ g.use s = .free ∧
    RegularHeader.isAllocation h.mem s = false
  freeNodup : ∀ b, (g.free b).Nodup
  pendingChain : ∀ t m, h.globalMemoryManager t = some m →
    Chain (link h.mem) m.freeList (g.pending t)
  pendingBlock : ∀ t p, p ∈ g.pending t → ∃ b c s, c.thread = t ∧
    SlotBlock P g.own g.reg h.mem b c s p ∧ g.use s = .pending p
  pendingNodup : ∀ t, (g.pending t).Nodup
  pendingUnborn : ∀ t, h.globalMemoryManager t = none → g.pending t = []
  liveNodup : (live.map Block.ptr).Nodup
  live : ∀ B ∈ live, LiveBlock P g.own g.reg g.use h.mem B

/-! ## History -/

/-- The record of a slot: it is still a slot of the compartment it was served from. -/
def SlotRecord (own : ℕ → Owner) (reg : ℕ → Option Compartment) (e : Served) (c : Compartment) :
    Prop :=
  ∃ b, reg b = some c ∧ own e.range.base = .slot b e.range.base ∧
    e.range.len = slotSize c.sizeClass

/-- The record `later` respects the earlier one: an overlap with a slot means the same
compartment, and one that has seen a release. -/
def Respects (P : Promise) (later earlier : Served) : Prop :=
  ∀ c, earlier.origin = .pool c → later.range.Overlaps earlier.range →
    later.origin = .pool c ∧ ¬ P.kept c

/-- The record of a live block: its slot, or its mapping. -/
inductive Logged (g : Ghost) (m : ByteMemory) (e : Served) (B : Block) : Prop
  | pool {b : ℕ} {c : Compartment} (ho : e.origin = .pool c) (hr : g.reg b = some c)
      (hown : g.own e.range.base = .slot b e.range.base)
      (huse : g.use e.range.base = .live B.ptr)
      (hhead : g.own (B.ptr - headerSize) = .slot b e.range.base)
  | huge (ho : e.origin = .huge)
      (hr : e.range = ⟨B.ptr - pageSize, HugeHeader.size m (B.ptr - headerSize) + pageSize⟩)
      (hown : g.own (B.ptr - pageSize) = .huge B.ptr)
      (hhead : g.own (B.ptr - headerSize) = .huge B.ptr)

structure History (P : Promise) (g : Ghost) (live : List Block) (h : Heap) : Prop where
  origin : ∀ e ∈ h.served, ∀ c, e.origin = .pool c → SlotRecord g.own g.reg e c
  isolated : h.served.Pairwise (Respects P)
  logged : ∀ B ∈ live, ∃ e, h.newest (B.ptr - headerSize) = some e ∧ Logged g h.mem e B
  kept : ∀ b s c, g.own s = .slot b s → g.reg b = some c → P.kept c →
    g.use s = .limbo ∨ ∃ p, g.use s = .live p

/-- **The invariant** of the process, for the ghost view `g` and the live blocks `live`. -/
structure Inv (P : Promise) (g : Ghost) (live : List Block) (h : Heap) : Prop where
  layout : Layout g.own g.reg h
  contents : Contents P g live h
  history : History P g live h

/-- No BIBOP has bumped past its chunk. -/
def Ready (h : Heap) : Prop := ∀ b B, h.bibops b = some B → B.bump ≤ B.base + B.capacity

/-! ## What operations keep -/

/-- The byte belongs to the live block at `p`. -/
inductive Held (g : Ghost) (a p : ℕ) : Prop
  | slot {b s : ℕ} (ho : g.own a = .slot b s) (hu : g.use s = .live p)
  | huge (ho : g.own a = .huge p)

/-- From one process to a later one, BIBOPs keep their compartments, slots and objects stay, bytes of
live blocks outside `x` stay theirs and unchanged, records are only added, managers stay, and
initialized threads keep theirs. -/
structure Grows (x : ℕ → Prop) (g : Ghost) (h : Heap) (g' : Ghost) (h' : Heap) : Prop where
  reg : ∀ b c, g.reg b = some c → g'.reg b = some c
  slot : ∀ a b s, g.own a = .slot b s → g'.own a = .slot b s
  object : ∀ a, g.own a = .metadata → g'.own a = .metadata
  held : ∀ a p, Held g a p → ¬ x p → h'.mem a = h.mem a
  use : ∀ s p, g.use s = .live p → ¬ x p → g'.use s = .live p
  huge : ∀ a p, g.own a = .huge p → ¬ x p → g'.own a = .huge p
  served : h.served <:+ h'.served
  thread : ∀ τ, (h.tls τ).tid = τ → h'.tls τ = h.tls τ
  manager : ∀ t m, h.globalMemoryManager t = some m → ∃ m', h'.globalMemoryManager t = some m'

namespace Grows

variable {x y : ℕ → Prop} {g g₁ g₂ : Ghost} {h h₁ h₂ : Heap}

theorem refl (x : ℕ → Prop) (g : Ghost) (h : Heap) : Grows x g h g h where
  reg _ _ hb := hb
  slot _ _ _ ha := ha
  object _ ha := ha
  held _ _ _ _ := rfl
  use _ _ hs _ := hs
  huge _ _ ha _ := ha
  served := List.suffix_rfl
  thread _ _ := rfl
  manager _ m hm := ⟨m, hm⟩

theorem heldMono (hg : Grows x g h g₁ h₁) {a p : ℕ} (ha : Held g a p) (hx : ¬ x p) :
    Held g₁ a p := by
  cases ha with
  | slot ho hu => exact .slot (hg.slot _ _ _ ho) (hg.use _ _ hu hx)
  | huge ho => exact .huge (hg.huge _ _ ho hx)

theorem trans (hg : Grows x g h g₁ h₁) (hg' : Grows x g₁ h₁ g₂ h₂) : Grows x g h g₂ h₂ where
  reg b c hb := hg'.reg b c (hg.reg b c hb)
  slot a b s ha := hg'.slot a b s (hg.slot a b s ha)
  object a ha := hg'.object a (hg.object a ha)
  held a p ha hx := (hg'.held a p (hg.heldMono ha hx) hx).trans (hg.held a p ha hx)
  use s p hs hx := hg'.use s p (hg.use s p hs hx) hx
  huge a p ha hx := hg'.huge a p (hg.huge a p ha hx) hx
  served := hg.served.trans hg'.served
  thread τ hτ := by
    have h₁ := hg.thread τ hτ
    rw [hg'.thread τ (by rw [h₁]; exact hτ), h₁]
  manager t m hm := by
    obtain ⟨m', hm'⟩ := hg.manager t m hm
    exact hg'.manager t m' hm'

theorem mono (hg : Grows x g h g₁ h₁) (hxy : ∀ p, x p → y p) : Grows y g h g₁ h₁ where
  reg := hg.reg
  slot := hg.slot
  object := hg.object
  held a p ha hy := hg.held a p ha fun hx => hy (hxy p hx)
  use s p hs hy := hg.use s p hs fun hx => hy (hxy p hx)
  huge a p ha hy := hg.huge a p ha fun hx => hy (hxy p hx)
  served := hg.served
  thread := hg.thread
  manager := hg.manager

end Grows

/-- The process after an operation: the invariant holds, no BIBOP has run over, and the process has
grown. -/
structure After (P : Promise) (x : ℕ → Prop) (g : Ghost) (h : Heap) (live' : List Block)
    (g' : Ghost) (h' : Heap) : Prop where
  inv : Inv P g' live' h'
  ready : Ready h'
  grows : Grows x g h g' h'

namespace After

variable {P : Promise} {x : ℕ → Prop} {g g₁ g₂ : Ghost} {h h₁ h₂ : Heap}
  {live₁ live₂ : List Block}

theorem trans (ha : After P x g h live₁ g₁ h₁) (hb : After P x g₁ h₁ live₂ g₂ h₂) :
    After P x g h live₂ g₂ h₂ :=
  ⟨hb.inv, hb.ready, ha.grows.trans hb.grows⟩

theorem mono {y : ℕ → Prop} (ha : After P x g h live₁ g₁ h₁) (hxy : ∀ p, x p → y p) :
    After P y g h live₁ g₁ h₁ :=
  ⟨ha.inv, ha.ready, ha.grows.mono hxy⟩

end After

end Semalloc
