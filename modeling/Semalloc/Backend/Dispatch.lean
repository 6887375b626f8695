import Semalloc.Backend.RunSpec

/-!
# The dispatch on the header

The 16 bytes before a pointer are a union: byte 15 tells a mapping from a slot, and byte 14 is the
control byte of a slot. `css_free`, `css_realloc` and `css_malloc_usable_size` read them to find out
where the block came from. As long as `css_memalign` shifts addresses only inside slots, and only
where the last byte of the second header is clear, the header of every live block says what was
recorded when its storage was handed out, whatever the clients wrote there before.

## Main definitions

* `Dispatched`: the header says what the record says
* `releaseByOrigin`, `sizeByOrigin`, `freeByOrigin`, `reallocByOrigin`: the entry points, told where
  the block came from

## Main results

* `free_dispatch_sound`: headers of live blocks dispatch by their records
* `shifted_mapping_dispatched`: a mapping taken for a slot
-/

set_option autoImplicit false

namespace Semalloc

open ByteMemory Region Effect MemoryManager

variable {P : Promise} {g : Ghost} {live : List Block} {h : Heap} {B : Block} {o : Origin}
  {r : Region} {τ : ℕ}

/-- The objects of the BIBOP at `b` have the length of the slot, and one of its chunks holds that
slot. -/
def Heap.Serves (h : Heap) (b : ℕ) (slot : Region) : Prop :=
  ∃ B, h.bibops b = some B ∧ B.objectSize = slot.len ∧
    ∃ r ∈ B.chunks, r.base ≤ slot.base ∧ slot.base + slot.len ≤ r.base + r.len

/-- The header before `ptr` says what was recorded: it is that of a mapping exactly for a mapping,
and otherwise names the thread and a BIBOP of the slot that holds `ptr`. -/
structure Dispatched (h : Heap) (ptr : ℕ) (e : Served) : Prop where
  huge : HugeHeader.isHuge h.mem (ptr - headerSize) = true ↔ e.origin = .huge
  contains : ∀ k, e.origin = .pool k → e.range.Contains ptr
  threadId : ∀ k, e.origin = .pool k → RegularHeader.threadId h.mem (ptr - headerSize) = k.thread
  bibop : ∀ k, e.origin = .pool k → h.Serves (RegularHeader.bibop h.mem (ptr - headerSize)) e.range

/-! ## Entry points that are told where the block came from -/

def releaseByOrigin (τ ptr : ℕ) : Origin → Proc Unit
  | .huge => freeHugeMemory ptr
  | .pool k => do
    let threadId ← getThreadId τ
    if k.thread = threadId then freeRegularMemory threadId ptr
    else freeOtherThreadMemory k.thread ptr

def sizeByOrigin (ptr : ℕ) : Origin → Proc ℕ
  | .huge => getHugeSize ptr
  | .pool _ => getRegularSize ptr

def freeByOrigin (τ ptr : ℕ) (o : Origin) : Proc Unit := do
  ensureThread τ
  releaseByOrigin τ ptr o

def reallocByOrigin (τ ptr : ℕ) (size : Word) (o : Origin) : Proc ℕ := do
  ensureThread τ
  if size = 0 then
    freeByOrigin τ ptr o
    return 0
  else
    let oldSize ← sizeByOrigin ptr o
    let realSize := getRealSize size
    if realSize.toNat ≤ oldSize then return ptr
    else
      let newObject ← mallocMemory (← getThreadId τ) size
      peek ptr oldSize fun _ => ()
      poke newObject oldSize (copy · newObject ptr oldSize)
      releaseByOrigin τ ptr o
      return newObject

/-! ## Origins of live blocks -/

/-- The live block lies in a slot of the compartment, or in a mapping of its own. -/
inductive ComesFrom (P : Promise) (g : Ghost) (m : ByteMemory) (B : Block) :
    Origin → Region → Prop
  | pool {b s : ℕ} {c : Compartment} (h : SlotLive P g.own g.reg g.use m b c s B) :
    ComesFrom P g m B (.pool c) ⟨s, slotSize c.sizeClass⟩
  | huge (h : HugeLive g.own m B) : ComesFrom P g m B .huge
    ⟨B.ptr - pageSize, HugeHeader.size m (B.ptr - headerSize) + pageSize⟩

theorem ComesFrom.liveBlock (hf : ComesFrom P g h.mem B o r) :
    LiveBlock P g.own g.reg g.use h.mem B := by
  cases hf with
  | pool hB => exact .slot hB
  | huge hB => exact .huge hB

/-- A live block that is spared comes from where it came from. -/
theorem ComesFrom.grows {x : ℕ → Prop} {g' : Ghost} {h' : Heap} (hf : ComesFrom P g h.mem B o r)
    (hl : Layout g.own g.reg h) (hg : Grows x g h g' h') (hx : ¬ x B.ptr) :
    ComesFrom P g' h'.mem B o r := by
  have hsame := hf.liveBlock.grows hl hg hx
  cases hf with
  | pool hB => exact .pool (hB.grows hl hg hx)
  | huge hB =>
    rw [← hsame.size]
    exact .huge (hB.grows hg hx hsame)

theorem ComesFrom.head_covers (hf : ComesFrom P g h.mem B o r) (hl : Layout g.own g.reg h) :
    covers h.maps (B.ptr - headerSize) headerSize = true := by
  cases hf with
  | pool hB => exact hB.block.head_covers hl
  | huge hB => exact hB.head_covers hl

/-- The BIBOP that carved a slot serves it. -/
theorem SlotBlock.serves {b s p : ℕ} {c : Compartment}
    (hp : SlotBlock P g.own g.reg h.mem b c s p) (hl : Layout g.own g.reg h) :
    h.Serves b ⟨s, slotSize c.sizeClass⟩ := by
  obtain ⟨-, c₁, B₁, hr₁, hB₁, -, hok, -⟩ := hl.slot _ _ _ hp.own
  rw [hp.reg] at hr₁
  obtain rfl := Option.some.inj hr₁
  obtain ⟨B₂, hB₂, hbibop⟩ := hl.bibop b c hp.reg
  rw [hB₁] at hB₂
  obtain rfl := Option.some.inj hB₂
  exact ⟨B₁, hB₁, hbibop.objectSize, hok.chunk⟩

/-- **The newest record** over the header of a live block is the one of its storage. -/
theorem Inv.dispatched (hi : Inv P g live h) (hB : B ∈ live) :
    ∃ e, h.newest (B.ptr - headerSize) = some e ∧ ComesFrom P g h.mem B e.origin e.range ∧
      Dispatched h B.ptr e := by
  obtain ⟨e, he, hlog⟩ := hi.history.logged B hB
  have hsize : headerSize = 16 := rfl
  refine ⟨e, he, ?_⟩
  cases hi.contents.live B hB with
  | @slot b s c hB =>
    have hblock := hB.block
    have hle := hblock.slot_le
    have hle' := hblock.le_slot
    have hhead := hblock.head_own hi.layout le_rfl (by omega)
    cases hlog with
    | huge _ _ _ hhead' => rw [hhead] at hhead'; cases hhead'
    | @pool b' c' ho hr hown huse hhead' =>
      rw [hhead] at hhead'
      obtain ⟨rfl, rfl⟩ := Owner.slot.inj hhead'
      rw [hblock.reg] at hr
      obtain rfl := Option.some.inj hr
      obtain ⟨b₁, -, -, hlen⟩ := hi.history.origin e (Heap.newest_mem he) c ho
      have hrange : e.range = ⟨e.range.base, slotSize c.sizeClass⟩ := by rw [← hlen]
      have hcomes : ComesFrom P g h.mem B e.origin e.range := by
        rw [ho, hrange]
        exact .pool hB
      refine ⟨hcomes, ?_, ?_, ?_, ?_⟩
      · rw [hblock.notHuge, ho]
        simp
      · intro k _
        constructor
        · omega
        · rw [hlen]
          omega
      · intro k hk
        rw [ho] at hk
        cases hk
        exact hblock.threadId
      · intro k _
        rw [hblock.bibop, hrange]
        exact hblock.serves hi.layout
  | huge hB =>
    have hge := hB.ptr_ge
    have hhead : g.own (B.ptr - headerSize) = .huge B.ptr := by
      refine hB.own _ ?_ ?_ <;> simp only [pageSize] at * <;> omega
    cases hlog with
    | pool _ _ _ _ hhead' => rw [hhead] at hhead'; cases hhead'
    | huge ho hrange _ _ =>
      have hcomes : ComesFrom P g h.mem B e.origin e.range := by
        rw [ho, hrange]
        exact .huge hB
      have hno : ∀ k, e.origin ≠ .pool k := fun k hk => by rw [ho] at hk; cases hk
      refine ⟨hcomes, ⟨?_, fun k hk => absurd hk (hno k), fun k hk => absurd hk (hno k),
        fun k hk => absurd hk (hno k)⟩⟩
      rw [hB.isHuge, ho]
      simp

/-! ## What the entry points do -/

/-- A read of mapped memory goes on with what is there. -/
theorem peek_bind {α β : Type} {a n : ℕ} {f : ByteMemory → α} {k : α → Proc β}
    (hc : covers h.maps a n = true) : (peek a n f >>= k) h = k (f h.mem) h := by
  have hread : Spec (peek a n f) h (fun v t => v = f h.mem ∧ t = h) fun _ => False :=
    peek_spec (.inl hc) fun _ => ⟨rfl, rfl⟩
  obtain ⟨v, t, hrun, rfl, rfl⟩ := hread.exists_ok
  change EStateM.bind (peek a n f) k t = _
  unfold EStateM.bind
  rw [hrun]

theorem releaseBlock_eq (hf : ComesFrom P g h.mem B o r) (hl : Layout g.own g.reg h) :
    releaseBlock τ B.ptr h = releaseByOrigin τ B.ptr o h := by
  have hcov := hf.head_covers hl
  refine (peek_bind hcov).trans ?_
  cases hf with
  | huge hB => exact congrFun (if_pos hB.isHuge) h
  | pool hB =>
    refine (congrFun (if_neg (by simp [hB.block.notHuge])) h).trans ?_
    refine (peek_bind hcov).trans ?_
    rw [hB.block.threadId]
    rfl

theorem cssMallocUsableSize_eq (hf : ComesFrom P g h.mem B o r) (hl : Layout g.own g.reg h) :
    cssMallocUsableSize B.ptr h = sizeByOrigin B.ptr o h := by
  refine (peek_bind (hf.head_covers hl)).trans ?_
  cases hf with
  | huge hB => exact congrFun (if_pos hB.isHuge) h
  | pool hB => exact congrFun (if_neg (by simp [hB.block.notHuge])) h

/-- **`css_free`** of a live block releases it by its origin. -/
theorem cssFree_eq (hi : Inv P g live h) (hready : Ready h) (hτ : τ ≠ 0) (hB : B ∈ live)
    (hf : ComesFrom P g h.mem B o r) : cssFree τ B.ptr h = freeByOrigin τ B.ptr o h := by
  have hpos := hi.ptr_pos hB
  unfold cssFree freeByOrigin
  refine Spec.bind_congr (ensureThread_spec hi hready hτ) ?_
  rintro - h₁ ⟨g₁, ha, -⟩
  rw [if_neg hpos.ne']
  exact releaseBlock_eq (hf.grows hi.layout ha.grows fun hx => hx) ha.inv.layout

/-- **`css_realloc`** of a live block reads its size, and releases it, by its origin. -/
theorem cssRealloc_eq {size : Word} (hi : Inv P g live h) (hready : Ready h) (hτ : τ ≠ 0)
    (hB : B ∈ live) (hf : ComesFrom P g h.mem B o r) :
    cssRealloc τ B.ptr size h = reallocByOrigin τ B.ptr size o h := by
  have hpos := hi.ptr_pos hB
  unfold cssRealloc reallocByOrigin
  refine Spec.bind_congr (ensureThread_spec hi hready hτ) ?_
  rintro - h₁ ⟨g₁, ha, hs⟩
  have hf₁ := hf.grows hi.layout ha.grows fun hx => hx
  rw [if_neg hpos.ne']
  split
  · exact bind_congr_left (cssFree_eq ha.inv ha.ready hτ hB hf₁)
  rw [bind_congr_left (cssMallocUsableSize_eq hf₁ ha.inv.layout)]
  -- reading the size leaves the process as it is
  have hread : Spec (sizeByOrigin B.ptr o) h₁ (fun _ t => h₁ = t) fun _ => True := by
    have hu := (hf₁.liveBlock.usable ha.inv.layout).1
    rw [cssMallocUsableSize_eq hf₁ ha.inv.layout] at hu
    unfold Spec
    rw [hu]
  refine Spec.bind_congr hread ?_
  rintro oldSize _ rfl
  dsimp only
  split
  · rfl
  rename_i hlt
  obtain ⟨-, m, hm⟩ := hs
  obtain ⟨hi₁, hg₁⟩ := ha.inv.addCall (x := Spared) ⟨τ, (h₁.tls τ).threadId⟩
  have hthread : Spec (getThreadId τ) h₁ (fun t h₂ => t = (h₁.tls τ).threadId ∧
      h₂ = h₁.addCall ⟨τ, (h₁.tls τ).threadId⟩) fun _ => True := getThreadId_spec ⟨rfl, rfl⟩
  refine Spec.bind_congr hthread ?_
  rintro _ _ ⟨rfl, rfl⟩
  refine Spec.bind_congr (mallocMemory_spec hi₁ ha.ready hm
    (decodedSize_le_mallocUsable size)) ?_
  rintro q h₂ (⟨-, -, hz, -⟩ | ⟨-, hnew⟩)
  · rw [hz] at hlt
    exact absurd (Nat.zero_le _) hlt
  have hpeek : Spec (peek B.ptr oldSize fun _ => ()) h₂ (fun _ h₃ => h₂ = h₃) fun _ => True :=
    peek_spec (.inr trivial) fun _ => rfl
  refine Spec.bind_congr hpeek ?_
  rintro _ _ rfl
  have hcopy : Spec (poke q oldSize (copy · q B.ptr oldSize)) h₂
      (fun _ h₃ => h₃ = h₂.setMem (copy h₂.mem q B.ptr oldSize)) fun _ => True :=
    poke_spec (.inr trivial) fun _ => rfl
  refine Spec.bind_congr hcopy ?_
  rintro _ _ rfl
  refine bind_congr_left ?_
  -- the copy stays inside the new block
  have hinside : ∀ a, copy h₂.mem q B.ptr oldSize a ≠ h₂.mem a →
      q ≤ a ∧ a < q + mallocUsable size := fun a hchanged => by
    have hle := decodedSize_le_mallocUsable size
    have hle' := realSize_le_decodedSize size
    by_contra hout
    exact hchanged (copy_of_outside (by omega))
  obtain ⟨-, hfalse, -⟩ | ⟨-, -, ⟨g₂, ha₂⟩, -⟩ := hnew.write not_false hinside
  · exact hfalse.elim
  have hf₂ : ComesFrom P g₁ (h₁.addCall ⟨τ, (h₁.tls τ).threadId⟩).mem B o r := hf₁
  exact releaseBlock_eq (hf₂.grows hi₁.layout ha₂.grows fun hout => hout B hB rfl) ha₂.inv.layout

/-! ## Runs -/

namespace Config

/-- The configurations at the end of a run of permitted events, whatever `css_memalign` shifts. -/
def AnyRun (os : Kernel) : Config → Prop :=
  Transition.Reachable (· = initial os) Permitted step

end Config

/-- **The dispatch is sound**: in every run in which `css_memalign` shifts addresses only inside
slots and over a clear last header byte, the header of every live block agrees with the newest
record of the storage it lies in, and the three functions that read headers do what they would do
if they were told where the block came from. -/
theorem free_dispatch_sound {os : Kernel} {c : Config} (hos : os.failure = .excluded)
    (hr : Config.Run .cleanShifts os c) (hB : B ∈ c.live) :
    ∃ e, c.heap.newest (B.ptr - headerSize) = some e ∧ Dispatched c.heap B.ptr e ∧
      cssMallocUsableSize B.ptr c.heap = sizeByOrigin B.ptr e.origin c.heap ∧
      ∀ τ, τ ≠ 0 → cssFree τ B.ptr c.heap = freeByOrigin τ B.ptr e.origin c.heap ∧
        ∀ size, cssRealloc τ B.ptr size c.heap = reallocByOrigin τ B.ptr size e.origin c.heap := by
  obtain ⟨g, hi, hready⟩ := hr.sound hos
  obtain ⟨e, he, hf, hd⟩ := hi.dispatched hB
  refine ⟨e, he, hd, cssMallocUsableSize_eq hf hi.layout, fun τ hτ => ⟨?_, fun size => ?_⟩⟩
  · exact cssFree_eq hi hready hτ hB hf
  · exact cssRealloc_eq hi hready hτ hB hf

/-- A shifted block beside one in a slot the clients wrote to before. -/
theorem free_dispatch_sound_shifted :
    ∃ c e, Config.Run .cleanShifts (bumpKernel 0 .excluded) c ∧
      c.heap.newest (55909707840 - headerSize) = some e ∧ e.ptr ≠ 55909707840 ∧
      Dispatched c.heap 55909707840 e := by
  have hrun : ((Config.run .cleanShifts (bumpKernel 0 .excluded)
      [⟨1, .malloc 24⟩, ⟨1, .write 47319765008 23 0xFF⟩, ⟨1, .free 47319765008⟩,
        ⟨1, .malloc 24⟩, ⟨1, .memalign 64 24⟩]).map fun c =>
      (decide (⟨55909707840, 128, 24⟩ ∈ c.live),
        (c.heap.newest (55909707840 - headerSize)).map Served.ptr)) =
      some (true, some 55909707792) := by decide +kernel
  obtain ⟨c, hc, heq⟩ := Option.map_eq_some_iff.mp hrun
  obtain ⟨hlive, hptr⟩ := Prod.mk.inj heq
  obtain ⟨e, he, hd, -⟩ := free_dispatch_sound rfl (.of_run hc) (of_decide_eq_true hlive)
  refine ⟨c, e, .of_run hc, he, ?_, hd⟩
  rw [he] at hptr
  rw [Option.some.inj hptr]
  decide

/-- **A mapping taken for a slot**: the second header of a shifted mapping has a clear last byte. -/
theorem shifted_mapping_dispatched :
    ∃ c e, Config.AnyRun (bumpKernel 0 .excluded) c ∧
      c.heap.newest (103154712576 - headerSize) = some e ∧ c.Owned 103154712576 ∧
      e.origin = .huge ∧
      HugeHeader.isHuge c.heap.mem (103154712576 - headerSize) = false := by
  have hrun : ((Transition.exec Config.Permitted Config.step
      (Config.initial (bumpKernel 0 .excluded))
      [⟨1, .malloc 24⟩, ⟨1, .memalign 0x100000 0x40000⟩]).map fun c =>
      (decide (c.Owned 103154712576),
        HugeHeader.isHuge c.heap.mem (103154712576 - headerSize),
        (c.heap.newest (103154712576 - headerSize)).map Served.origin)) =
      some (true, false, some .huge) := by decide +kernel
  obtain ⟨c, hc, heq⟩ := Option.map_eq_some_iff.mp hrun
  obtain ⟨howned, heq⟩ := Prod.mk.inj heq
  obtain ⟨hheader, horigin⟩ := Prod.mk.inj heq
  obtain ⟨e, he, horigin⟩ := Option.map_eq_some_iff.mp horigin
  exact ⟨c, e, .of_exec (.start rfl) hc, he, of_decide_eq_true howned, horigin, hheader⟩

end Semalloc
