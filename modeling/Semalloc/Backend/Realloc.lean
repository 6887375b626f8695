import Semalloc.Backend.Aligned
import Semalloc.Backend.Integrity

/-!
# Reallocation, step by step

`css_realloc` of a live block reads its size, and either leaves it in place, or allocates another
block, copies the old one's bytes, and releases the old one to where it came from: the kernel, the
BIBOP of its slot, or the remote free list of another thread.

## Main definitions

* `GoesBack`: what the release of a block does with its storage
* `reallocOfSize`: `css_realloc`, told the old size
* `GaveUp`: the calls that ran out of memory, or of threads

## Main results

* `releaseBlock_goesBack`: the release does just that
* `cssRealloc_ofSize`: the old size is the usable size
* `moveBlock_traced`: a block moves by one allocation, one copy and one release
-/

set_option autoImplicit false

namespace Semalloc

open ByteMemory Region Effect MemoryManager

variable {P : Promise} {g g' : Ghost} {live : List Block} {h h' : Heap} {c : Config} {B : Block}
  {o : Origin} {r : Region} {e : Served} {p τ : ℕ}

/-! ## Storage of live blocks -/

/-- Every byte of the storage of a live block belongs to it, shifted or not. -/
theorem ComesFrom.held (hf : ComesFrom P g h.mem B o r) (hl : Layout g.own g.reg h) {a : ℕ}
    (ha : r.Contains a) : Held g a B.ptr := by
  cases hf with
  | pool hB =>
    have hs := hl.slotRange_of_reg hB.block.own hB.block.reg
    exact .slot (hs.own a ha.1 ha.2) hB.use
  | huge hB =>
    have hge := hB.ptr_ge
    obtain ⟨h₁, h₂⟩ := ha
    refine .huge (hB.own a h₁ ?_)
    simp only [pageSize] at h₂ hge
    omega

/-- The usable bytes of a block that is not shifted lie in its storage. -/
theorem ComesFrom.includes_usable (hf : ComesFrom P g h.mem B o r) (hl : Layout g.own g.reg h)
    (hP : ¬ P.shifted) : r.Includes (usableRange h B.ptr) := by
  rintro a ⟨h₁, h₂⟩
  simp only [usableRange] at h₁ h₂
  have hsize : headerSize = 16 := rfl
  cases hf with
  | @pool b s k hB =>
    have hclass := slotSize_sub k.sizeClass
    have hge := slotSize_ge k.sizeClass
    have hu : usableSize h B.ptr = minBagSize <<< k.sizeClass := by
      rw [usableSize, hB.block.usableSize hl]
    obtain ⟨hptr, -⟩ := hB.block.kind.resolve_right fun hk => hP hk.1
    exact ⟨by simp only; omega, by simp only; omega⟩
  | huge hB =>
    have hge := hB.ptr_ge
    have hu : usableSize h B.ptr = HugeHeader.size h.mem (B.ptr - headerSize) := by
      rw [usableSize, hB.usableSize hl]
    simp only [pageSize] at hge
    exact ⟨by simp only [pageSize]; omega, by simp only [pageSize]; omega⟩

/-! ## Release -/

/-- The storage of the block at `p` goes back to where it came from: a mapping is unmapped, a slot
of the calling thread is linked into its BIBOP, and a slot of another thread has its block pushed
on that thread's remote free list. -/
def GoesBack (τ p : ℕ) (e : Served) (h h' : Heap) : Prop :=
  match e.origin with
  | .huge => GivesBack τ e h h'
  | .pool k =>
    if k.thread = (h.tls τ).threadId then GivesBack τ e h h'
    else ∃ m, h.globalMemoryManager k.thread = some m ∧
      h' = ((h.addCall ⟨τ, (h.tls τ).threadId⟩).setMem (writeLE h.mem p 8 m.freeList)).setManager
        k.thread { m with freeList := p }

/-- **The release of a live block** gives its storage back to where it came from. -/
theorem releaseBlock_goesBack (hi : Inv P g live h) (hready : Ready h) (hs : Started h τ)
    (hf : ComesFrom P g h.mem B e.origin e.range) (hk : Releasable P g B.ptr) :
    Spec (releaseBlock τ B.ptr) h (fun _ h' => GoesBack τ B.ptr e h h')
      fun x => P.shifted ∧ x = .doubleFree := by
  refine Spec.congr_run (releaseBlock_eq hf hi.layout) ?_
  obtain ⟨origin, range, ptr⟩ := e
  dsimp only at hf ⊢
  cases hf with
  | huge hB => exact freeHugeMemory_spec hi hready hB fun _ _ => rfl
  | @pool b s k hB =>
    have hsize : headerSize = 16 := rfl
    have hle := hB.block.slot_le
    have hle' := hB.block.le_slot
    have hkept := hk b s k (hB.block.head_own hi.layout le_rfl (by omega)) hB.block.reg
    obtain ⟨-, m, hm⟩ := hs
    obtain ⟨hi₁, -⟩ := hi.addCall (x := Spared) ⟨τ, (h.tls τ).threadId⟩
    unfold releaseByOrigin
    refine Spec.bind (getThreadId_spec ?_)
    refine Spec.ite (fun hown => ?_) fun hother => ?_
    · refine freeRegularMemory_spec hi₁ hready hm hB hkept (fun hsh => ⟨hsh, rfl⟩) ?_
      intro h₁ g' h' hrun _ _ hfreed
      have hback : GivesBack τ ⟨.pool k, ⟨s, slotSize k.sizeClass⟩, ptr⟩ h h' :=
        ⟨b, h₁, hB.block.serves hi.layout, by rw [hown]; exact hrun, hfreed⟩
      unfold GoesBack
      dsimp only
      rwa [if_pos hown]
    · obtain ⟨m', hm'⟩ := hB.block.owner_exists hi.layout
      have hcov : covers h.maps B.ptr 8 = true :=
        hi.layout.slot_covers (hi.layout.slotRange_of_reg hB.block.own hB.block.reg) (by omega)
          (by omega)
      unfold freeOtherThreadMemory
      refine Spec.bind (getManager_spec hm' ?_)
      refine Spec.bind (poke_spec (.inl hcov) fun _ => setManager_spec ?_)
      unfold GoesBack
      dsimp only
      rw [if_neg hother]
      exact ⟨m', hm', rfl⟩

/-! ## The old size -/

/-- `css_realloc` of a block whose usable size is known. -/
def reallocOfSize (τ ptr : ℕ) (size : Word) (oldSize : ℕ) : Proc ℕ := do
  ensureThread τ
  if size = 0 then
    cssFree τ ptr
    return 0
  else
    let realSize := getRealSize size
    if realSize.toNat ≤ oldSize then return ptr
    else
      let newObject ← mallocMemory (← getThreadId τ) size
      peek ptr oldSize fun _ => ()
      poke newObject oldSize (copy · newObject ptr oldSize)
      releaseBlock τ ptr
      return newObject

/-- **The old size** that `css_realloc` compares and copies is the usable size of the block. -/
theorem cssRealloc_ofSize {size : Word} (hi : Inv P g live h) (hready : Ready h) (hτ : τ ≠ 0)
    (hB : B ∈ live) :
    cssRealloc τ B.ptr size h = reallocOfSize τ B.ptr size (usableSize h B.ptr) h := by
  have hpos := hi.ptr_pos hB
  unfold cssRealloc reallocOfSize
  refine Spec.bind_congr (ensureThread_spec hi hready hτ) ?_
  rintro - h₁ ⟨g₁, ha, -⟩
  rw [if_neg hpos.ne']
  split
  · rfl
  have hu := ((ha.inv.contents.live B hB).usable ha.inv.layout).1
  rw [hi.usableSize_spared ha.inv ha.grows hB] at hu
  change EStateM.bind (cssMallocUsableSize B.ptr) _ h₁ = _
  rw [EStateM.bind, hu]

/-! ## Moving a block -/

/-- **A block moves** by one allocation, one copy of its old bytes and one release. Where blocks
are not shifted, it halts only where the allocation runs out of memory. The bytes of a shifted block
may leave its storage, and its slot may be taken for one that is free. -/
theorem moveBlock_traced {size : Word} {oldSize : ℕ} (hi : Inv P g live h) (hready : Ready h)
    (hs : Started h τ) (hB : B ∈ live) (hf : ComesFrom P g h.mem B e.origin e.range)
    (hk : Releasable P g B.ptr) (hsize : oldSize < (getRealSize size).toNat)
    (hin : P.shifted ∨ e.range.Includes ⟨B.ptr, oldSize⟩) :
    Spec (do
      let newObject ← mallocMemory (← getThreadId τ) size
      peek B.ptr oldSize fun _ => ()
      poke newObject oldSize (copy · newObject B.ptr oldSize)
      releaseBlock τ B.ptr
      return newObject) h
      (fun r h' => r ≠ B.ptr ∧
        (e.range.Includes ⟨B.ptr, oldSize⟩ →
          ∀ i < oldSize, h'.mem (r + i) = h.mem (B.ptr + i)) ∧
        ∃ h₁, mallocMemory (h.tls τ).threadId size (h.addCall ⟨τ, (h.tls τ).threadId⟩) =
            .ok r h₁ ∧
          GoesBack τ B.ptr e (h₁.setMem (copy h₁.mem r B.ptr oldSize)) h')
      fun x => RanOut h (h.tls τ).threadId x ∨
        P.shifted ∧ (x = .doubleFree ∨ x = .segv ∧ ¬ e.range.Includes ⟨B.ptr, oldSize⟩) := by
  have hd := realSize_le_decodedSize size
  have hu := decodedSize_le_mallocUsable size
  have hheld : e.range.Includes ⟨B.ptr, oldSize⟩ → ∀ i < oldSize, Held g (B.ptr + i) B.ptr :=
    fun hin i hlt => hf.held hi.layout (hin _ ⟨Nat.le_add_right _ _, by simp only; omega⟩)
  obtain ⟨-, m, hm⟩ := id hs
  refine Spec.bind (getThreadId_spec ?_)
  obtain ⟨hi₁, hg₁⟩ := hi.addCall (x := Spared) ⟨τ, (h.tls τ).threadId⟩
  refine Spec.seq (((mallocMemory_spec hi₁ hready hm hu).and (Spec.trace _ _)).halts
    fun _ he => he.1.imp_right fun hx => ⟨hx.1, .inl hx.2⟩) ?_
  rintro r h₁ ⟨⟨-, -, hz, -⟩ | ⟨-, ha⟩, hrun⟩
  · rw [hz] at hsize
    exact absurd hsize (Nat.not_lt_zero _)
  obtain ⟨g₁, ha₁⟩ := ha.after
  have hg₂ := hg₁.trans ha₁.grows
  -- both blocks are mapped, the new one with room for the old one's bytes
  have hread : covers h₁.maps B.ptr oldSize = true ∨
      P.shifted ∧ ¬ e.range.Includes ⟨B.ptr, oldSize⟩ := by
    by_cases hin' : e.range.Includes ⟨B.ptr, oldSize⟩
    swap
    · exact .inr ⟨hin.resolve_right hin', hin'⟩
    refine .inl (covers_iff.mpr fun a h₁ h₂ => ?_)
    have hbyte := hheld hin' (a - B.ptr) (by omega)
    rw [Nat.add_sub_cancel' h₁] at hbyte
    exact (hg₂.heldMono hbyte not_false).mapped ha₁.inv.layout
  have hnew : ∀ i < oldSize, Held g₁ (r + i) r := fun i hlt => by
    have hbyte : Scratch g₁ live (r + i) ∧ Held g₁ (r + i) r :=
      (ha₁.inv.contents.live _ List.mem_cons_self).scratch ha₁.inv.layout (Nat.le_add_right _ _)
        (by simp only; omega)
    exact hbyte.2
  have hwrite : covers h₁.maps r oldSize = true :=
    (ha₁.inv.contents.live _ List.mem_cons_self).covers ha₁.inv.layout (by simp only; omega)
  refine Spec.bind (peek_spec (hread.imp_right fun hx => .inr ⟨hx.1, .inr ⟨rfl, hx.2⟩⟩) fun _ => ?_)
  refine Spec.bind (poke_spec (.inl hwrite) fun _ => ?_)
  have hcopy : ∀ a, copy h₁.mem r B.ptr oldSize a ≠ h₁.mem a →
      r ≤ a ∧ a < r + mallocUsable size := fun a hchanged => by
    by_contra hout
    exact hchanged (copy_of_outside (by omega))
  obtain ⟨hi₂, hg₃⟩ := ha₁.inv.writeBlock List.mem_cons_self hcopy
  have hne : B.ptr ≠ r := ha₁.inv.outside B hB
  have hs₂ := (hs.grows hg₂).grows hg₃
  have hf₂ := (hf.grows hi.layout hg₂ not_false).grows ha₁.inv.layout hg₃ hne
  have hk₂ := (hk.grows hi hB hg₂ not_false).grows ha₁.inv (List.mem_cons_of_mem _ hB) hg₃ hne
  refine Spec.seq (((releaseBlock_spec hi₂ ha₁.ready hs₂ (List.mem_cons_of_mem _ hB) hk₂).and
    (releaseBlock_goesBack hi₂ ha₁.ready hs₂ hf₂ hk₂)).mono (fun _ _ hr => hr)
    fun _ he => .inr ⟨he.1.1, .inl he.1.2⟩) ?_
  rintro - h₃ ⟨⟨g₃, ha₃⟩, hback⟩
  refine Spec.pure ⟨hne.symm, fun hin i hlt => ?_, h₁, hrun, hback⟩
  have hkept : h₃.mem (r + i) = copy h₁.mem r B.ptr oldSize (r + i) :=
    ha₃.grows.held _ _ (hnew i hlt) hne.symm
  rw [hkept, copy_of_inside hlt]
  exact hg₂.held _ _ (hheld hin i hlt) not_false

/-! ## The whole call -/

/-- What `css_realloc` of the block at `p` did: it released the block, left it in place, or moved
its bytes to another one. -/
inductive Reallocation (τ p : ℕ) (size : Word) (e : Served) (h : Heap) (r : ℕ) (h' : Heap) : Prop
  | freed (hsize : size = 0) (hr : r = 0) {h₁ : Heap} (hrun : ensureThread τ h = .ok () h₁)
      (hback : GoesBack τ p e h₁ h')
  | kept (hsize : size ≠ 0) (hle : (getRealSize size).toNat ≤ usableSize h p) (hr : r = p)
      (hrun : ensureThread τ h = .ok () h')
  | moved (hlt : usableSize h p < (getRealSize size).toNat) (hr : r ≠ p) {h₁ h₂ : Heap}
      (hrun : ensureThread τ h = .ok () h₁)
      (hmalloc : mallocMemory (h₁.tls τ).threadId size (h₁.addCall ⟨τ, (h₁.tls τ).threadId⟩) =
        .ok r h₂)
      (hback : GoesBack τ p e (h₂.setMem (copy h₂.mem r p (usableSize h p))) h')
      (hcontents : e.range.Includes (usableRange h p) →
        ∀ i < usableSize h p, h'.mem (r + i) = h.mem (p + i))

/-- The process ran out of memory: for the manager of a thread that calls for the first time, which
may also find no index left, or for a new block that is larger than the old one. -/
def GaveUp (τ p : ℕ) (size : Word) (h : Heap) (x : Halt) : Prop :=
  (h.tls τ).tid ≠ τ ∧ (x.NoRoom ∨ x = .undefined ∧ maxThread ≤ h.threadBump) ∨
    usableSize h p < (getRealSize size).toNat ∧ ∃ h₁, ensureThread τ h = .ok () h₁ ∧
      RanOut h₁ (h₁.tls τ).threadId x

/-- **`css_realloc`** of a live block. -/
theorem cssRealloc_traced {size : Word} (hi : Inv P g live h) (hready : Ready h) (hτ : τ ≠ 0)
    (hB : B ∈ live) (hf : ComesFrom P g h.mem B e.origin e.range)
    (hk : size = 0 ∨ usableSize h B.ptr < (getRealSize size).toNat → Releasable P g B.ptr) :
    Spec (cssRealloc τ B.ptr size) h (Reallocation τ B.ptr size e h)
      fun x => GaveUp τ B.ptr size h x ∨ P.shifted ∧ (x = .doubleFree ∨
        x = .segv ∧ ¬ e.range.Includes (usableRange h B.ptr)) := by
  have hpos := hi.ptr_pos hB
  refine Spec.congr_run (cssRealloc_ofSize hi hready hτ hB) ?_
  unfold reallocOfSize
  refine Spec.seq (((ensureThread_spec hi hready hτ).and (Spec.trace _ _)).halts
    fun _ he => .inl (.inl he.1)) ?_
  rintro ⟨⟩ h₁ ⟨⟨g₁, ha, hs⟩, hrun⟩
  have hf₁ := hf.grows hi.layout ha.grows not_false
  refine Spec.ite (fun hz => ?_) fun hz => ?_
  · have hk₁ := (hk (.inl hz)).grows hi hB ha.grows not_false
    refine Spec.bind ?_
    unfold cssFree
    refine Spec.bind ?_
    refine Spec.congr_run (ensureThread_initialized hs.1) (Spec.pure (a := ()) ?_)
    rw [if_neg hpos.ne']
    exact (releaseBlock_goesBack ha.inv ha.ready hs hf₁ hk₁).mono
      (fun _ h₂ hback => Spec.pure (.freed hz rfl hrun hback)) fun _ he => .inr ⟨he.1, .inl he.2⟩
  dsimp only
  refine Spec.ite (fun hle => Spec.pure (.kept hz hle rfl hrun)) fun hgt => ?_
  have hlt : usableSize h B.ptr < (getRealSize size).toNat := Nat.lt_of_not_le hgt
  have hk₁ := (hk (.inr hlt)).grows hi hB ha.grows not_false
  have hin : P.shifted ∨ e.range.Includes (usableRange h B.ptr) := by
    by_cases hP : P.shifted
    · exact .inl hP
    · exact .inr (hf.includes_usable hi.layout hP)
  refine (moveBlock_traced ha.inv ha.ready hs hB hf₁ hk₁ hlt hin).mono ?_ ?_
  · rintro r h₃ ⟨hne, hcontents, h₂, hmalloc, hback⟩
    refine .moved hlt hne hrun hmalloc hback fun hin i hi' => (hcontents hin i hi').trans ?_
    exact ha.grows.held _ _ (hf.held hi.layout (hin _ ⟨Nat.le_add_right _ _, by
      simp only [usableRange]; omega⟩)) not_false
  · rintro x (hout | hshifted)
    · exact .inl (.inr ⟨hlt, h₁, hrun, hout⟩)
    · exact .inr hshifted

end Semalloc
