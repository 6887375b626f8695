import Semalloc.Backend.ReleaseSpec

/-!
# Specifications of the entry points

One specification for each entry point, over the live blocks of the clients. Each says how the
live blocks change and which blocks may have changed their bytes: the one passed in and the one
handed out.

## Main definitions

* `Handed`: null, or one more live block
* `Config.reallocLive`: the live blocks after a reallocation

## Main results

* `Inv.writeBlock`: writes inside a live block
* `cssMalloc_spec`, `cssCalloc_spec`, `cssFree_spec`, `cssRealloc_spec`
-/

set_option autoImplicit false

namespace Semalloc

open ByteMemory Region Effect MemoryManager Config

variable {P : Promise} {g g' : Ghost} {live : List Block} {h h' : Heap} {B : Block}
  {x : ℕ → Prop} {τ : ℕ}

/-! ## Live blocks -/

theorem LiveBlock.headerSize_lt {own : ℕ → Owner} {reg : ℕ → Option Compartment} {use : ℕ → Use}
    {m : ByteMemory} (hB : LiveBlock P own reg use m B) : headerSize ≤ B.ptr ∧ 0 < B.ptr := by
  cases hB with
  | slot hB =>
    have := hB.block.slot_le
    simp only [headerSize] at *
    omega
  | huge hB =>
    have := hB.ptr_ge
    simp only [headerSize, pageSize] at *
    omega

theorem Inv.ptr_pos (hi : Inv P g live h) (hB : B ∈ live) : 0 < B.ptr :=
  (hi.contents.live B hB).headerSize_lt.2

theorem Inv.dropLive_zero (hi : Inv P g live h) : dropLive live 0 = live :=
  List.filter_eq_self.mpr fun B hB => by
    have := hi.ptr_pos hB
    simp only [ne_eq, decide_not, Bool.not_eq_true', decide_eq_false_iff_not]
    omega

theorem Inv.resizeLive_zero (hi : Inv P g live h) (n : ℕ) : resizeLive live 0 n = live := by
  refine (List.map_congr_left fun B hB => ?_).trans (List.map_id live)
  have := hi.ptr_pos hB
  exact if_neg (by omega)

/-- A live block inside the part the clients write is only scratch. -/
theorem LiveBlock.scratch (hB : LiveBlock P g.own g.reg g.use h.mem B) (hl : Layout g.own g.reg h)
    {a : ℕ} (h₁ : B.ptr ≤ a) (h₂ : a < B.ptr + B.limit) :
    Scratch g live a ∧ Held g a B.ptr := by
  cases hB with
  | slot hB =>
    have hs := hl.slotRange_of_reg hB.block.own hB.block.reg
    have hle := hB.block.slot_le
    have hlimit := hB.limit_le
    have ho := hs.own a (by omega) (by omega)
    exact ⟨.data ho hB.use (by simp only [headerSize] at hle; omega) h₁, .slot ho hB.use⟩
  | huge hB =>
    have hlimit := hB.limit_le
    have ho := hB.own a (by omega) (by omega)
    exact ⟨.huge ho (.inl h₁), .huge ho⟩

/-- A byte of a live block is mapped. -/
theorem Held.mapped {a q : ℕ} (ha : Held g a q) (hl : Layout g.own g.reg h) : Mapped h.maps a := by
  cases ha with
  | slot ho _ | huge ho => exact hl.mapped a (by simp [ho])

/-- The part of a live block that the clients write is mapped. -/
theorem LiveBlock.covers (hB : LiveBlock P g.own g.reg g.use h.mem B) (hl : Layout g.own g.reg h)
    {n : ℕ} (hn : n ≤ B.limit) : covers h.maps B.ptr n = true :=
  covers_iff.mpr fun a h₁ h₂ => by
    have hbyte : Scratch g [] a ∧ Held g a B.ptr := hB.scratch hl h₁ (by omega)
    exact hbyte.2.mapped hl

theorem Held.unique {a p q : ℕ} (hp : Held g a p) (hq : Held g a q) : p = q := by
  cases hp with
  | slot ho hu =>
    cases hq with
    | slot ho' hu' =>
      rw [ho] at ho'
      cases ho'
      rw [hu] at hu'
      exact Use.live.inj hu'
    | huge ho' => rw [ho] at ho'; cases ho'
  | huge ho =>
    cases hq with
    | slot ho' => rw [ho] at ho'; cases ho'
    | huge ho' =>
      rw [ho] at ho'
      exact Owner.huge.inj ho'

/-- **Writes inside a live block** keep the invariant, and all other live blocks. -/
theorem Inv.writeBlock {m' : ByteMemory} (hi : Inv P g live h) (hB : B ∈ live)
    (hm : ∀ a, m' a ≠ h.mem a → B.ptr ≤ a ∧ a < B.ptr + B.limit) :
    Inv P g live (h.setMem m') ∧ Grows (· = B.ptr) g h g (h.setMem m') := by
  have hscratch : ∀ a, m' a ≠ h.mem a → Scratch g live a ∧ Held g a B.ptr := fun a hne =>
    (hi.contents.live B hB).scratch hi.layout (hm a hne).1 (hm a hne).2
  constructor
  · refine hi.write (fun a hne => (hscratch a hne).1) fun b s ho hu => ?_
    by_contra hne
    have hs := hi.layout.slot_head ho (a := s + 15) (by omega) (by omega)
    cases (hscratch _ hne).2 with
    | slot ho' hu' =>
      rw [hs] at ho'
      cases ho'
      rw [hu] at hu'
      cases hu'
    | huge ho' => rw [hs] at ho'; cases ho'
  · exact Grows.setMem fun a p hne ha => ha.unique (hscratch a hne).2

/-- A live block that is spared keeps its header. -/
theorem LiveBlock.grows (hB : LiveBlock P g.own g.reg g.use h.mem B) (hl : Layout g.own g.reg h)
    (hg : Grows x g h g' h') (hx : ¬ x B.ptr) :
    SameHeader h.mem h'.mem (B.ptr - headerSize) := by
  rintro a ⟨h₁, h₂⟩
  cases hB with
  | slot hB =>
    have := hB.block.slot_le
    have ho := hB.block.head_own hl h₁ (by simp only [headerSize] at *; omega)
    exact hg.held a B.ptr (.slot ho hB.use) hx
  | huge hB =>
    have := hB.ptr_ge
    have ho := hB.own a (by simp only [headerSize, pageSize] at *; omega)
      (by simp only [headerSize, pageSize] at *; omega)
    exact hg.held a B.ptr (.huge ho) hx

theorem HugeLive.grows (hB : HugeLive g.own h.mem B) (hg : Grows x g h g' h') (hx : ¬ x B.ptr)
    (hs : SameHeader h.mem h'.mem (B.ptr - headerSize)) : HugeLive g'.own h'.mem B := by
  refine ⟨fun a h₁ h₂ => hg.huge a _ (hB.own a h₁ ?_) hx, hs.isHuge.trans hB.isHuge, hB.aligned,
    hB.ptr_ge, ?_, ?_, ?_, ?_⟩
  · rwa [hs.size] at h₂
  · rw [hs.size]; exact hB.top
  · rw [hs.size]; exact hB.size_mod
  · rw [hs.size]; exact hB.count_le
  · rw [hs.size]; exact hB.limit_le

/-- A live block that is spared keeps its usable size. -/
theorem LiveBlock.usable_grows (hB : LiveBlock P g.own g.reg g.use h.mem B)
    (hl : Layout g.own g.reg h) (hl' : Layout g'.own g'.reg h') (hg : Grows x g h g' h')
    (hx : ¬ x B.ptr) {u : ℕ} (hu : cssMallocUsableSize B.ptr h = .ok u h) :
    cssMallocUsableSize B.ptr h' = .ok u h' := by
  have hs := hB.grows hl hg hx
  cases hB with
  | slot hB =>
    rw [hB.block.usableSize hl] at hu
    cases hu
    exact (hB.grows hl hg hx).block.usableSize hl'
  | huge hB =>
    rw [hB.usableSize hl] at hu
    cases hu
    rw [← hs.size]
    exact (hB.grows hg hx hs).usableSize hl'

theorem LiveBlock.usable (hB : LiveBlock P g.own g.reg g.use h.mem B)
    (hl : Layout g.own g.reg h) : cssMallocUsableSize B.ptr h = .ok (usableSize h B.ptr) h ∧
      B.count ≤ usableSize h B.ptr := by
  cases hB with
  | @slot b s c hB =>
    have hu := hB.block.usableSize hl
    have hval : usableSize h B.ptr = minBagSize <<< c.sizeClass := by
      rw [Semalloc.usableSize, hu]
    rw [hval]
    exact ⟨hu, hB.count_le⟩
  | huge hB =>
    have hu := hB.usableSize hl
    have hval : usableSize h B.ptr = HugeHeader.size h.mem (B.ptr - headerSize) := by
      rw [Semalloc.usableSize, hu]
    rw [hval]
    exact ⟨hu, hB.count_le⟩

/-- Operations that spare every block keep all usable sizes. -/
theorem Inv.usableSize_spared {g₁ : Ghost} {h₁ : Heap} (hi : Inv P g live h)
    (hi₁ : Inv P g₁ live h₁) (hg : Grows Spared g h g₁ h₁) (hB : B ∈ live) :
    usableSize h₁ B.ptr = usableSize h B.ptr := by
  have hlive := hi.contents.live B hB
  have hu := (hlive.usable hi.layout).1
  have hu₁ := hlive.usable_grows hi.layout hi₁.layout hg (fun hf => hf) hu
  rw [usableSize, hu₁]

/-- The block `B` with another byte count that it holds. -/
theorem LiveBlock.resize (hB : LiveBlock P g.own g.reg g.use h.mem B) (hl : Layout g.own g.reg h)
    {u n : ℕ} (hu : cssMallocUsableSize B.ptr h = .ok u h) (hn : n ≤ u) :
    LiveBlock P g.own g.reg g.use h.mem { B with count := n } := by
  cases hB with
  | slot hB =>
    rw [hB.block.usableSize hl] at hu
    cases hu
    exact .slot ⟨hB.block, hB.use, hn, hB.limit_le⟩
  | huge hB =>
    rw [hB.usableSize hl] at hu
    cases hu
    exact .huge ⟨hB.own, hB.isHuge, hB.aligned, hB.ptr_ge, hB.top, hB.size_mod, hn, hB.limit_le⟩

/-- **A live block resized in place.** -/
theorem Inv.resize (hi : Inv P g live h) {ptr u n : ℕ}
    (hu : cssMallocUsableSize ptr h = .ok u h) (hn : n ≤ u) :
    Inv P g (resizeLive live ptr n) h := by
  have hptr : ∀ B : Block, (if B.ptr = ptr then { B with count := n } else B).ptr = B.ptr :=
    fun B => by split <;> rfl
  refine hi.setLive (fun B hB => ?_) (fun B hB => ?_) ?_
  · obtain ⟨B', hB', rfl⟩ := List.mem_map.mp hB
    have hlive := hi.contents.live B' hB'
    split
    · rename_i he
      exact hlive.resize hi.layout (by rw [he]; exact hu) hn
    · exact hlive
  · obtain ⟨B', hB', rfl⟩ := List.mem_map.mp hB
    exact ⟨B', hB', (hptr B').symm⟩
  · rw [resizeLive, List.map_map]
    refine (List.map_congr_left fun B _ => ?_) ▸ hi.contents.liveNodup
    exact (hptr B).symm

/-! ## Allocation -/

/-- No live block is at the pointer. -/
def Outside (live : List Block) (p : ℕ) : Prop := ∀ B ∈ live, B.ptr ≠ p

/-- A pointer handed out was not live. -/
theorem Inv.outside (hi : Inv P g (B :: live) h) : Outside live B.ptr := by
  have hnodup := hi.contents.liveNodup
  rw [List.map_cons, List.nodup_cons] at hnodup
  exact fun B' hB' he => hnodup.1 (List.mem_map.mpr ⟨B', hB', he⟩)

/-- What an allocation entry point leaves: null, where `null` allows it, or one more live block
with usable size `u`. -/
def Handed (P : Promise) (g : Ghost) (h : Heap) (live : List Block) (null : Prop) (n l u p : ℕ)
    (h' : Heap) : Prop :=
  (p = 0 ∧ null ∧ ∃ g', After P Spared g h live g' h') ∨
    (0 < p ∧ ¬ null ∧ (∃ g', After P (Outside live) g h (⟨p, n, l⟩ :: live) g' h') ∧
      cssMallocUsableSize p h' = .ok u h')

theorem Allocated.handed {null : Prop} {t n u p : ℕ} (ha : Allocated P g h live t n u p h')
    (hnull : ¬ null) :
    Handed P g h live null n u u p h' := by
  obtain ⟨g', ha'⟩ := ha.after
  exact .inr ⟨ha.ptr_pos, hnull, ⟨g', ha'.mono fun _ hf => hf.elim⟩, ha.usable⟩

/-- The live blocks after an allocation. -/
theorem Handed.addLive {null : Prop} {n l u p : ℕ} (ha : Handed P g h live null n l u p h') :
    ∃ g', After P (Outside live) g h (addLive live p n l) g' h' := by
  rcases ha with ⟨rfl, -, g', ha⟩ | ⟨hp, -, ⟨g', ha⟩, hu⟩
  · exact ⟨g', ha.mono fun _ hf => hf.elim⟩
  · rw [Config.addLive, if_neg hp.ne']
    exact ⟨g', ha⟩

theorem Handed.usable {null : Prop} {n u p : ℕ} (ha : Handed P g h live null n u u p h') :
    Config.addLive live p n (usableSize h' p) = Config.addLive live p n u := by
  rcases ha with ⟨rfl, -, -⟩ | ⟨-, -, -, hu⟩
  · rfl
  · rw [usableSize, hu]

theorem Handed.after_spared {g₁ : Ghost} {h₁ : Heap} {null : Prop} {n l u p : ℕ}
    (ha : Handed P g₁ h₁ live null n l u p h') (hg : Grows Spared g h g₁ h₁) :
    Handed P g h live null n l u p h' := by
  rcases ha with ⟨hp, hnull, g', ha⟩ | ⟨hp, hnull, ⟨g', ha⟩, hu⟩
  · exact .inl ⟨hp, hnull, g', ha.inv, ha.ready, hg.trans ha.grows⟩
  · exact .inr ⟨hp, hnull, ⟨g', ha.inv, ha.ready, (hg.mono fun _ hf => hf.elim).trans ha.grows⟩,
      hu⟩

/-- A word that decodes to no size. -/
def EmptyWord (size : Word) : Prop := isHugeWord size = false ∧ getRealSize size = 0

/-- `mallocMemory` of the calling thread. -/
theorem mallocMemory_handed {size : Word} {n : ℕ} (hi : Inv P g live h) (hready : Ready h)
    (hs : Started h τ) (hn : n ≤ mallocUsable size) :
    Spec (do mallocMemory (← getThreadId τ) size) h
      (Handed P g h live (EmptyWord size) n (mallocUsable size) (mallocUsable size))
      fun e => RanOut h (h.tls τ).threadId e ∨ P.shifted ∧ e = .doubleFree := by
  obtain ⟨-, m, hm⟩ := hs
  refine Spec.bind (getThreadId_spec ?_)
  obtain ⟨hi₁, hg₁⟩ := hi.addCall (x := Spared) ⟨τ, (h.tls τ).threadId⟩
  refine (mallocMemory_spec hi₁ hready hm hn).imp ?_
  rintro p h' (⟨hp, hhuge, hzero, ha⟩ | ⟨hne, ha⟩)
  · exact Handed.after_spared (.inl ⟨hp, ⟨hhuge, hzero⟩, ha⟩) hg₁
  · exact (ha.handed hne).after_spared hg₁

/-- Why `css_malloc` ends the process: there is no manager for a thread that calls for the first time,
or the allocation ends it. -/
def MallocEnds (P : Promise) (τ : ℕ) (h : Heap) (e : Halt) : Prop :=
  (h.tls τ).tid ≠ τ ∧ (e.NoRoom ∨ e = .undefined ∧ maxThread ≤ h.threadBump) ∨
    ∃ h₁, ensureThread τ h = .ok () h₁ ∧
      (RanOut h₁ (h₁.tls τ).threadId e ∨ P.shifted ∧ e = .doubleFree)

/-- **`css_malloc`** -/
theorem cssMalloc_spec {size : Word} (hi : Inv P g live h) (hready : Ready h) (hτ : τ ≠ 0) :
    Spec (cssMalloc τ size) h
      (Handed P g h live (EmptyWord size) (decodedSize size) (mallocUsable size)
        (mallocUsable size))
      (MallocEnds P τ h) := by
  unfold cssMalloc
  refine Spec.seq (((ensureThread_spec hi hready hτ).and (Spec.trace _ _)).halts
    fun _ he => .inl he.1) ?_
  rintro ⟨⟩ h₁ ⟨⟨g₁, ha, hs⟩, hrun⟩
  exact (mallocMemory_handed ha.inv ha.ready hs (decodedSize_le_mallocUsable size)).mono
    (fun _ _ hr => hr.after_spared ha.grows) fun _ he => .inr ⟨h₁, hrun, he⟩

/-- Writes inside a block handed out. -/
theorem Allocated.write {t n u p : ℕ} {m' : ByteMemory}
    (ha : Allocated P g h live t n u p h') {null : Prop} (hnull : ¬ null)
    (hm : ∀ a, m' a ≠ h'.mem a → p ≤ a ∧ a < p + u) :
    Handed P g h live null n u u p (h'.setMem m') := by
  obtain ⟨g', ha'⟩ := ha.after
  obtain ⟨hi, hg⟩ := ha'.inv.writeBlock List.mem_cons_self hm
  refine .inr ⟨ha.ptr_pos, hnull, ⟨g', hi, ha'.ready, ?_⟩, ?_⟩
  · exact (ha'.grows.mono fun _ hf => hf.elim).trans (hg.mono fun _ he => he ▸ ha'.inv.outside)
  · have hB := ha'.inv.contents.live _ List.mem_cons_self
    have hsame : SameHeader h'.mem m' (p - headerSize) := by
      rintro a ⟨h₁, h₂⟩
      have hle := hB.headerSize_lt.1
      by_contra hne
      have := hm a hne
      simp only [headerSize] at *
      omega
    cases hB with
    | slot hB =>
      have hu := hB.block.usableSize ha'.inv.layout
      rw [ha.usable] at hu
      cases hu
      exact (hB.block.congr hsame).usableSize hi.layout
    | huge hB =>
      have hu := hB.usableSize ha'.inv.layout
      rw [ha.usable] at hu
      injection hu with hread
      rw [hread, ← hsame.size]
      exact usableSize_of_huge (hB.head_covers ha'.inv.layout) (hsame.isHuge.trans hB.isHuge)

/-- Why `css_calloc` of a product ends the process: its thread has no manager, the allocation ends
it, or `memset` leaves the mapping, since the rounding of the product wrapped around. -/
def CallocEnds (P : Promise) (h : Heap) (t : ℕ) (product : Word) (e : Halt) : Prop :=
  (h.globalMemoryManager t = none ∨ RanOut h t e ∨ P.shifted ∧ e = .doubleFree) ∨
    e = .segv ∧ 2 ^ 64 - 4096 < product.toNat

/-- **`css_calloc`**: the block holds the product modulo `2 ^ 64`. -/
theorem cssCalloc_spec {nmemb size : Word} (hi : Inv P g live h) (hready : Ready h) :
    Spec (cssCalloc τ nmemb size) h
      (Handed P g h live (nmemb * getRealSize size = 0) (nmemb * getRealSize size).toNat
        (regularUsable (nmemb * getRealSize size)) (regularUsable (nmemb * getRealSize size)))
      (CallocEnds P h (h.tls τ).threadId (nmemb * getRealSize size)) := by
  unfold cssCalloc
  dsimp only
  refine Spec.bind (getThreadId_spec ?_)
  obtain ⟨hi₁, hg₁⟩ := hi.addCall (x := Spared) ⟨τ, (h.tls τ).threadId⟩
  refine Spec.imp ?_ fun p h' (hh : Handed P g (h.addCall _) live _ _ _ _ p h') =>
    hh.after_spared hg₁
  by_cases hwrap : (nmemb * getRealSize size).toNat ≤ regularUsable (nmemb * getRealSize size)
  · refine Spec.seq ((mallocMemoryCSI_spec hi₁ hready (getCSI_ne_allOnes size) hwrap).halts
      fun _ => .inl) ?_
    rintro p h₁ (⟨rfl, hzero, ha⟩ | ⟨hnull, ha⟩)
    · rw [hzero]
      have hcov : covers h₁.maps 0 (BitVec.toNat (0 : Word)) = true :=
        covers_iff.mpr fun _ _ h₂ => absurd h₂ (Nat.not_lt_zero _)
      refine Spec.bind (poke_spec (.inl hcov) fun _ => Spec.pure (.inl ⟨rfl, rfl, ?_⟩))
      have hnone : fill h₁.mem 0 (BitVec.toNat (0 : Word)) 0 = h₁.mem :=
        funext fun a => fill_of_outside (.inr (by simp))
      rw [hnone]
      exact ha
    · obtain ⟨g₁, ha₁⟩ := ha.after
      have hcov : covers h₁.maps p (nmemb * getRealSize size).toNat = true :=
        (ha₁.inv.contents.live _ List.mem_cons_self).covers ha₁.inv.layout hwrap
      refine Spec.bind (poke_spec (.inl hcov) fun _ => Spec.pure
        (ha.write hnull fun a hne => ?_))
      by_contra hout
      exact hne (fill_of_outside (by omega))
  · -- the rounded size wraps around, and `memset` leaves user space
    have hlarge : 2 ^ 64 - 4096 < (nmemb * getRealSize size).toNat := by
      by_contra hle
      exact hwrap (le_regularUsable (by omega))
    refine Spec.seq ((mallocMemoryCSI_spec (n := 0) hi₁ hready (getCSI_ne_allOnes size)
      (Nat.zero_le _)).halts fun _ => .inl) ?_
    intro p h₁ hpost
    obtain ⟨live₁, g₁, hl⟩ : ∃ live₁ g₁, Inv P g₁ live₁ h₁ := by
      rcases hpost with ⟨-, -, g₁, ha⟩ | ⟨-, ⟨g₁, ha⟩, -, -⟩
      · exact ⟨_, g₁, ha.inv⟩
      · exact ⟨_, g₁, ha.inv⟩
    have hno : covers h₁.maps p (nmemb * getRealSize size).toNat = false := by
      rw [Bool.eq_false_iff]
      intro hc
      have h₁ := (hl.layout.userSpace p (covers_iff.mp hc p le_rfl (by omega))).1
      have h₂ := (hl.layout.userSpace (p + (2 ^ 64 - 4096))
        (covers_iff.mp hc _ (by omega) (by omega))).2
      omega
    refine Spec.bind (poke_spec (.inr (.inr ⟨rfl, hlarge⟩)) fun hc => ?_)
    rw [hno] at hc
    cases hc

/-! ## Release -/

theorem Releasable.grows {g₁ : Ghost} {h₁ : Heap} (hk : Releasable P g B.ptr)
    (hi : Inv P g live h) (hB : B ∈ live) (hg : Grows x g h g₁ h₁) (hx : ¬ x B.ptr) :
    Releasable P g₁ B.ptr := by
  intro b s c ho hr
  cases hi.contents.live B hB with
  | @slot b' s' c' hB =>
    have hge := hB.block.slot_le
    have ho' := hB.block.head_own hi.layout le_rfl (by simp only [headerSize] at *; omega)
    have hr' := hB.block.reg
    have hkept := hk b' s' c' ho' hr'
    rw [hg.slot _ _ _ ho'] at ho
    cases ho
    rw [hg.reg _ _ hr'] at hr
    cases hr
    exact hkept
  | huge hB =>
    have hge := hB.ptr_ge
    have ho' := hB.own (B.ptr - headerSize) (by simp only [headerSize, pageSize] at *; omega)
      (by simp only [headerSize, pageSize] at *; omega)
    rw [hg.huge _ _ ho' hx] at ho
    cases ho

/-- **`css_free`** of a live pointer or null. -/
theorem cssFree_spec {ptr : ℕ} (hi : Inv P g live h) (hready : Ready h) (hτ : τ ≠ 0)
    (hptr : ptr = 0 ∨ ∃ B ∈ live, B.ptr = ptr) (hk : Releasable P g ptr) :
    Spec (cssFree τ ptr) h
      (fun _ h' => ∃ g', After P (· = ptr) g h (dropLive live ptr) g' h') fun _ => True := by
  unfold cssFree
  refine Spec.seq (ensureThread_spec hi hready hτ).any ?_
  rintro - h₁ ⟨g₁, ha, hs⟩
  refine Spec.ite (fun hz => Spec.pure ⟨g₁, ?_⟩) fun hne => ?_
  · rw [hz, hi.dropLive_zero]
    exact ha.mono fun _ hf => hf.elim
  · obtain ⟨B, hB, rfl⟩ := hptr.resolve_left hne
    refine (releaseBlock_spec ha.inv ha.ready hs hB
      (hk.grows hi hB ha.grows fun hf => hf)).mono ?_ fun _ _ => trivial
    rintro - h' ⟨g', ha'⟩
    exact ⟨g', (ha.mono fun _ hf => hf.elim).trans ha'⟩

/-! ## Reallocation -/

/-- The live blocks after `css_realloc` of `ptr` answered `r`. -/
def Config.reallocLive (live : List Block) (ptr : ℕ) (size : Word) (r : ℕ) (h' : Heap) :
    List Block :=
  if r = ptr then resizeLive live ptr (getRealSize size).toNat
  else addLive (dropLive live ptr) r (decodedSize size) (usableSize h' r)

theorem realSize_le_decodedSize (size : Word) : (getRealSize size).toNat ≤ decodedSize size := by
  unfold decodedSize
  split
  · rw [toNat_getRealSize, toNat_getHugeWordSize]
    omega
  · exact le_rfl

/-- What `css_realloc` of `ptr` answered: null, the same block where it is large enough, or another
one of the size the word asks for. -/
inductive Reallocated (h : Heap) (ptr : ℕ) (size : Word) (r : ℕ) (h' : Heap) : Prop
  | null (hr : r = 0) (hnull : size = 0 ∨ ptr = 0 ∧ EmptyWord size)
  | kept (hptr : ptr ≠ 0) (hr : r = ptr) (hn : (getRealSize size).toNat ≤ usableSize h ptr)
      (hu : cssMallocUsableSize r h' = .ok (usableSize h ptr) h')
  | moved (hmoved : ptr = 0 ∨ usableSize h ptr < (getRealSize size).toNat)
      (hr : 0 < r) (hu : cssMallocUsableSize r h' = .ok (mallocUsable size) h')

/-- What `css_realloc` leaves. -/
def Moved (P : Promise) (g : Ghost) (h : Heap) (live : List Block) (ptr : ℕ) (size : Word) (r : ℕ)
    (h' : Heap) : Prop :=
  (∃ g', After P (fun p => p = ptr ∨ Outside live p) g h (reallocLive live ptr size r h') g' h') ∧
    Reallocated h ptr size r h'

/-- The block that takes the place of another one, with its contents. -/
theorem moveBlock_spec {size : Word} {oldSize : ℕ} (hi : Inv P g live h) (hready : Ready h)
    (hs : Started h τ) (hB : B ∈ live) (hk : Releasable P g B.ptr)
    (hsize : oldSize < (getRealSize size).toNat) :
    Spec (do
      let newObject ← mallocMemory (← getThreadId τ) size
      peek B.ptr oldSize fun _ => ()
      poke newObject oldSize (copy · newObject B.ptr oldSize)
      releaseBlock τ B.ptr
      return newObject) h
      (fun r h' => 0 < r ∧ cssMallocUsableSize r h' = .ok (mallocUsable size) h' ∧
        ∃ g', After P (fun p => p = B.ptr ∨ Outside live p) g h
          (reallocLive live B.ptr size r h') g' h')
      fun _ => True := by
  have hd := realSize_le_decodedSize size
  have hu := decodedSize_le_mallocUsable size
  obtain ⟨-, m, hm⟩ := id hs
  refine Spec.bind (getThreadId_spec ?_)
  obtain ⟨hi₁, hg₁⟩ := hi.addCall (x := Spared) ⟨τ, (h.tls τ).threadId⟩
  refine Spec.seq ((mallocMemory_spec hi₁ hready hm hu).any.imp fun r h' hr =>
    hr.imp id fun ha => Allocated.after_spared ha.2 hg₁) ?_
  rintro r h₁ (⟨-, -, hz, -⟩ | ha)
  · rw [hz] at hsize
    exact absurd hsize (Nat.not_lt_zero _)
  refine Spec.bind (peek_spec (.inr trivial) fun _ => ?_)
  refine Spec.bind (poke_spec (.inr trivial) fun _ => ?_)
  have hcopy : ∀ a, copy h₁.mem r B.ptr oldSize a ≠ h₁.mem a →
      r ≤ a ∧ a < r + mallocUsable size := fun a hchanged => by
    by_contra hout
    exact hchanged (copy_of_outside (by omega))
  obtain ⟨-, hf, -⟩ | ⟨hpos, -, ⟨g₂, ha₂⟩, husable⟩ := ha.write not_false hcopy
  · exact hf.elim
  have hne : B.ptr ≠ r := ha₂.inv.outside B hB
  refine Spec.seq ((releaseBlock_spec ha₂.inv ha₂.ready (hs.grows ha₂.grows)
    (List.mem_cons_of_mem _ hB) (hk.grows hi hB ha₂.grows fun ho => ho B hB rfl)).mono (fun _ _ hr => hr)
    fun _ _ => trivial) ?_
  rintro - h₃ ⟨g₃, ha₃⟩
  have hdrop : dropLive (⟨r, decodedSize size, mallocUsable size⟩ :: live) B.ptr =
      ⟨r, decodedSize size, mallocUsable size⟩ :: dropLive live B.ptr :=
    List.filter_cons_of_pos (by simpa using hne.symm)
  have husable₃ := (ha₂.inv.contents.live _ List.mem_cons_self).usable_grows ha₂.inv.layout
    ha₃.inv.layout ha₃.grows hne.symm husable
  have hval : usableSize h₃ r = mallocUsable size := by rw [usableSize, husable₃]
  refine Spec.pure ⟨hpos, husable₃, g₃, ?_⟩
  rw [reallocLive, if_neg hne.symm, hval, Config.addLive, if_neg hpos.ne', ← hdrop]
  exact ⟨ha₃.inv, ha₃.ready, (ha₂.grows.mono fun _ he => .inr he).trans
    (ha₃.grows.mono fun _ he => .inl he)⟩

theorem Moved.after_spared {g₁ : Ghost} {h₁ : Heap} {ptr r : ℕ} {size : Word}
    (hm : Moved P g₁ h₁ live ptr size r h') (hi : Inv P g live h) (hi₁ : Inv P g₁ live h₁)
    (hg : Grows Spared g h g₁ h₁) (hptr : ptr = 0 ∨ ∃ B ∈ live, B.ptr = ptr) :
    Moved P g h live ptr size r h' := by
  obtain ⟨⟨g', ha⟩, hr⟩ := hm
  refine ⟨⟨g', ha.inv, ha.ready, (hg.mono fun _ hf => hf.elim).trans ha.grows⟩, ?_⟩
  cases hr with
  | null hr hnull => exact .null hr hnull
  | kept hptr' hr hn hu =>
    obtain ⟨B, hB, rfl⟩ := hptr.resolve_left hptr'
    rw [hi.usableSize_spared hi₁ hg hB] at hn hu
    exact .kept hptr' hr hn hu
  | moved hmoved hr hu =>
    refine .moved ?_ hr hu
    rcases hptr with hz | ⟨B, hB, rfl⟩
    · exact .inl hz
    · rwa [hi.usableSize_spared hi₁ hg hB] at hmoved

/-- **`css_realloc`** of a live pointer or null. -/
theorem cssRealloc_spec {ptr : ℕ} {size : Word} (hi : Inv P g live h) (hready : Ready h)
    (hτ : τ ≠ 0) (hptr : ptr = 0 ∨ ∃ B ∈ live, B.ptr = ptr)
    (hk : size = 0 ∨ usableSize h ptr < (getRealSize size).toNat → Releasable P g ptr) :
    Spec (cssRealloc τ ptr size) h (Moved P g h live ptr size) fun _ => True := by
  unfold cssRealloc
  refine Spec.seq (ensureThread_spec hi hready hτ).any ?_
  rintro - h₁ ⟨g₁, ha, hs⟩
  refine Spec.imp ?_ fun r h' (hm : Moved P g₁ h₁ live ptr size r h') =>
    hm.after_spared hi ha.inv ha.grows hptr
  by_cases hz : ptr = 0
  · -- an allocation
    rw [if_pos hz]
    refine (mallocMemory_handed ha.inv ha.ready hs (decodedSize_le_mallocUsable size)).any.imp ?_
    intro r h₂ hh
    obtain ⟨g₂, ha₂⟩ := hh.addLive
    rw [← hh.usable] at ha₂
    refine ⟨⟨g₂, ?_⟩, ?_⟩
    · have hlive : reallocLive live ptr size r h₂ =
          addLive live r (decodedSize size) (usableSize h₂ r) := by
        rw [reallocLive, hz, ha.inv.resizeLive_zero, ha.inv.dropLive_zero, Config.addLive]
        split <;> rfl
      rw [hlive]
      exact ha₂.mono fun _ he => .inr he
    · rcases hh with ⟨hr, hempty, -⟩ | ⟨hpos, -, -, hu⟩
      · exact .null hr (.inr ⟨hz, hempty⟩)
      · exact .moved (.inl hz) hpos hu
  obtain ⟨B, hB, rfl⟩ := hptr.resolve_left hz
  rw [if_neg hz]
  refine Spec.ite (fun hzero => ?_) fun hzero => ?_
  · -- a release
    have hk₁ := (hk (.inl hzero)).grows hi hB ha.grows fun hf => hf
    refine Spec.seq (cssFree_spec ha.inv ha.ready hτ (.inr ⟨B, hB, rfl⟩) hk₁) ?_
    rintro - h₂ ⟨g₂, ha₂⟩
    refine Spec.pure ⟨⟨g₂, ?_⟩, .null rfl (.inl hzero)⟩
    rw [reallocLive, if_neg (Ne.symm hz), Config.addLive, if_pos rfl]
    exact ha₂.mono fun _ he => .inl he
  · obtain ⟨hu, hcount⟩ := (ha.inv.contents.live B hB).usable ha.inv.layout
    have hold : Spec (cssMallocUsableSize B.ptr) h₁
        (fun n h₂ => n = usableSize h₁ B.ptr ∧ h₂ = h₁) fun _ => True := by
      unfold Spec
      rw [hu]
      exact ⟨rfl, rfl⟩
    refine Spec.seq hold ?_
    rintro oldSize h₂ ⟨rfl, rfl⟩
    dsimp only
    refine Spec.ite (fun hle => Spec.pure ⟨⟨g₁, ?_⟩, .kept hz rfl hle hu⟩) fun hlt => ?_
    · rw [reallocLive, if_pos rfl]
      exact ⟨ha.inv.resize hu hle, ha.ready, Grows.refl _ _ _⟩
    · have hk₁ := hk (.inr (by rw [← hi.usableSize_spared ha.inv ha.grows hB]; omega))
      refine (moveBlock_spec ha.inv ha.ready hs hB (hk₁.grows hi hB ha.grows fun hf => hf)
        (by omega)).imp ?_
      rintro r h₃ ⟨hpos, hur, ha₃⟩
      exact ⟨ha₃, .moved (.inr (by omega)) hpos hur⟩

end Semalloc
