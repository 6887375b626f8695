import Semalloc.Backend.Realloc
import Semalloc.Backend.Requests

/-!
# What reallocation guarantees

While no block is shifted, the usable bytes of a live block lie in its slot or mapping, and
`css_realloc` keeps its contents: the block stays where it is, or its bytes move to a new block and
its storage goes back to where it came from, while every other live block is left alone. The tags
of the size word only choose the pool of the new block, except that a word is compared with zero
before its tags are removed.

## Main definitions

* `Preserves`: what `css_realloc` of a live block guarantees
* `GivenUp`: the storage of a block is unmapped or on a free list
* `SameOutcome`: two calls agree on null, on the release, and on the usable size

## Main results

* `usable_within_storage`: usable bytes lie in the storage of the block
* `realloc_preserves`: contents and ownership
* `realloc_tags_agree`: when two tags make no difference
-/

set_option autoImplicit false

namespace Semalloc

open ByteMemory Region Effect MemoryManager

variable {P : Promise} {g : Ghost} {live : List Block} {h : Heap} {c : Config} {B : Block}
  {e : Served} {p r τ : ℕ} {w : Word} {os : Kernel}

/-! ## Usable sizes -/

/-- A live block that `css_realloc` left in place holds the size asked for. -/
theorem Reallocation.realSize_le {h' : Heap} (hr : Reallocation τ p w e h r h') (hpos : 0 < p)
    (hrp : r = p) : (getRealSize w).toNat ≤ usableSize h p := by
  cases hr with
  | freed _ hr _ _ => omega
  | kept _ hle _ _ => exact hle
  | moved _ hne _ _ _ _ => exact absurd hrp hne

/-- **The usable size never reaches past the block**: in every run without shifts, the usable bytes
of a live block lie in the slot or mapping that was handed out for it; `css_realloc` compares and
copies just these bytes, and in place grants no others. -/
theorem usable_within_storage (hos : os.failure = .excluded) (hr : Config.Run .unshifted os c)
    (hB : B ∈ c.live) :
    ∃ e, c.heap.newest (B.ptr - headerSize) = some e ∧
      cssMallocUsableSize B.ptr c.heap = .ok (usableSize c.heap B.ptr) c.heap ∧
      e.range.Includes (usableRange c.heap B.ptr) ∧
      ∀ τ size, τ ≠ 0 →
        cssRealloc τ B.ptr size c.heap =
          reallocOfSize τ B.ptr size (usableSize c.heap B.ptr) c.heap ∧
        ∀ h', cssRealloc τ B.ptr size c.heap = .ok B.ptr h' →
          e.range.Includes ⟨B.ptr, (getRealSize size).toNat⟩ := by
  obtain ⟨g, hi, hready⟩ := hr.sound hos
  obtain ⟨e, he, hf, -⟩ := hi.dispatched hB
  have hin := hf.includes_usable hi.layout fun hP => hP
  refine ⟨e, he, ((hi.contents.live B hB).usable hi.layout).1, hin, fun τ size hτ =>
    ⟨cssRealloc_ofSize hi hready hτ hB, fun h' hrun => ?_⟩⟩
  have htraced := (cssRealloc_traced hi hready hτ hB hf fun _ _ _ _ _ _ => id).of_ok hrun
  have hle := htraced.realSize_le (hi.ptr_pos hB) rfl
  rintro a ⟨h₁, h₂⟩
  exact hin a ⟨h₁, by simp only [usableRange] at h₂ ⊢; omega⟩

/-- A slot of 48 bytes with its header, and a mapping. -/
theorem usable_within_storage_mapped :
    ∃ c e, Config.Run .unshifted (bumpKernel 0 .excluded) c ∧ usableSize c.heap 206308786176 =
      262144 ∧ c.heap.newest (206308786176 - headerSize) = some e ∧
        e.range.Includes (usableRange c.heap 206308786176) := by
  have hrun : ((Config.run .unshifted (bumpKernel 0 .excluded)
      [⟨1, .malloc 24⟩, ⟨2, .malloc 24⟩, ⟨1, .malloc 0x40000⟩]).map fun c =>
      (decide (⟨206308786176, 262144, 262144⟩ ∈ c.live), usableSize c.heap 206308786176)) =
      some (true, 262144) := by decide +kernel
  obtain ⟨c, hc, heq⟩ := Option.map_eq_some_iff.mp hrun
  obtain ⟨hlive, husable⟩ := Prod.mk.inj heq
  obtain ⟨e, he, -, hin, -⟩ := usable_within_storage rfl (.of_run hc) (of_decide_eq_true hlive)
  exact ⟨c, e, .of_run hc, husable, he, hin⟩

/-- **The usable bytes of a shifted block**: 128 of them, from 64 bytes inside a slot of 144. -/
theorem shifted_usable_overruns :
    ∃ c e, Config.AnyRun (bumpKernel 0 .excluded) c ∧ (∃ B ∈ c.live, B.ptr = 55909707840) ∧
      c.heap.newest (55909707840 - headerSize) = some e ∧
      ¬ e.range.Includes (usableRange c.heap 55909707840) := by
  have hrun : ((Transition.exec Config.Permitted Config.step
      (Config.initial (bumpKernel 0 .excluded)) [⟨1, .malloc 24⟩, ⟨1, .memalign 64 24⟩]).map
      fun c => (decide (∃ B ∈ c.live, B.ptr = 55909707840), usableSize c.heap 55909707840,
        (c.heap.newest (55909707840 - headerSize)).map Served.range)) =
      some (true, 128, some ⟨55909707776, 144⟩) := by decide +kernel
  obtain ⟨c, hc, heq⟩ := Option.map_eq_some_iff.mp hrun
  obtain ⟨hlive, heq⟩ := Prod.mk.inj heq
  obtain ⟨husable, hrange⟩ := Prod.mk.inj heq
  obtain ⟨e, he, hrange⟩ := Option.map_eq_some_iff.mp hrange
  refine ⟨c, e, .of_exec (.start rfl) hc, of_decide_eq_true hlive, he, fun hin => ?_⟩
  -- the last usable byte is 47 bytes past the slot
  have hlast := hin (55909707840 + 127) ⟨Nat.le_add_right _ _, by
    simp only [usableRange, husable]; decide⟩
  rw [hrange] at hlast
  exact absurd hlast.2 (by decide)

/-! ## Contents and ownership -/

/-- What `css_realloc` of the block at `p` with the size word `w` guarantees when it answers `r`.
The manager of a thread that calls for the first time is created before anything else. -/
structure Preserves (τ p : ℕ) (w : Word) (c : Config) (r : ℕ) (h' : Heap) : Prop where
  usable : cssMallocUsableSize r h' = .ok (usableSize h' r) h'
  large : (getRealSize w).toNat ≤ usableSize h' r
  contents : ∀ i < min (usableSize c.heap p) (usableSize h' r),
    h'.mem (r + i) = c.heap.mem (p + i)
  kept : r = p → ensureThread τ c.heap = .ok () h' ∧ (c.Initialized τ → h' = c.heap)
  released : r ≠ p → ∃ e h₁ h₂, c.heap.newest (p - headerSize) = some e ∧
    ensureThread τ c.heap = .ok () h₁ ∧
    mallocMemory (h₁.tls τ).threadId w (h₁.addCall ⟨τ, (h₁.tls τ).threadId⟩) = .ok r h₂ ∧
    GoesBack τ p e (h₂.setMem (copy h₂.mem r p (usableSize c.heap p))) h'
  others : ∀ B ∈ c.live, B.ptr ≠ p → ∃ e, c.heap.newest (B.ptr - headerSize) = some e ∧
    ∀ a, e.range.Contains a → h'.mem a = c.heap.mem a

/-- **`css_realloc` keeps contents and ownership**: in every run without shifts, a call for a size
that is not zero, of a live block of any thread, returns with the guarantees, unless the process runs
out of memory, or of threads. -/
theorem realloc_preserves (hos : os.failure = .excluded) (hr : Config.Run .unshifted os c)
    (hB : B ∈ c.live) (hτ : τ ≠ 0) (hsize : getRealSize w ≠ 0) :
    Spec (cssRealloc τ B.ptr w) c.heap (Preserves τ B.ptr w c) (GaveUp τ B.ptr w c.heap) := by
  obtain ⟨g, hi, hready⟩ := hr.sound hos
  obtain ⟨e, he, hf, -⟩ := hi.dispatched hB
  have hpos := hi.ptr_pos hB
  have hin := hf.includes_usable hi.layout fun hP => hP
  have hw : w ≠ 0 := fun hz => hsize (by rw [hz]; rfl)
  have hk : ∀ q, Releasable .unshifted g q := fun _ _ _ _ _ _ => id
  refine ((cssRealloc_traced hi hready hτ hB hf fun _ => hk _).and
    (cssRealloc_spec hi hready hτ (.inr ⟨B, hB, rfl⟩) fun _ => hk _)).mono ?_
    fun _ he => he.1.resolve_right And.left
  rintro r h' ⟨htraced, ⟨g', ha⟩, hanswer⟩
  have hothers : ∀ B' ∈ c.live, B'.ptr ≠ B.ptr → ∃ e', c.heap.newest (B'.ptr - headerSize) =
      some e' ∧ ∀ a, e'.range.Contains a → h'.mem a = c.heap.mem a := by
    intro B' hB' hne
    obtain ⟨e', he', hf', -⟩ := hi.dispatched hB'
    refine ⟨e', he', fun a ha' => ha.grows.held a B'.ptr (hf'.held hi.layout ha') ?_⟩
    rintro (hx | hx)
    · exact hne hx
    · exact hx B' hB' rfl
  have hread : ∀ {u}, cssMallocUsableSize r h' = .ok u h' → usableSize h' r = u := fun hu => by
    rw [usableSize, hu]
  have hmalloc := decodedSize_le_mallocUsable w
  have hreal := realSize_le_decodedSize w
  cases htraced with
  | freed hz _ _ _ => exact absurd hz hw
  | kept _ hle hrp hrun =>
    subst hrp
    have hu : cssMallocUsableSize B.ptr h' = .ok (usableSize c.heap B.ptr) h' := by
      cases hanswer with
      | null hr _ => omega
      | kept _ _ _ hu => exact hu
      | moved hmoved _ _ => rcases hmoved with hz | hlt <;> omega
    have hval := hread hu
    have hinit : c.Initialized τ → h' = c.heap := fun htid => by
      rw [ensureThread_initialized htid] at hrun
      exact (EStateM.Result.ok.inj hrun).2.symm
    refine ⟨by rw [hval]; exact hu, by omega, fun i hlt => ?_, fun _ => ⟨hrun, hinit⟩,
      fun hne => absurd rfl hne, hothers⟩
    -- only the manager of the thread was created
    have hspared := ((ensureThread_spec hi hready hτ).of_ok hrun)
    obtain ⟨g₁, ha₁, -⟩ := hspared
    refine ha₁.grows.held _ _ (hf.held hi.layout (hin _ ⟨Nat.le_add_right _ _, ?_⟩)) not_false
    simp only [usableRange]
    omega
  | moved hlt hne hrun hrunm hback hcontents =>
    have hu : cssMallocUsableSize r h' = .ok (mallocUsable w) h' := by
      cases hanswer with
      | null _ hnull =>
        rcases hnull with hz | ⟨hz, -⟩
        · exact absurd hz hw
        · omega
      | kept _ hr _ _ => exact absurd hr hne
      | moved _ _ hu => exact hu
    have hval := hread hu
    exact ⟨by rw [hval]; exact hu, by omega, fun i hi' => hcontents hin i (by omega),
      fun hrp => absurd hrp hne, fun _ => ⟨e, _, _, he, hrun, hrunm, hback⟩, hothers⟩

/-- A block of 32 bytes of another thread that grows to 100. -/
theorem realloc_preserves_moved :
    ∃ c r h', Config.Run .unshifted (bumpKernel 0 .excluded) c ∧ r ≠ 47319765008 ∧
      cssRealloc 2 47319765008 100 c.heap = .ok r h' ∧ Preserves 2 47319765008 100 c r h' := by
  have hrun : ((Config.run .unshifted (bumpKernel 0 .excluded)
      [⟨1, .malloc 24⟩, ⟨1, .write 47319765008 20 7⟩]).map fun c =>
      (decide (⟨47319765008, 24, 32⟩ ∈ c.live),
        answerThen (cssRealloc 2 47319765008 100 c.heap) (cssFree 2))) =
      some (true, some (159064096784, none)) := by decide +kernel
  obtain ⟨c, hc, heq⟩ := Option.map_eq_some_iff.mp hrun
  obtain ⟨hlive, hanswer⟩ := Prod.mk.inj heq
  obtain ⟨h', hok, -⟩ := answerThen_eq hanswer
  have hpreserves := (realloc_preserves (w := 100) rfl (.of_run hc) (of_decide_eq_true hlive)
    (show 2 ≠ 0 by decide) (by decide)).of_ok hok
  exact ⟨c, _, h', .of_run hc, by decide, hok, hpreserves⟩

/-- A double free is no way to run out of memory. -/
theorem not_gaveUp_doubleFree : ¬ GaveUp τ p w h .doubleFree := by
  rintro (⟨-, hroom | ⟨hx, -⟩⟩ | ⟨-, h₁, -, hroom | ⟨hx, -⟩⟩)
  · exact hroom
  · cases hx
  · exact hroom
  · cases hx

/-- **A reallocation that drains a shifted block ends the process**, although neither the manager nor
the size asked for is at fault, and memory has not run out. -/
theorem realloc_drains_shifted_block :
    ∃ c h', Config.AnyRun (bumpKernel 0 .excluded) c ∧ c.Initialized 1 ∧
      (∃ B ∈ c.live, B.ptr = 47319765008) ∧ getRealSize 100 ≠ 0 ∧
      cssRealloc 1 47319765008 100 c.heap = .error .doubleFree h' ∧
      ¬ Spec (cssRealloc 1 47319765008 100) c.heap (Preserves 1 47319765008 100 c)
        (GaveUp 1 47319765008 100 c.heap) := by
  have hrun : ((Transition.exec Config.Permitted Config.step
      (Config.initial (bumpKernel 0 .excluded))
      [⟨1, .malloc 24⟩, ⟨1, .memalign 64 24⟩, ⟨2, .free 55909707840⟩]).map fun c =>
      (decide (c.Initialized 1 ∧ ∃ B ∈ c.live, B.ptr = 47319765008),
        haltOf (cssRealloc 1 47319765008 100 c.heap))) =
      some (true, some .doubleFree) := by decide +kernel
  obtain ⟨c, hc, heq⟩ := Option.map_eq_some_iff.mp hrun
  obtain ⟨hstate, hhalt⟩ := Prod.mk.inj heq
  obtain ⟨hinit, hlive⟩ := of_decide_eq_true hstate
  obtain ⟨h', herror⟩ := haltOf_eq hhalt
  exact ⟨c, h', .of_exec (.start rfl) hc, hinit, hlive, by decide, herror,
    fun hspec => not_gaveUp_doubleFree (hspec.of_error herror)⟩

/-! ## Tags -/

/-- The storage recorded for the block at `p` is unmapped, or its slot is on the free list of a
BIBOP, or the block is on the remote free list of its thread. -/
def GivenUp (h : Heap) (p : ℕ) (e : Served) : Prop :=
  match e.origin with
  | .huge => ¬ Mapped h.maps (p - headerSize)
  | .pool k =>
    (∃ b S l, h.bibops b = some S ∧ Chain (link h.mem) S.freeList l ∧ e.range.base ∈ l) ∨
      ∃ m l, h.globalMemoryManager k.thread = some m ∧ Chain (link h.mem) m.freeList l ∧ p ∈ l

/-- The storage of a live block is not given up. -/
theorem Inv.not_givenUp (hi : Inv P g live h) (hB : B ∈ live)
    (hf : ComesFrom P g h.mem B e.origin e.range) : ¬ GivenUp h B.ptr e := by
  have hmapped := ((hi.contents.live B hB).head_held hi.layout).mapped hi.layout
  have hsize : headerSize = 16 := rfl
  obtain ⟨origin, range, ptr⟩ := e
  dsimp only at hf
  cases hf with
  | huge hB => exact fun hgone => hgone hmapped
  | @pool b s k hB =>
    rintro (⟨b', S, l, hS, hchain, hmem⟩ | ⟨m, l, hm, hchain, hmem⟩)
    · obtain rfl := hchain.unique (hi.contents.freeChain b' S hS)
      obtain ⟨-, hu, -⟩ := hi.contents.freeSlot b' s hmem
      rw [hB.use] at hu
      cases hu
    · obtain rfl := hchain.unique (hi.contents.pendingChain _ m hm)
      obtain ⟨b', k', s', -, hblock, hu⟩ := hi.contents.pendingBlock _ _ hmem
      have hhead := hblock.head_own hi.layout le_rfl (by omega)
      rw [hB.block.head_own hi.layout le_rfl (by omega)] at hhead
      obtain rfl := (Owner.slot.inj hhead).2
      rw [hB.use] at hu
      cases hu

/-- Storage that went back is given up. -/
theorem GoesBack.givenUp {h₁ h₂ : Heap} {g₂ : Ghost} {live₂ : List Block}
    (hback : GoesBack τ B.ptr e h₁ h₂) (hf : ComesFrom P g h.mem B e.origin e.range)
    (hl : Layout g.own g.reg h) (hi₂ : Inv P g₂ live₂ h₂) : GivenUp h₂ B.ptr e := by
  have hsize : headerSize = 16 := rfl
  have hpos : 0 < B.ptr := hf.liveBlock.headerSize_lt.2
  obtain ⟨origin, range, ptr⟩ := e
  dsimp only at hf
  cases hf with
  | huge hB =>
    have hge := hB.ptr_ge
    obtain rfl : h₂ = _ := hback
    simp only [pageSize] at hge
    refine fun hmapped => (mapped_removeRange.mp hmapped).2 ⟨?_, ?_⟩ <;>
      simp only [pageSize] <;> omega
  | @pool b s k hB =>
    have hs := hl.slotRange_of_reg hB.block.own hB.block.reg
    have hslot : s ≠ 0 := by
      have := hs.page
      simp only [pageSize] at this
      omega
    unfold GoesBack at hback
    dsimp only at hback
    split at hback
    · obtain ⟨b', h₃, -, -, S, m', -, -, rfl⟩ := hback
      refine .inl ⟨b', { S with freeList := s }, g₂.free b', Function.update_self _ _ _, ?_, ?_⟩
      · exact hi₂.contents.freeChain b' _ (Function.update_self _ _ _)
      · obtain ⟨l, hl', -⟩ := (hi₂.contents.freeChain b' _ (Function.update_self _ _ _)).pop hslot
        rw [hl']
        exact List.mem_cons_self
    · obtain ⟨m, hm, rfl⟩ := hback
      have hchain := hi₂.contents.pendingChain k.thread _ (Function.update_self _ _ _)
      refine .inr ⟨_, g₂.pending k.thread, Function.update_self _ _ _, hchain, ?_⟩
      obtain ⟨l, hl', -⟩ := hchain.pop hpos.ne'
      rw [hl']
      exact List.mem_cons_self

/-- The two answers agree on null, on whether the storage of the block at `p` was given up, and on
the usable size. -/
structure SameOutcome (h : Heap) (p : ℕ) (r₁ : ℕ) (h₁ : Heap) (r₂ : ℕ) (h₂ : Heap) : Prop where
  null : r₁ = 0 ↔ r₂ = 0
  released : p ≠ 0 → ∀ e, h.newest (p - headerSize) = some e →
    (GivenUp h₁ p e ↔ GivenUp h₂ p e)
  usable : r₁ ≠ 0 → r₂ ≠ 0 → usableSize h₁ r₁ = usableSize h₂ r₂

/-- What one call on a live block comes to. -/
inductive Resized (h : Heap) (p : ℕ) (w : Word) (e : Served) (r : ℕ) (h' : Heap) : Prop
  | freed (hw : w = 0) (hr : r = 0) (hgone : GivenUp h' p e)
  | kept (hw : w ≠ 0) (hle : (getRealSize w).toNat ≤ usableSize h p) (hr : r ≠ 0)
      (hlive : ¬ GivenUp h' p e) (hu : usableSize h' r = usableSize h p)
  | moved (hlt : usableSize h p < (getRealSize w).toNat) (hr : r ≠ 0) (hgone : GivenUp h' p e)
      (hu : usableSize h' r = mallocUsable w)

theorem cssRealloc_resized {h' : Heap} (hkept : ∀ k, ¬ P.kept k) (hi : Inv P g live h)
    (hready : Ready h) (hτ : τ ≠ 0) (hB : B ∈ live)
    (hf : ComesFrom P g h.mem B e.origin e.range) (hrun : cssRealloc τ B.ptr w h = .ok r h') :
    Resized h B.ptr w e r h' := by
  have hpos := hi.ptr_pos hB
  have hk : ∀ q, Releasable P g q := fun _ _ _ _ _ _ => hkept _
  have htraced := (cssRealloc_traced hi hready hτ hB hf fun _ => hk _).of_ok hrun
  obtain ⟨⟨g', ha⟩, hanswer⟩ :=
    (cssRealloc_spec hi hready hτ (.inr ⟨B, hB, rfl⟩) fun _ => hk _).of_ok hrun
  have hread : ∀ {u}, cssMallocUsableSize r h' = .ok u h' → usableSize h' r = u := fun hu => by
    rw [usableSize, hu]
  cases htraced with
  | freed hw hr _ hback => exact .freed hw hr (hback.givenUp hf hi.layout ha.inv)
  | kept hw hle hr hrun' =>
    subst hr
    have hlive : ¬ GivenUp h' B.ptr e := by
      obtain ⟨g₁, ha₁, -⟩ := (ensureThread_spec hi hready hτ).of_ok hrun'
      exact ha₁.inv.not_givenUp hB (hf.grows hi.layout ha₁.grows not_false)
    cases hanswer with
    | null hr _ => omega
    | kept _ _ _ hu => exact .kept hw hle hpos.ne' hlive (hread hu)
    | moved hmoved _ _ => rcases hmoved with hz | hlt <;> omega
  | moved hlt hne _ _ hback _ =>
    have hgone := hback.givenUp hf hi.layout ha.inv
    cases hanswer with
    | null _ hnull =>
      rcases hnull with rfl | ⟨hz, -⟩
      · exact absurd hlt (Nat.not_lt_zero _)
      · omega
    | kept _ hr _ _ => exact absurd hr hne
    | moved _ hr hu => exact .moved hlt hr.ne' hgone (hread hu)

/-- Two calls on a live block for the same size agree, unless the size is zero and one of the words
is not. -/
theorem Resized.same_iff {h₁ h₂ : Heap} {w₁ w₂ : Word} {r₁ r₂ : ℕ}
    (ho₁ : Resized h p w₁ e r₁ h₁) (ho₂ : Resized h p w₂ e r₂ h₂)
    (he : h.newest (p - headerSize) = some e) (hp : p ≠ 0)
    (hsize : getRealSize w₁ = getRealSize w₂) (husable : mallocUsable w₁ = mallocUsable w₂) :
    SameOutcome h p r₁ h₁ r₂ h₂ ↔ p = 0 ∨ getRealSize w₁ ≠ 0 ∨ (w₁ = 0 ↔ w₂ = 0) := by
  have hwords : ∀ {w : Word}, w = 0 → getRealSize w = 0 := fun hw => by rw [hw]; rfl
  have hzero : ∀ {n}, ¬ n < (0 : Word).toNat := Nat.not_lt_zero _
  have hgone : (GivenUp h₁ p e ↔ GivenUp h₂ p e) →
      ∀ e', h.newest (p - headerSize) = some e' → (GivenUp h₁ p e' ↔ GivenUp h₂ p e') :=
    fun hiff e' he' => by
      rw [he] at he'
      obtain rfl := Option.some.inj he'
      exact hiff
  cases ho₁ with
  | freed hw₁ hr₁ hg₁ =>
    cases ho₂ with
    | freed hw₂ hr₂ hg₂ =>
      exact ⟨fun _ => .inr (.inr (iff_of_true hw₁ hw₂)), fun _ => ⟨iff_of_true hr₁ hr₂,
        fun _ => hgone (iff_of_true hg₁ hg₂), fun hne _ => absurd hr₁ hne⟩⟩
    | kept hw₂ _ hr₂ _ _ =>
      -- the raw word differs, although the sizes are both zero
      refine iff_of_false (fun hs => hr₂ (hs.null.mp hr₁)) ?_
      rintro (hz | hne | hiff)
      · exact hp hz
      · exact hne (hwords hw₁)
      · exact hw₂ (hiff.mp hw₁)
    | moved hlt _ _ _ =>
      rw [← hsize, hwords hw₁] at hlt
      exact absurd hlt hzero
  | kept hw₁ hle hr₁ hg₁ hu₁ =>
    cases ho₂ with
    | freed hw₂ hr₂ _ =>
      refine iff_of_false (fun hs => hr₁ (hs.null.mpr hr₂)) ?_
      rintro (hz | hne | hiff)
      · exact hp hz
      · exact hne (hsize.trans (hwords hw₂))
      · exact hw₁ (hiff.mpr hw₂)
    | kept hw₂ _ hr₂ hg₂ hu₂ =>
      exact ⟨fun _ => .inr (.inr (iff_of_false hw₁ hw₂)), fun _ => ⟨iff_of_false hr₁ hr₂,
        fun _ => hgone (iff_of_false hg₁ hg₂), fun _ _ => hu₁.trans hu₂.symm⟩⟩
    | moved hlt _ _ _ =>
      rw [← hsize] at hlt
      omega
  | moved hlt hr₁ hg₁ hu₁ =>
    have hne : getRealSize w₁ ≠ 0 := fun hz => by
      rw [hz] at hlt
      exact hzero hlt
    cases ho₂ with
    | freed hw₂ _ _ => exact absurd (hsize.trans (hwords hw₂)) hne
    | kept _ hle _ _ _ =>
      rw [hsize] at hlt
      omega
    | moved _ hr₂ hg₂ hu₂ =>
      exact ⟨fun _ => .inr (.inl hne), fun _ => ⟨iff_of_false hr₁ hr₂,
        fun _ => hgone (iff_of_true hg₁ hg₂), fun _ _ => by rw [hu₁, hu₂, husable]⟩⟩

/-- `css_realloc` of null is `css_malloc`. -/
theorem cssRealloc_null (τ : ℕ) (w : Word) : cssRealloc τ 0 w = cssMalloc τ w := by
  unfold cssRealloc cssMalloc
  refine congrArg _ (funext fun _ => ?_)
  rw [if_pos rfl]

/-- **Tags affect only placement**: in every run whose shifts are clean, two calls of `css_realloc`
on a live pointer or null for the same size, with any tags, agree just when the pointer is null, the
size is not zero, or both words are zero or both are not. -/
theorem realloc_tags_agree (hos : os.failure = .excluded) (hr : Config.Run .cleanShifts os c)
    (hτ : τ ≠ 0) (hptr : c.Owned p) {w₁ w₂ : Word} (hhuge₁ : isHugeWord w₁ = false)
    (hhuge₂ : isHugeWord w₂ = false) (hsize : getRealSize w₁ = getRealSize w₂) {r₁ r₂ : ℕ}
    {h₁ h₂ : Heap} (hrun₁ : cssRealloc τ p w₁ c.heap = .ok r₁ h₁)
    (hrun₂ : cssRealloc τ p w₂ c.heap = .ok r₂ h₂) :
    SameOutcome c.heap p r₁ h₁ r₂ h₂ ↔ p = 0 ∨ getRealSize w₁ ≠ 0 ∨ (w₁ = 0 ↔ w₂ = 0) := by
  obtain ⟨g, hi, hready⟩ := hr.sound hos
  have husable : mallocUsable w₁ = mallocUsable w₂ := by
    unfold mallocUsable
    rw [hhuge₁, hhuge₂, hsize, if_neg Bool.false_ne_true, if_neg Bool.false_ne_true]
  rcases hptr with rfl | ⟨B, hB, rfl⟩
  · refine iff_of_true ?_ (.inl rfl)
    rw [cssRealloc_null] at hrun₁ hrun₂
    have hh₁ := (cssMalloc_spec hi hready hτ).of_ok hrun₁
    have hh₂ := (cssMalloc_spec hi hready hτ).of_ok hrun₂
    have hempty : EmptyWord w₁ ↔ EmptyWord w₂ := by
      unfold EmptyWord
      rw [hhuge₁, hhuge₂, hsize]
    rcases hh₁ with ⟨hz₁, hnull₁, -⟩ | ⟨hpos₁, hnull₁, -, hu₁⟩ <;>
      rcases hh₂ with ⟨hz₂, hnull₂, -⟩ | ⟨hpos₂, hnull₂, -, hu₂⟩
    · exact ⟨iff_of_true hz₁ hz₂, fun hne => absurd rfl hne, fun hne _ => absurd hz₁ hne⟩
    · exact absurd (hempty.mp hnull₁) hnull₂
    · exact absurd (hempty.mpr hnull₂) hnull₁
    · refine ⟨iff_of_false hpos₁.ne' hpos₂.ne', fun hne => absurd rfl hne, fun _ _ => ?_⟩
      rw [usableSize, usableSize, hu₁, hu₂]
      exact husable
  · obtain ⟨e, he, hf, -⟩ := hi.dispatched hB
    exact (cssRealloc_resized (fun _ => id) hi hready hτ hB hf hrun₁).same_iff
      (cssRealloc_resized (fun _ => id) hi hready hτ hB hf hrun₂) he (hi.ptr_pos hB).ne' hsize
      husable

/-- Two tags that move the block to different pools. -/
theorem realloc_tags_agree_moved :
    ∃ c r₁ h₁ r₂ h₂, Config.Run .cleanShifts (bumpKernel 0 .excluded) c ∧
      cssRealloc 1 47319765008 0x100000064 c.heap = .ok r₁ h₁ ∧
      cssRealloc 1 47319765008 0x200000064 c.heap = .ok r₂ h₂ ∧
      SameOutcome c.heap 47319765008 r₁ h₁ r₂ h₂ := by
  have hrun : ((Config.run .cleanShifts (bumpKernel 0 .excluded) [⟨1, .malloc 24⟩]).map fun c =>
      (decide (c.Owned 47319765008),
        answerThen (cssRealloc 1 47319765008 0x100000064 c.heap) (cssFree 1),
        answerThen (cssRealloc 1 47319765008 0x200000064 c.heap) (cssFree 1))) =
      some (true, some (55909707792, none), some (55909707792, none)) := by decide +kernel
  obtain ⟨c, hc, heq⟩ := Option.map_eq_some_iff.mp hrun
  obtain ⟨howned, heq⟩ := Prod.mk.inj heq
  obtain ⟨hanswer₁, hanswer₂⟩ := Prod.mk.inj heq
  obtain ⟨h₁, hok₁, -⟩ := answerThen_eq hanswer₁
  obtain ⟨h₂, hok₂, -⟩ := answerThen_eq hanswer₂
  have hiff := realloc_tags_agree rfl (.of_run hc) (show 1 ≠ 0 by decide)
    (of_decide_eq_true howned) (by decide) (by decide) (by decide) hok₁ hok₂
  exact ⟨c, _, h₁, _, h₂, .of_run hc, hok₁, hok₂, hiff.mpr (.inr (.inl (by decide)))⟩

/-- **A tagged size of zero keeps the block**, and an untagged one frees it. -/
theorem tagged_zero_keeps_block :
    ∃ c h₁ r₂ h₂, Config.Run .cleanShifts (bumpKernel 0 .excluded) c ∧
      c.Owned 47319765008 ∧ cssRealloc 1 47319765008 0 c.heap = .ok 0 h₁ ∧
      cssRealloc 1 47319765008 0x100000000 c.heap = .ok r₂ h₂ ∧
      ¬ SameOutcome c.heap 47319765008 0 h₁ r₂ h₂ := by
  have hrun : ((Config.run .cleanShifts (bumpKernel 0 .excluded) [⟨1, .malloc 24⟩]).map fun c =>
      (decide (c.Owned 47319765008),
        answerThen (cssRealloc 1 47319765008 0 c.heap) (cssFree 1),
        answerThen (cssRealloc 1 47319765008 0x100000000 c.heap) (cssFree 1))) =
      some (true, some (0, none), some (47319765008, none)) := by decide +kernel
  obtain ⟨c, hc, heq⟩ := Option.map_eq_some_iff.mp hrun
  obtain ⟨howned, heq⟩ := Prod.mk.inj heq
  obtain ⟨hanswer₁, hanswer₂⟩ := Prod.mk.inj heq
  obtain ⟨h₁, hok₁, -⟩ := answerThen_eq hanswer₁
  obtain ⟨h₂, hok₂, -⟩ := answerThen_eq hanswer₂
  exact ⟨c, h₁, _, h₂, .of_run hc, of_decide_eq_true howned, hok₁, hok₂,
    fun hsame => absurd (hsame.null.mp rfl) (by decide)⟩

end Semalloc
