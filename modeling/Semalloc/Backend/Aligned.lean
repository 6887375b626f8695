import Semalloc.Backend.Dispatch
import Semalloc.Backend.Threads

/-!
# Freeing aligned blocks

`css_memalign` returns a multiple of the alignment inside the slot or mapping it was given. While it
shifts no address, a later `css_free` by the same thread completes, and gives back exactly that slot
or mapping. A shifted block fails the double-free check: `setAllocation` toggles the bit of the
control byte it just copied from the first header.

## Main definitions

* `GivesBack`: what `css_free` does with a recorded slot or mapping
* `Config.Spares`: events that neither free nor reallocate a block
* `Stored`: a live block with its record

## Main results

* `Stored.step`, `Stored.run`: a spared block keeps its record
* `aligned_blocks_freed`: aligned blocks are freed
* `shifted_block_double_free`: a shifted block is not
-/

set_option autoImplicit false

namespace Semalloc

open ByteMemory Region Effect MemoryManager

variable {P : Promise} {g : Ghost} {live : List Block} {h h' : Heap} {c c' : Config}
  {e : Served} {p τ : ℕ}

/-- The thread gives back what was recorded: a mapping is unmapped, and a slot is linked at the
head of the free list of a BIBOP that serves it, after the remote frees of the thread's manager. -/
def GivesBack (τ : ℕ) (e : Served) (h h' : Heap) : Prop :=
  match e.origin with
  | .huge => h' = h.setMaps (removeRange h.maps e.range.base e.range.len)
  | .pool k => ∃ b h₁, h.Serves b e.range ∧
      handleFreeList k.thread (h.addCall ⟨τ, k.thread⟩) = .ok () h₁ ∧
      Freed h₁ b e.range.base e.range.len h'

namespace Config

/-- The event neither frees nor reallocates the block at `p`. -/
def Spares (p : ℕ) (e : Event) : Prop := e.op ≠ .free p ∧ ∀ size, e.op ≠ .realloc p size

/-- The runs from `c` that honour the promise and spare the block at `p`. -/
def SparingRun (P : Promise) (p : ℕ) (c : Config) : Config → Prop :=
  Transition.Reachable (· = c) (fun c e => (c.Permitted e ∧ c.Honours P e) ∧ Spares p e) step

end Config

/-! ## A live block and its record -/

/-- The block at `p` is live, and lies in what was recorded. -/
def Stored (P : Promise) (p : ℕ) (e : Served) (c : Config) : Prop :=
  ∃ g, Inv P g c.live c.heap ∧ Ready c.heap ∧
    ∃ B ∈ c.live, B.ptr = p ∧ ComesFrom P g c.heap.mem B e.origin e.range

/-- The events keep the live blocks that they do not release. -/
theorem Config.step_mem {e : Event} {B : Block} (hB : B ∈ c.live)
    (hspare : Config.Spares B.ptr e) (hs : c.step e = some c') : B ∈ c'.live := by
  have hadd : ∀ r n l, B ∈ addLive c.live r n l := fun r n l => by
    unfold addLive
    split
    · exact hB
    · exact List.mem_cons_of_mem _ hB
  have hdrop : ∀ q, q ≠ B.ptr → B ∈ dropLive c.live q := fun q hq =>
    List.mem_filter.mpr ⟨hB, by simpa using hq.symm⟩
  obtain ⟨τ, op⟩ := e
  cases op with
  | malloc size | calloc nmemb size | memalign alignment size =>
    obtain ⟨r, t, -, rfl⟩ := returned_eq hs
    exact hadd _ _ _
  | free q =>
    obtain ⟨r, t, -, rfl⟩ := returned_eq hs
    exact hdrop q fun hq => hspare.1 (congrArg Op.free hq)
  | realloc q size =>
    obtain ⟨r, t, -, rfl⟩ := returned_eq hs
    have hq : q ≠ B.ptr := fun hq => hspare.2 size (by rw [hq])
    dsimp only
    split
    · exact List.mem_map.mpr ⟨B, hB, if_neg hq.symm⟩
    · unfold addLive
      split
      · exact hdrop q hq
      · exact List.mem_cons_of_mem _ (hdrop q hq)
  | write ptr offset byte =>
    obtain rfl := write_eq hs
    exact hB

/-- A write inside a live block leaves it where it is. -/
theorem ComesFrom.write {B : Block} {m' : ByteMemory} {o : Origin} {r : Region}
    (hf : ComesFrom P g h.mem B o r) (hm : ∀ a, m' a ≠ h.mem a → B.ptr ≤ a) :
    ComesFrom P g m' B o r := by
  have hsame : SameHeader h.mem m' (B.ptr - headerSize) := by
    rintro a ⟨h₁, h₂⟩
    have hle := hf.liveBlock.headerSize_lt.1
    have hsize : headerSize = 16 := rfl
    by_contra hne
    have := hm a hne
    omega
  have hlive := hf.liveBlock.congr hsame
  cases hf with
  | pool hB => exact .pool ⟨hB.block.congr hsame, hB.use, hB.count_le, hB.limit_le⟩
  | huge hB =>
    rw [← hsame.size]
    cases hlive with
    | huge hB' => exact .huge hB'
    | slot hB' =>
      have hhuge := hsame.isHuge.trans hB.isHuge
      rw [hB'.block.notHuge] at hhuge
      cases hhuge

/-- **A spared block** keeps its record in one event. -/
theorem Stored.step {ev : Event} (hstored : Stored P p e c) (hp : c.Permitted ev)
    (hh : c.Honours P ev) (hspare : Config.Spares p ev) (hs : c.step ev = some c') :
    Stored P p e c' := by
  obtain ⟨g, hi, hready, B, hB, rfl, hf⟩ := hstored
  have hpos := hi.ptr_pos hB
  have hB' := Config.step_mem hB hspare hs
  obtain ⟨g', ha⟩ := Config.step_after hi hready hp hh hs
  by_cases hptr : B.ptr = ev.op.pointer
  · -- only a write is given the block
    obtain ⟨τ, op⟩ := ev
    cases op with
    | malloc _ | calloc _ _ | memalign _ _ => exact absurd hptr hpos.ne'
    | realloc q size => exact absurd (congrArg (Op.realloc · size) hptr.symm) (hspare.2 size)
    | free q => exact absurd (congrArg Op.free hptr.symm) hspare.1
    | write q offset byte =>
      obtain rfl : B.ptr = q := hptr
      obtain rfl := Config.write_eq hs
      obtain ⟨-, B₁, hB₁, hq, hlt⟩ := hp
      have hinside : ∀ a, writeByte c.heap.mem (B.ptr + offset) byte a ≠ c.heap.mem a →
          B₁.ptr ≤ a ∧ a < B₁.ptr + B₁.limit := fun a hne => by
        by_contra hout
        exact hne (writeByte_of_ne _ (by omega))
      refine ⟨g, (hi.writeBlock hB₁ hinside).1, hready, B, hB, rfl, hf.write fun a hne => ?_⟩
      have := (hinside a hne).1
      omega
  · refine ⟨g', ha.inv, ha.ready, B, hB', rfl, hf.grows hi.layout ha.grows ?_⟩
    rintro (hx | hx)
    · exact hptr hx
    · exact hx B hB rfl

/-- **A spared block** keeps its record, and an initialized thread its manager, in a run. -/
theorem Stored.run {c₁ : Config} (hstored : Stored P p e c) (htid : c.Initialized τ)
    (hr : Config.SparingRun P p c c₁) :
    Stored P p e c₁ ∧ c₁.heap.tls τ = c.heap.tls τ := by
  refine Transition.Reachable.invariant
    (I := fun c₁ => Stored P p e c₁ ∧ c₁.heap.tls τ = c.heap.tls τ) hr ?_ ?_
  · rintro _ rfl
    exact ⟨hstored, rfl⟩
  · rintro c₁ ev c₂ ⟨hstored₁, htls⟩ ⟨⟨hp, hh⟩, hspare⟩ hs
    refine ⟨hstored₁.step hp hh hspare hs, ?_⟩
    obtain ⟨g₁, hi₁, hready₁, -⟩ := hstored₁
    obtain ⟨g₂, ha⟩ := Config.step_after hi₁ hready₁ hp hh hs
    rw [ha.grows.thread τ (by rw [htls]; exact htid), htls]

/-- **A stored block is freed** by a thread whose manager served it. -/
theorem Stored.free (hstored : Stored .unshifted p e c) (hτ : τ ≠ 0) (htid : c.Initialized τ)
    (howner : ∀ k, e.origin = .pool k → k.thread = (c.heap.tls τ).threadId) :
    ∃ h', cssFree τ p c.heap = .ok () h' ∧ GivesBack τ e c.heap h' := by
  obtain ⟨g, hi, hready, B, hB, rfl, hf⟩ := hstored
  have hrelease : cssFree τ B.ptr c.heap = releaseByOrigin τ B.ptr e.origin c.heap := by
    refine (cssFree_eq hi hready hτ hB hf).trans ?_
    change EStateM.bind (ensureThread τ) _ c.heap = _
    rw [EStateM.bind, ensureThread_initialized htid]
  have hspec : Spec (releaseByOrigin τ B.ptr e.origin) c.heap
      (fun _ h' => GivesBack τ e c.heap h') fun _ => False := by
    obtain ⟨origin, range, ptr⟩ := e
    dsimp only at hf howner ⊢
    cases hf with
    | huge hB => exact freeHugeMemory_spec hi hready hB fun _ _ => rfl
    | @pool b s k hB =>
      obtain ⟨-, m, hm⟩ := hi.started hτ htid
      have hthread := howner k rfl
      obtain ⟨hi₁, -⟩ := hi.addCall (x := Spared) ⟨τ, (c.heap.tls τ).threadId⟩
      unfold releaseByOrigin
      refine Spec.bind (getThreadId_spec ?_)
      rw [if_pos hthread]
      refine freeRegularMemory_spec hi₁ hready hm hB id (fun hs => hs.elim) ?_
      intro h₁ g' h' hrun _ _ hfreed
      refine ⟨b, h₁, hB.block.serves hi.layout, ?_, hfreed⟩
      rw [hthread]
      exact hrun
  obtain ⟨⟨⟩, h', hrun, hpost⟩ := hspec.exists_ok
  exact ⟨h', hrelease.trans hrun, hpost⟩

/-! ## The claim of `css_memalign` -/

/-- The first `n` bytes of a live block lie in its record, behind a header. -/
theorem ComesFrom.inside {B : Block} {o : Origin} {r : Region} (hf : ComesFrom P g h.mem B o r) :
    r.base + headerSize ≤ B.ptr ∧ B.ptr + B.limit ≤ r.base + r.len := by
  have hsize : headerSize = 16 := rfl
  cases hf with
  | pool hB => exact ⟨hB.block.slot_le, hB.limit_le⟩
  | huge hB =>
    have hge := hB.ptr_ge
    have hle := hB.limit_le
    simp only [pageSize] at *
    omega

theorem ComesFrom.pool_header {B : Block} {k : Compartment} {r : Region}
    (hf : ComesFrom P g h.mem B (.pool k) r) :
    HugeHeader.isHuge h.mem (B.ptr - headerSize) = false ∧
      RegularHeader.threadId h.mem (B.ptr - headerSize) = k.thread := by
  cases hf with
  | pool hB => exact ⟨hB.block.notHuge, hB.block.threadId⟩

/-- The size `css_memalign` asks for is not zero. -/
theorem memalignSize_ne_zero {alignment realSize : Word} {k : ℕ} (hk : k ≤ 20)
    (halign : alignment.toNat = 2 ^ k) (hreal : realSize.toNat < 2 ^ 32) :
    memalignSize alignment realSize ≠ 0 := by
  intro hz
  have heq := memalignSize_eq alignment realSize
  have hle : 2 ^ k ≤ 2 ^ 20 := Nat.pow_le_pow_right (by norm_num) hk
  have hpos : 0 < 2 ^ k := by positivity
  have hdiv := Nat.div_mul_le_self (realSize.toNat + 16) (2 ^ k)
  rw [hz, halign, Nat.mod_eq_of_lt (show realSize.toNat + 16 < 2 ^ 64 by omega),
    Nat.mod_eq_of_lt (by omega)] at heq
  have hzero : (0 : Word).toNat = 0 := rfl
  omega

/-- **Aligned blocks are freed**: in every run without shifts, the block `css_memalign` returns is
a multiple of the alignment, the requested bytes lie in what was recorded for it, and while the
clients neither free nor reallocate it, `css_free` by the same thread completes and gives back
exactly that. -/
theorem aligned_blocks_freed {os : Kernel} (hos : os.failure = .excluded)
    (hr : Config.Run .unshifted os c) (hτ : τ ≠ 0) (htid : c.Initialized τ)
    {alignment w : Word} {k : ℕ} (hk : k ≤ 20) (halign : alignment.toNat = 2 ^ k)
    (hshift : c.Shifts .unshifted τ alignment w)
    (hrun : cssMemalign τ alignment w c.heap = .ok p h') :
    p ≠ 0 ∧ p % alignment.toNat = 0 ∧ ∃ e, h'.newest (p - headerSize) = some e ∧
      e.range.base + headerSize ≤ p ∧
      p + (getRealSize w).toNat ≤ e.range.base + e.range.len ∧
      ∀ c₁, Config.SparingRun .unshifted p ⟨h', Config.addLive c.live p
          (memalignSize alignment (getRealSize w)).toNat (getRealSize w).toNat⟩ c₁ →
        ∃ h'', cssFree τ p c₁.heap = .ok () h'' ∧ GivesBack τ e c₁.heap h'' := by
  obtain ⟨g, hi, hready⟩ := hr.sound hos
  obtain ⟨hmod, hhanded, hstamp⟩ := (cssMemalign_spec hi hready hshift).of_ok hrun
  have hreal : (getRealSize w).toNat < 2 ^ 32 := by
    rw [toNat_getRealSize]
    exact Nat.mod_lt _ (by norm_num)
  obtain ⟨-, hnull, -⟩ | ⟨hpos, -, ⟨g', ha⟩, -⟩ := hhanded
  · exact absurd hnull (memalignSize_ne_zero hk halign hreal)
  obtain ⟨e, he, hf, -⟩ := ha.inv.dispatched List.mem_cons_self
  obtain ⟨hbase, hend⟩ := hf.inside
  have htls : h'.tls τ = c.heap.tls τ := ha.grows.thread τ htid
  have htid' : (h'.tls τ).tid = τ := by
    rw [htls]
    exact htid
  refine ⟨hpos.ne', hmod, e, he, hbase, hend, fun c₁ hr₁ => ?_⟩
  have howner : ∀ k, e.origin = .pool k → k.thread = (h'.tls τ).threadId := by
    intro k hk
    rw [hk] at hf
    obtain ⟨hheader, hthread⟩ := hf.pool_header
    rw [htls, ← hthread]
    exact (hstamp.resolve_left hpos.ne').resolve_left (by simp [hheader])
  have hstored : Stored .unshifted p e ⟨h', Config.addLive c.live p
      (memalignSize alignment (getRealSize w)).toNat (getRealSize w).toNat⟩ := by
    rw [Config.addLive, if_neg hpos.ne']
    exact ⟨g', ha.inv, ha.ready, _, List.mem_cons_self, rfl, hf⟩
  obtain ⟨hstored₁, htls₁⟩ := hstored.run htid' hr₁
  refine hstored₁.free hτ ?_ fun k hk => ?_
  · rw [Config.Initialized, htls₁]
    exact htid'
  · rw [htls₁]
    exact howner k hk

/-- The pointer a call returned, and why the given call after it ended the process, if it did. -/
def answerThen (r : EStateM.Result Halt Heap ℕ) (m : ℕ → Proc Unit) : Option (ℕ × Option Halt) :=
  match r with
  | .ok p h =>
    match m p h with
    | .ok _ _ => some (p, none)
    | .error e _ => some (p, some e)
  | .error _ _ => none

theorem answerThen_eq {r : EStateM.Result Halt Heap ℕ} {m : ℕ → Proc Unit} {e : Option Halt}
    (h : answerThen r m = some (p, e)) : ∃ h', r = .ok p h' ∧
      ∀ halt, e = some halt → ∃ h'', m p h' = .error halt h'' := by
  cases r with
  | error _ _ => cases h
  | ok q h' =>
    unfold answerThen at h
    dsimp only at h
    cases hm : m q h' with
    | ok _ _ =>
      rw [hm] at h
      cases h
      exact ⟨h', rfl, fun _ he => by cases he⟩
    | error halt h'' =>
      rw [hm] at h
      cases h
      exact ⟨h', rfl, fun _ he => by cases he; exact ⟨h'', hm⟩⟩

/-- A block of 100 bytes at a multiple of 16. -/
theorem aligned_blocks_freed_unshifted :
    ∃ c h' e h'', Config.Run .unshifted (bumpKernel 0 .excluded) c ∧
      cssMemalign 1 16 100 c.heap = .ok 60204679184 h' ∧
      h'.newest (60204679184 - headerSize) = some e ∧
      cssFree 1 60204679184 h' = .ok () h'' ∧ GivesBack 1 e h' h'' := by
  have hrun : ((Config.run .unshifted (bumpKernel 0 .excluded) [⟨1, .malloc 24⟩]).map fun c =>
      (decide (c.Initialized 1), decide (c.Shifts .unshifted 1 16 100),
        answerThen (cssMemalign 1 16 100 c.heap) (cssFree 1))) =
      some (true, true, some (60204679184, none)) := by decide +kernel
  obtain ⟨c, hc, heq⟩ := Option.map_eq_some_iff.mp hrun
  obtain ⟨htid, heq⟩ := Prod.mk.inj heq
  obtain ⟨hshift, hanswer⟩ := Prod.mk.inj heq
  obtain ⟨h', hok, -⟩ := answerThen_eq hanswer
  have hall := aligned_blocks_freed (c := c) (τ := 1) rfl (.of_run hc) (by decide)
    (of_decide_eq_true htid) (show 4 ≤ 20 by decide) rfl (of_decide_eq_true hshift) hok
  obtain ⟨-, -, e, he, -, -, hfree⟩ := hall
  obtain ⟨h'', hfreed, hback⟩ := hfree _ (.start rfl)
  exact ⟨c, h', e, h'', .of_run hc, hok, he, hfreed, hback⟩

/-- **A shifted block is a double free**: `css_free` of a block at a multiple of 64. -/
theorem shifted_block_double_free :
    ∃ c p h' h'', Config.AnyRun (bumpKernel 0 .excluded) c ∧ c.Initialized 1 ∧
      cssMemalign 1 64 24 c.heap = .ok p h' ∧ p ≠ 0 ∧
      cssFree 1 p h' = .error .doubleFree h'' := by
  have hrun : ((Transition.exec Config.Permitted Config.step
      (Config.initial (bumpKernel 0 .excluded)) [⟨1, .malloc 24⟩]).map fun c =>
      (decide (c.Initialized 1), answerThen (cssMemalign 1 64 24 c.heap) (cssFree 1))) =
      some (true, some (55909707840, some .doubleFree)) := by decide +kernel
  obtain ⟨c, hc, heq⟩ := Option.map_eq_some_iff.mp hrun
  obtain ⟨htid, hanswer⟩ := Prod.mk.inj heq
  obtain ⟨h', hok, hend⟩ := answerThen_eq hanswer
  obtain ⟨h'', hfree⟩ := hend _ rfl
  exact ⟨c, _, h', h'', .of_exec (.start rfl) hc, of_decide_eq_true htid, hok, by decide, hfree⟩

end Semalloc
