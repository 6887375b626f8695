import Semalloc.Backend.RunSpec

/-!
# Isolation of the pools

The history of a process lists every slot and mapping it handed out. A slot of an individual BIBOP
is only ever handed out again by the same thread, for the same context and size class. A slot of
the global pool is handed out again too: both free paths test the wrong bit of its header, and link
it into a free list. It is handed out once only in runs that release no block of the global pool.

## Main definitions

* `Isolated`, `Config.GlobalOnce`: what the history says of the two kinds of pools
* `Promise.globalKept`: the runs that release no block of the global pool

## Main results

* `individual_pools_isolated`: slots of individual pools
* `global_slot_recycled`, `global_pool_not_recycled`: slots of the global pool
-/

set_option autoImplicit false

namespace Semalloc

open Region

variable {P : Promise} {c : Config} {os : Kernel}

/-- The record is of a slot of an individual BIBOP, of the compartment `k`. -/
def Served.Individual (r : Served) (k : Compartment) : Prop :=
  r.origin = .pool k ∧ k.context ≠ none

/-- The compartment is one of the global pool. -/
def Compartment.Global (k : Compartment) : Prop := k.context = none

instance : DecidablePred Compartment.Global := fun k =>
  inferInstanceAs (Decidable (k.context = none))

/-- What overlaps the earlier slot of an individual BIBOP comes from the same compartment. -/
def Isolated (later earlier : Served) : Prop :=
  ∀ k, earlier.Individual k → later.range.Overlaps earlier.range → later.origin = .pool k

namespace Config

/-- The live block lies in the recorded slot or mapping. -/
def Recorded (c : Config) (B : Block) : Prop :=
  ∃ r ∈ c.heap.served, r.range.base ≤ B.ptr - headerSize ∧
    B.ptr + usableSize c.heap B.ptr ≤ r.range.base + r.range.len

/-- Nothing was handed out that overlaps a slot the global pool handed out before. -/
def GlobalOnce (c : Config) : Prop :=
  c.heap.served.Pairwise fun later earlier =>
    ¬ (earlier.From Compartment.Global ∧ later.range.Overlaps earlier.range)

instance (c : Config) : Decidable c.GlobalOnce :=
  inferInstanceAs (Decidable (List.Pairwise _ _))

end Config

/-- Live blocks that are not shifted lie in what was recorded for them. -/
theorem Inv.recorded {g : Ghost} (hi : Inv P g c.live c.heap) (hP : ¬ P.shifted) {B : Block}
    (hB : B ∈ c.live) : c.Recorded B := by
  obtain ⟨r, hnewest, hlog⟩ := hi.history.logged B hB
  have hr := Heap.newest_mem hnewest
  refine ⟨r, hr, ?_⟩
  have hsize : headerSize = 16 := rfl
  cases hi.contents.live B hB with
  | @slot b s k hs =>
    obtain ⟨hptr, -⟩ := hs.block.kind.resolve_right fun hk => hP hk.1
    have hhead := hs.block.head_own hi.layout le_rfl (by omega)
    have hu : usableSize c.heap B.ptr = minBagSize <<< k.sizeClass := by
      rw [usableSize, hs.block.usableSize hi.layout]
    have hclass := slotSize_sub k.sizeClass
    have hge := slotSize_ge k.sizeClass
    cases hlog with
    | pool horigin hreg hown _ hhead' =>
      rw [hhead] at hhead'
      cases hhead'
      rw [hs.block.reg] at hreg
      cases hreg
      obtain ⟨b', hreg', hown', hlen⟩ := hi.history.origin r hr _ horigin
      rw [hlen, hu]
      omega
    | huge _ _ _ hhead' => rw [hhead] at hhead'; cases hhead'
  | huge hs =>
    have hge := hs.ptr_ge
    have hhead := hs.own (B.ptr - headerSize) (by simp only [headerSize, pageSize] at *; omega)
      (by simp only [headerSize, pageSize] at *; omega)
    have hu : usableSize c.heap B.ptr = HugeHeader.size c.heap.mem (B.ptr - headerSize) := by
      rw [usableSize, hs.usableSize hi.layout]
    cases hlog with
    | pool _ _ _ _ hhead' => rw [hhead] at hhead'; cases hhead'
    | huge _ hrange _ _ =>
      rw [hrange, hu]
      simp only [pageSize] at hge ⊢
      omega

/-- **Individual pools are isolated**: whatever is handed out over a slot of the individual BIBOP of
a thread, a context and a size class comes from the same thread, context and size class; and
every live block lies in what was recorded for it. -/
theorem individual_pools_isolated (hos : os.failure = .excluded)
    (hr : Config.Run .unshifted os c) :
    c.heap.served.Pairwise Isolated ∧ ∀ B ∈ c.live, c.Recorded B := by
  obtain ⟨g, hi, -⟩ := hr.sound hos
  refine ⟨hi.history.isolated.imp fun hrespects k hk hover => ?_, fun B hB =>
    hi.recorded (fun hf => hf) hB⟩
  exact (hrespects k hk.1 hover).1

/-- A slot of an individual BIBOP, reused by its thread after a release by another one. -/
theorem individual_pools_isolated_reuse :
    ∃ c, Config.Run .unshifted (bumpKernel 0 .excluded) c ∧
      c.heap.served.map Served.ptr = [75116560, 75116560, 47319765056, 47319765008] ∧
      c.heap.served.Pairwise Isolated := by
  have hrun : ((Config.run .unshifted (bumpKernel 0 .excluded)
      [⟨1, .malloc 0x4000000500000018⟩, ⟨1, .malloc 0x4000000500000018⟩,
        ⟨1, .malloc 0x4000000500000018⟩, ⟨2, .free 75116560⟩,
        ⟨1, .malloc 0x4000000500000018⟩]).map fun c => c.heap.served.map Served.ptr) =
      some [75116560, 75116560, 47319765056, 47319765008] := by decide +kernel
  obtain ⟨c, hc, hserved⟩ := Option.map_eq_some_iff.mp hrun
  exact ⟨c, .of_run hc, hserved, (individual_pools_isolated rfl (.of_run hc)).1⟩

/-! ## The global pool -/

/-- The runs that release no block of the global pool. -/
def Promise.globalKept : Promise := ⟨Compartment.Global, False⟩

instance : DecidablePred Promise.globalKept.kept :=
  inferInstanceAs (DecidablePred Compartment.Global)

instance : Decidable Promise.globalKept.shifted := .isFalse id

/-- A block of the global pool is handed out again after its release. -/
theorem global_slot_recycled :
    ∃ c, Config.Run .unshifted (bumpKernel 0 .excluded) c ∧ ¬ c.GlobalOnce := by
  have hrun : ((Config.run .unshifted (bumpKernel 0 .excluded)
      [⟨1, .malloc 24⟩, ⟨1, .free 47319765008⟩, ⟨1, .malloc 0x500000018⟩]).map fun c =>
      decide c.GlobalOnce) = some false := by decide +kernel
  obtain ⟨c, hc, honce⟩ := Option.map_eq_some_iff.mp hrun
  exact ⟨c, .of_run hc, of_decide_eq_false honce⟩

/-- **The global pool hands out each address once** in every run that passes no block of the global
pool to `css_free`, nor to a `css_realloc` that releases it. -/
theorem global_pool_not_recycled (hos : os.failure = .excluded)
    (hr : Config.Run .globalKept os c) : c.GlobalOnce := by
  obtain ⟨g, hi, -⟩ := hr.sound hos
  refine hi.history.isolated.imp fun hrespects => ?_
  rintro ⟨hglobal, hover⟩
  obtain ⟨k, hk, hglobal⟩ := hglobal.pool
  exact (hrespects k hk hover).2 hglobal

/-- Blocks of the global pool that are kept, and a block of an individual pool that is released. -/
theorem global_pool_not_recycled_kept :
    ∃ c, Config.Run .globalKept (bumpKernel 0 .excluded) c ∧
      c.heap.served.map Served.ptr = [75116560, 75116560, 47319765056, 47319765008] ∧
      c.GlobalOnce := by
  have hrun : ((Config.run .globalKept (bumpKernel 0 .excluded)
      [⟨1, .malloc 0x4000000500000018⟩, ⟨1, .malloc 0x4000000500000018⟩,
        ⟨1, .malloc 0x4000000500000018⟩, ⟨1, .free 75116560⟩,
        ⟨1, .malloc 0x4000000500000018⟩]).map fun c => c.heap.served.map Served.ptr) =
      some [75116560, 75116560, 47319765056, 47319765008] := by decide +kernel
  obtain ⟨c, hc, hserved⟩ := Option.map_eq_some_iff.mp hrun
  exact ⟨c, .of_run hc, hserved, global_pool_not_recycled rfl (.of_run hc)⟩

end Semalloc
