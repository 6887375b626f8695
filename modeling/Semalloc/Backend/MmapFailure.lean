import Semalloc.Backend.Requests

/-!
# Failed mappings

`mmap` answers a failure with `MAP_FAILED`, which is not null. The sites that check an answer
compare it with null, and the others do not check at all, so that a failed mapping is taken for
one at the last address: its header, its boundary and its objects are computed from there.

## Main definitions

* `MapFails`: one of the `mmap` calls of a function fails
* `Contained`: the function answers failures with an `exit` or with null

## Main results

* `mmap_failure_contained_iff`: the functions that map memory contain no failure
* `allocateHuge_of_failure`, `allocateMemoryPool_of_failure`: what they do with it
-/

set_option autoImplicit false

namespace Semalloc

open ByteMemory Region Effect MemoryManager

variable {α : Type} {h : Heap}

/-- The same state under a kernel whose failures end the run. -/
def Heap.excluding (h : Heap) : Heap := { h with os := { h.os with failure := .excluded } }

/-- One of the `mmap` calls of `m` fails: the run that stops at failures stops at one. -/
def MapFails (m : Proc α) (h : Heap) : Prop :=
  ∃ t, m h.excluding = .error .mmapExcluded t

/-- When an `mmap` call of `m` fails, `m` ends in the `exit` for that, or answers null. -/
def Contained (null : α → Prop) (m : Proc α) (h : Heap) : Prop :=
  MapFails m h → (∃ t, m h = .error .noMemory t) ∨ ∃ a t, m h = .ok a t ∧ null a

/-- A function that neither takes the `exit` nor answers null contains no failure. -/
theorem contained_iff_of_spec {null : α → Prop} {m : Proc α} {post : α → Heap → Prop}
    (hm : Spec m h post (· ≠ .noMemory)) (hnull : ∀ a t, post a t → ¬ null a) :
    Contained null m h ↔ ¬ MapFails m h := by
  constructor
  · intro hc hf
    rcases hc hf with ⟨t, he⟩ | ⟨a, t, ha, hz⟩
    · exact hm.of_error he rfl
    · exact hnull a t (hm.of_ok ha) hz
  · exact fun hn hf => absurd hf hn

/-! ## The mapping sites -/

/-- `mmap` answers an address in user space or `MAP_FAILED`. Neither is null, nor is the address
behind the first page. -/
theorem mmap_ne_zero (len : ℕ) (h : Heap) :
    Spec (mmap len) h (fun a _ => a ≠ 0 ∧ (a + pageSize) % 2 ^ 64 ≠ 0) (· ≠ .noMemory) := by
  unfold mmap
  refine Spec.bind (Spec.get ?_)
  cases hm : h.os.mmap h.mmapCount h.maps len with
  | some a =>
    refine Spec.bind (Spec.modify (Spec.pure ?_))
    obtain ⟨-, -, hpage, htop, -⟩ := h.os.mmap_fresh hm
    simp only [pageSize] at hpage ⊢
    omega
  | none =>
    refine Spec.bind (Spec.modify ?_)
    cases h.os.failure with
    | excluded => exact Spec.throw (by decide)
    | returned => exact Spec.pure (by decide)

theorem poke_ne_noMemory (a n : ℕ) (f : ByteMemory → ByteMemory) (h : Heap) :
    Spec (poke a n f) h (fun _ _ => True) (· ≠ .noMemory) :=
  poke_spec (.inr (by decide)) fun _ => trivial

theorem allocateHuge_ne_zero (size : Word) (h : Heap) :
    Spec (allocateHuge size) h (fun p _ => p ≠ 0) (· ≠ .noMemory) := by
  unfold allocateHuge
  dsimp only
  refine Spec.seq (mmap_ne_zero _ h) ?_
  rintro addr h₁ ⟨hne, hdata⟩
  refine Spec.ite (fun hz => absurd hz hne) fun _ => ?_
  refine Spec.seq (poke_ne_noMemory _ _ _ h₁) fun _ h₂ _ => ?_
  refine Spec.seq (poke_ne_noMemory _ _ _ h₂) fun _ h₃ _ => ?_
  exact Spec.bind (serve_spec (Spec.pure hdata))

theorem allocateSingleBIBOP_ne_zero (base objectSize capacity : ℕ) (h : Heap) :
    Spec (SingleBIBOP.allocateSingleBIBOP base objectSize capacity) h (fun sb _ => sb ≠ 0)
      (· ≠ .noMemory) := by
  unfold SingleBIBOP.allocateSingleBIBOP
  refine Spec.seq (mmap_ne_zero _ h) ?_
  rintro sb h₁ ⟨hne, -⟩
  refine Spec.ite (fun hz => absurd hz hne) fun _ => ?_
  refine Spec.seq (poke_ne_noMemory _ _ _ h₁) fun _ h₂ _ => ?_
  exact Spec.bind (Spec.modify (Spec.pure hne))

theorem initGlobalBIBOP_ne_noMemory (n : ℕ) : ∀ (objects : ℕ → ℕ) (h : Heap),
    Spec (initGlobalBIBOP objects n) h (fun _ _ => True) (· ≠ .noMemory) := by
  induction n with
  | zero => exact fun objects h => Spec.pure trivial
  | succ n ih =>
    intro objects h
    unfold initGlobalBIBOP
    refine Spec.seq (mmap_ne_zero _ h) fun data h₁ _ => ?_
    refine Spec.seq (allocateSingleBIBOP_ne_zero _ _ _ h₁) fun sb h₂ _ => ?_
    exact ih _ h₂

theorem allocateMemoryPool_ne_noMemory (initSize : ℕ) (h : Heap) :
    Spec (MemoryPool.allocateMemoryPool initSize) h (fun _ _ => True) (· ≠ .noMemory) := by
  unfold MemoryPool.allocateMemoryPool
  refine Spec.seq (mmap_ne_zero _ h) fun mp h₁ _ => ?_
  refine Spec.seq (poke_ne_noMemory _ _ _ h₁) fun _ h₂ _ => ?_
  exact Spec.seq (mmap_ne_zero _ h₂) fun base h₃ _ => Spec.pure trivial

theorem allocateMemoryManager_ne_noMemory (threadId : ℕ) (h : Heap) :
    Spec (allocateMemoryManager threadId) h (fun _ _ => True) (· ≠ .noMemory) := by
  unfold allocateMemoryManager
  refine Spec.seq (mmap_ne_zero _ h) fun mm h₁ _ => ?_
  refine Spec.seq (poke_ne_noMemory _ _ _ h₁) fun _ h₂ _ => ?_
  refine Spec.seq (allocateMemoryPool_ne_noMemory _ h₂) fun dataPool h₃ _ => ?_
  refine Spec.seq (allocateMemoryPool_ne_noMemory _ h₃) fun metadataPool h₄ _ => ?_
  refine Spec.seq (poke_ne_noMemory _ _ _ h₄) fun _ h₅ _ => ?_
  exact Spec.seq (initGlobalBIBOP_ne_noMemory _ _ h₅) fun globalBIBOP h₆ _ => Spec.pure trivial

/-! ## What becomes of a failed mapping -/

/-- A failed `mmap` answers `MAP_FAILED` and changes nothing else. -/
theorem mmap_of_failure {len : ℕ} (hos : h.os.failure = .returned)
    (hfail : h.os.mmap h.mmapCount h.maps len = none) :
    mmap len h = .ok mapFailed { h with mmapCount := h.mmapCount + 1 } := by
  have hpost : Spec (mmap len) h
      (fun a t => a = mapFailed ∧ t = { h with mmapCount := h.mmapCount + 1 }) fun _ => False := by
    unfold mmap
    refine Spec.bind (Spec.get ?_)
    rw [hfail]
    refine Spec.bind (Spec.modify ?_)
    rw [hos]
    exact Spec.pure ⟨rfl, rfl⟩
  obtain ⟨a, t, hrun, rfl, rfl⟩ := hpost.exists_ok
  exact hrun

/-- **A failed huge mapping**: the header is written at 4079, and the block is at 4095. -/
theorem allocateHuge_of_failure {size : Word} (hos : h.os.failure = .returned)
    (hfail : h.os.mmap h.mmapCount h.maps
      (((size + 4096#64 - 1#64) &&& ~~~4095#64) + 4096#64).toNat = none) :
    allocateHuge size h = (do
      poke 4079 headerSize (HugeHeader.setSize · 4079 (hugeRound size))
      poke 4079 headerSize (HugeHeader.setHuge · 4079)
      serve .huge mapFailed (hugeRound size + pageSize) 4095
      return 4095 : Proc ℕ) { h with mmapCount := h.mmapCount + 1 } := by
  show EStateM.bind (mmap _) _ h = _
  unfold EStateM.bind
  rw [mmap_of_failure hos hfail]
  rfl

/-- **A failed pool**: its memory starts at `MAP_FAILED`, and is handed out as it is. -/
theorem failed_pool_allocates {initSize size : ℕ} (hpos : 0 < size) (hle : size ≤ initSize)
    (hlt : initSize < 2 ^ 64) :
    (MemoryPool.allocateMemory ⟨mapFailed, mapFailed, (mapFailed + initSize) % 2 ^ 64⟩ size).2 =
      mapFailed := by
  have hboundary : (mapFailed + initSize) % 2 ^ 64 = initSize - 1 := by
    unfold mapFailed
    omega
  have hbump : (mapFailed + size) % 2 ^ 64 = size - 1 := by
    unfold mapFailed
    omega
  rw [MemoryPool.allocateMemory, hboundary, hbump]
  exact congrArg Prod.snd (if_neg (by dsimp only; omega))

/-! ## All mapping sites -/

/-- **Failed mappings** are contained by none of the functions that map memory: each of them ends
in an `exit` for the failures of its `mmap` calls, or answers null to them, only if there are
none. -/
theorem mmap_failure_contained_iff (h : Heap) :
    (∀ size, Contained (· = 0) (allocateHuge size) h ↔ ¬ MapFails (allocateHuge size) h) ∧
    (∀ base objectSize capacity,
      Contained (· = 0) (SingleBIBOP.allocateSingleBIBOP base objectSize capacity) h ↔
        ¬ MapFails (SingleBIBOP.allocateSingleBIBOP base objectSize capacity) h) ∧
    (∀ objects n, Contained (fun _ => False) (initGlobalBIBOP objects n) h ↔
      ¬ MapFails (initGlobalBIBOP objects n) h) ∧
    (∀ initSize, Contained (fun _ => False) (MemoryPool.allocateMemoryPool initSize) h ↔
      ¬ MapFails (MemoryPool.allocateMemoryPool initSize) h) ∧
    ∀ threadId, Contained (fun _ => False) (allocateMemoryManager threadId) h ↔
      ¬ MapFails (allocateMemoryManager threadId) h :=
  ⟨fun size => contained_iff_of_spec (allocateHuge_ne_zero size h) fun _ _ hne => hne,
    fun _ _ _ => contained_iff_of_spec (allocateSingleBIBOP_ne_zero _ _ _ h) fun _ _ hne => hne,
    fun _ _ => contained_iff_of_spec (initGlobalBIBOP_ne_noMemory _ _ h) fun _ _ _ => id,
    fun _ => contained_iff_of_spec (allocateMemoryPool_ne_noMemory _ h) fun _ _ _ => id,
    fun _ => contained_iff_of_spec (allocateMemoryManager_ne_noMemory _ h) fun _ _ _ => id⟩

/-- A request of almost `2 ^ 63` bytes, for which no mapping is found: the process neither takes the
`exit` nor answers null, but writes a header into the first page. -/
theorem huge_failure_escapes :
    ∃ c h', Config.Run .cleanShifts (bumpKernel 0 .returned) c ∧ c.Initialized 1 ∧
      MapFails (allocateHuge 0x7FFFFFFFFFFFFFFF) c.heap ∧
      ¬ Contained (· = 0) (allocateHuge 0x7FFFFFFFFFFFFFFF) c.heap ∧
      cssMalloc 1 0xFFFFFFFFFFFFFFFF c.heap = .error .segv h' := by
  have hrun : ((Config.run .cleanShifts (bumpKernel 0 .returned) [⟨1, .malloc 24⟩]).map fun c =>
      (decide (c.Initialized 1), haltOf (allocateHuge 0x7FFFFFFFFFFFFFFF c.heap.excluding),
        haltOf (cssMalloc 1 0xFFFFFFFFFFFFFFFF c.heap),
        haltOf (allocateHuge 0x7FFFFFFFFFFFFFFF c.heap))) =
      some (true, some .mmapExcluded, some .segv, some .segv) := by decide +kernel
  obtain ⟨c, hc, heq⟩ := Option.map_eq_some_iff.mp hrun
  simp only [Prod.mk.injEq] at heq
  obtain ⟨hinit, hfails, hmalloc, hhuge⟩ := heq
  obtain ⟨h', hmalloc⟩ := haltOf_eq hmalloc
  obtain ⟨t, hhuge⟩ := haltOf_eq hhuge
  refine ⟨c, h', .of_run hc, of_decide_eq_true hinit, haltOf_eq hfails, fun hcontained => ?_,
    hmalloc⟩
  rcases hcontained (haltOf_eq hfails) with ⟨t', he⟩ | ⟨a, t', ha, -⟩
  · rw [hhuge] at he
    cases he
  · rw [hhuge] at ha
    cases ha

end Semalloc
