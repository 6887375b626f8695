import Semalloc.Backend.ReallocSpec
import Semalloc.Backend.Requests
import Semalloc.Frontend.TagWord

/-!
# Entry points on tagged sizes

The emitted code tags the size of every heap function alike, but only `css_malloc` and the first
allocation of `css_realloc` decode the huge bit. The others keep the low 32 bits of the size, so
that a request of `2 ^ 32` bytes or more is served as its remainder. The size of a mapping that
`css_memalign` shifts is read from wherever its length points to.

## Main definitions

* `ReallocHonours`, `CallocHonours`, `MemalignHonours`: when each entry point honours a request
* `Fails`, `Overruns`: why a call does not return

## Main results

* `entry_points_honour_tags`: for each entry point, exactly when it does, and why it does not return
* `calloc_ignores_huge_bit`: a request of `2 ^ 32 + 16` bytes served with 16
-/

set_option autoImplicit false

namespace Semalloc

open Effect MemoryManager

variable {c : Config} {os : Kernel} {τ : ℕ}

/-! ## Tagged words -/

/-- The word carries the request `n`: in its low bits, or below the huge bit. -/
structure Tagged (w : Word) (n : ℕ) : Prop where
  low : (getRealSize w).toNat = n % 2 ^ 32
  huge : isHugeWord w = true ↔ 2 ^ 32 ≤ n
  decoded : decodedSize w = n

theorem tagged_tagWord (size track : Word) (p : ℕ → Word) (len : Word) (loop : Bool)
    (hlt : size.toNat < 2 ^ 63) :
    Tagged (tagWord size track (cssHashFunction p len) loop) size.toNat := by
  obtain ⟨hmod, hhash⟩ := toNat_cssHashFunction p len
  rcases Nat.lt_or_ge size.toNat (2 ^ 32) with hsize | hsize
  · have hd := decodes_tagWord track hsize hmod hhash loop
    refine ⟨by rw [hd.size, Nat.mod_eq_of_lt hsize], ?_, ?_⟩
    · rw [hd.notHuge]
      simp only [Bool.false_eq_true, false_iff]
      omega
    · rw [decodedSize, hd.notHuge, if_neg (by simp), hd.size]
  · have hword := toNat_tagWord_huge track (cssHashFunction p len) loop hsize hlt
    have hhuge : isHugeWord (tagWord size track (cssHashFunction p len) loop) = true := by
      rw [isHugeWord_iff]
      omega
    refine ⟨by rw [toNat_getRealSize]; omega, by simpa [hhuge] using hsize, ?_⟩
    rw [decodedSize, if_pos hhuge, toNat_getHugeWordSize]
    omega

theorem Tagged.not_empty {w : Word} {n : ℕ} (hw : Tagged w n) (hn : 1 ≤ n) : ¬ EmptyWord w := by
  rintro ⟨hhuge, hz⟩
  have hlow := hw.low
  have hiff := hw.huge
  rw [hhuge] at hiff
  rw [hz] at hlow
  simp only [Bool.false_eq_true, false_iff] at hiff
  change 0 = _ at hlow
  omega

/-! ## The entry points -/

theorem malloc_honours (hr : Config.Run .cleanShifts os c) (hos : os.failure = .excluded)
    (hτ : τ ≠ 0) {w : Word} {n : ℕ} (hw : Tagged w n) {r : ℕ} {h' : Heap}
    (hrun : cssMalloc τ w c.heap = .ok r h') : HoldsOrFails n r h' := by
  obtain ⟨g, hi, hready⟩ := hr.sound hos
  rcases (cssMalloc_spec hi hready hτ).of_ok hrun with ⟨hz, -⟩ | ⟨-, -, -, hu⟩
  · exact .inl hz
  · refine .inr ⟨_, hu, ?_⟩
    rw [← hw.decoded]
    exact decodedSize_le_mallocUsable w

/-- When `css_realloc` of `ptr` honours a request of `n` bytes. -/
def ReallocHonours (h : Heap) (ptr n : ℕ) : Prop :=
  ptr = 0 ∨ n ≤ usableSize h ptr ∨ usableSize h ptr < n % 2 ^ 32

theorem realloc_honours_iff (hr : Config.Run .cleanShifts os c) (hos : os.failure = .excluded)
    (hτ : τ ≠ 0) {w : Word} {n : ℕ} (hw : Tagged w n) (hn : 1 ≤ n) {ptr r : ℕ}
    (hptr : c.Owned ptr) {h' : Heap} (hrun : cssRealloc τ ptr w c.heap = .ok r h') :
    HoldsOrFails n r h' ↔ ReallocHonours c.heap ptr n := by
  obtain ⟨g, hi, hready⟩ := hr.sound hos
  have hne := hw.not_empty hn
  have hlow := hw.low
  obtain ⟨⟨g', ha⟩, hre⟩ := (cssRealloc_spec hi hready hτ hptr fun _ b s k _ _ hf => hf).of_ok hrun
  unfold ReallocHonours
  cases hre with
  | null _ hnull =>
    refine absurd ?_ hne
    rcases hnull with rfl | ⟨-, hempty⟩
    · exact ⟨by decide, by decide⟩
    · exact hempty
  | kept hptr' hr hle hu =>
    rw [holdsOrFails_iff (by omega) hu]
    omega
  | moved hmoved hr hu =>
    have hle := decodedSize_le_mallocUsable w
    rw [hw.decoded] at hle
    rw [holdsOrFails_iff hr hu]
    omega

/-- When `css_calloc(1, _)` honours a request of `n` bytes. -/
def CallocHonours (n : ℕ) : Prop := n < 2 ^ 32 ∨ n % 2 ^ 32 = 0

theorem calloc_honours_iff (hr : Config.Run .cleanShifts os c) (hos : os.failure = .excluded)
    {w : Word} {n : ℕ} (hw : Tagged w n) (hn : 1 ≤ n) {r : ℕ} {h' : Heap}
    (hrun : cssCalloc τ 1 w c.heap = .ok r h') :
    HoldsOrFails n r h' ↔ CallocHonours n := by
  obtain ⟨g, hi, hready⟩ := hr.sound hos
  have hlow := hw.low
  have hpost := (cssCalloc_spec hi hready).of_ok hrun
  have hone : (1 : Word) * getRealSize w = getRealSize w := BitVec.one_mul _
  rw [hone] at hpost
  unfold CallocHonours
  rcases hpost with ⟨hz, hnull, -⟩ | ⟨hpos, hnull, -, hu⟩
  · rw [hnull] at hlow
    exact ⟨fun _ => .inr hlow.symm, fun _ => .inl hz⟩
  · have hle : (getRealSize w).toNat ≤ regularUsable (getRealSize w) :=
      le_regularUsable (by omega)
    have hge : regularUsable (getRealSize w) ≤ 2 ^ 32 := regularUsable_le (by omega)
    have hne : (getRealSize w).toNat ≠ 0 := fun hz => hnull (BitVec.eq_of_toNat_eq hz)
    rw [holdsOrFails_iff hpos hu]
    omega

/-- When `css_memalign` honours a request of `n` bytes: the size it asks `mallocMemory` for is zero,
or the block it gets holds the request where it is shifted to. -/
def MemalignHonours (c : Config) (τ : ℕ) (alignment w : Word) (n : ℕ) : Prop :=
  let m := memalignSize alignment (getRealSize w)
  m = 0 ∨ ∃ u ∈ resultOf (mallocMemoryCSI (c.heap.tls τ).threadId m (getCSI w) (inLoop w)
    (c.heap.addCall ⟨τ, (c.heap.tls τ).threadId⟩)) (memalignUsable alignment m), n ≤ u

instance (c : Config) (τ : ℕ) (alignment w : Word) (n : ℕ) :
    Decidable (MemalignHonours c τ alignment w n) :=
  inferInstanceAs (Decidable (_ ∨ _))

theorem memalign_honours_iff (hr : Config.Run .cleanShifts os c) (hos : os.failure = .excluded)
    {w alignment : Word} {n r : ℕ} {h' : Heap}
    (hrun : cssMemalign τ alignment w c.heap = .ok r h') :
    HoldsOrFails n r h' ↔ MemalignHonours c τ alignment w n := by
  obtain ⟨g, hi, hready⟩ := hr.sound hos
  unfold MemalignHonours HoldsOrFails
  dsimp only
  rcases (cssMemalign_usable hi hready).of_ok hrun with ⟨hz, hnull⟩ | ⟨hpos, hnull, addr, h₁, hok, hu⟩
  · exact iff_of_true (.inl hz) (.inl hnull)
  · rw [hok, resultOf_ok, or_iff_right hpos.ne', or_iff_right hnull]
    exact exists_congr fun u => and_congr_left fun _ => hu u

/-- Requests of less than `2 ^ 32` bytes are honoured where no address is shifted, or cleanly. -/
theorem memalignHonours_of_lt {alignment w : Word} {n addr : ℕ} {h : Heap} (hw : Tagged w n)
    (hn : n < 2 ^ 32) (htest : alignment &&& (alignment - 1#64) = 0) (hne : alignment ≠ 0)
    (hok : mallocMemoryCSI (c.heap.tls τ).threadId (memalignSize alignment (getRealSize w)) (getCSI w)
      (inLoop w) (c.heap.addCall ⟨τ, (c.heap.tls τ).threadId⟩) = .ok addr h)
    (hshift : addr % alignment.toNat = 0 ∨
      CleanShift h.mem addr (shiftedAddress addr alignment)) :
    MemalignHonours c τ alignment w n := by
  have hlow := hw.low
  unfold MemalignHonours
  dsimp only
  rw [hok, resultOf_ok, memalignUsable, if_pos hshift]
  refine (memalignSize_cases htest hne (show (getRealSize w).toNat < 2 ^ 32 by omega)).imp_right ?_
  rintro ⟨hroom, hle⟩
  have := le_regularUsable hle
  exact ⟨_, rfl, by omega⟩

/-! ## The calls that do not return -/

/-- Ends of the process that no request is at fault for, in a thread with a manager: memory has run
out, or a shifted block that another thread released is taken for a double free. -/
def Fails (c : Config) (τ : ℕ) (x : Halt) : Prop :=
  RanOut c.heap (c.heap.tls τ).threadId x ∨ x = .doubleFree

/-- The usable bytes of the block leave its storage. -/
def Overruns (h : Heap) (ptr : ℕ) : Prop :=
  ∃ e, h.newest (ptr - headerSize) = some e ∧ ¬ e.range.Includes (usableRange h ptr)

/-- The call of a thread that has called before goes on in the same heap. -/
theorem ensureThread_settled {h₁ : Heap} (hinit : c.Initialized τ)
    (hensure : ensureThread τ c.heap = .ok () h₁) : c.heap = h₁ := by
  rw [ensureThread_initialized hinit] at hensure
  cases hensure
  rfl

section Halts

variable {w : Word} {x : Halt} {h' : Heap} (hr : Config.Run .cleanShifts os c)
  (hos : os.failure = .excluded) (hτ : τ ≠ 0) (hinit : c.Initialized τ)
include hr hos hτ hinit

theorem malloc_fails (hrun : cssMalloc τ w c.heap = .error x h') : Fails c τ x := by
  obtain ⟨g, hi, hready⟩ := hr.sound hos
  rcases (cssMalloc_spec hi hready hτ).of_error hrun with ⟨hne, -⟩ | ⟨h₁, hensure, hends⟩
  · exact absurd hinit hne
  · obtain rfl := ensureThread_settled hinit hensure
    exact hends.imp_right And.right

theorem realloc_fails {ptr : ℕ} (hptr : c.Owned ptr) (hrun : cssRealloc τ ptr w c.heap = .error x h') :
    Fails c τ x ∨ x = .segv ∧ Overruns c.heap ptr := by
  obtain ⟨g, hi, hready⟩ := hr.sound hos
  rcases hptr with rfl | ⟨B, hB, rfl⟩
  · rw [cssRealloc_null] at hrun
    exact .inl (malloc_fails hr hos hτ hinit hrun)
  obtain ⟨e, he, hf, -⟩ := hi.dispatched hB
  rcases (cssRealloc_traced hi hready hτ hB hf fun _ b s k _ _ hf => hf).of_error hrun with
    (⟨hne, -⟩ | ⟨-, h₁, hensure, hout⟩) | ⟨-, hdouble | ⟨hsegv, hover⟩⟩
  · exact absurd hinit hne
  · obtain rfl := ensureThread_settled hinit hensure
    exact .inl (.inl hout)
  · exact .inl (.inr hdouble)
  · exact .inr ⟨hsegv, e, he, hover⟩

theorem calloc_fails (hrun : cssCalloc τ 1 w c.heap = .error x h') : Fails c τ x := by
  obtain ⟨g, hi, hready⟩ := hr.sound hos
  obtain ⟨m, hm⟩ := hi.layout.thread τ hτ hinit
  rcases (cssCalloc_spec hi hready).of_error hrun with (hnone | hends) | ⟨-, hlarge⟩
  · rw [hm] at hnone
    cases hnone
  · exact hends.imp_right And.right
  · -- one member has at most 32 bits
    rw [show (1 : Word) * getRealSize w = getRealSize w from BitVec.one_mul _,
      toNat_getRealSize] at hlarge
    omega

theorem memalign_fails {alignment : Word} (hrun : cssMemalign τ alignment w c.heap = .error x h') :
    Fails c τ x ∨ x = .invalidAlignment ∨ x = .divisionByZero ∧ alignment = 0 := by
  obtain ⟨g, hi, hready⟩ := hr.sound hos
  obtain ⟨m, hm⟩ := hi.layout.thread τ hτ hinit
  rcases (cssMemalign_usable hi hready).of_error hrun with hrefused | hzero | hnone | hends
  · exact .inr (.inl hrefused)
  · exact .inr (.inr hzero)
  · rw [hm] at hnone
    cases hnone
  · exact .inl (hends.imp_right And.right)

end Halts

/-! ## All entry points -/

/-- **Entry points and tags**, for every word the emitted code passes for a request of `size`
bytes. `css_malloc` honours it. `css_realloc` does exactly when it has no block, has one that holds
the request already, or has one smaller than the low 32 bits of the request; `css_calloc` exactly
when the huge bit is clear or the low bits are zero; and `css_memalign` and its wrappers exactly
when the block for the low bits, as its header reads once it is shifted, happens to hold the
request. A call that does not return fails, but for an alignment of zero, and for a block that was
shifted, where the copy may leave its storage. -/
theorem entry_points_honour_tags (hos : os.failure = .excluded)
    (hr : Config.Run .cleanShifts os c) (hτ : τ ≠ 0) (size track : Word) (p : ℕ → Word)
    (len : Word) (loop : Bool) (hsize : 1 ≤ size.toNat) (hlt : size.toNat < 2 ^ 62) :
    let w := tagWord size track (cssHashFunction p len) loop
    (∀ r h', cssMalloc τ w c.heap = .ok r h' → HoldsOrFails size.toNat r h') ∧
    (∀ ptr r h', c.Owned ptr → cssRealloc τ ptr w c.heap = .ok r h' →
      (HoldsOrFails size.toNat r h' ↔ ReallocHonours c.heap ptr size.toNat)) ∧
    (∀ r h', cssCalloc τ 1 w c.heap = .ok r h' →
      (HoldsOrFails size.toNat r h' ↔ CallocHonours size.toNat)) ∧
    (∀ entry ∈ [cssMemalign, cssPosixMemalign, cssAlignedAlloc], ∀ alignment r h',
      entry τ alignment w c.heap = .ok r h' →
      (HoldsOrFails size.toNat r h' ↔ MemalignHonours c τ alignment w size.toNat)) ∧
    (c.Initialized τ → ∀ x h',
      (cssMalloc τ w c.heap = .error x h' → Fails c τ x) ∧
      (∀ ptr, c.Owned ptr → cssRealloc τ ptr w c.heap = .error x h' →
        Fails c τ x ∨ x = .segv ∧ Overruns c.heap ptr) ∧
      (cssCalloc τ 1 w c.heap = .error x h' → Fails c τ x) ∧
      ∀ entry ∈ [cssMemalign, cssPosixMemalign, cssAlignedAlloc], ∀ alignment,
        entry τ alignment w c.heap = .error x h' →
          Fails c τ x ∨ x = .invalidAlignment ∨ x = .divisionByZero ∧ alignment = 0) := by
  have hw := tagged_tagWord size track p len loop (by omega)
  have hsame : ∀ entry ∈ [cssMemalign, cssPosixMemalign, cssAlignedAlloc], entry = cssMemalign := by
    intro entry hentry
    simp only [List.mem_cons, List.not_mem_nil, or_false] at hentry
    rcases hentry with rfl | rfl | rfl <;> rfl
  refine ⟨fun r h' hrun => malloc_honours hr hos hτ hw hrun,
    fun ptr r h' hptr hrun => realloc_honours_iff hr hos hτ hw hsize hptr hrun,
    fun r h' hrun => calloc_honours_iff hr hos hw hsize hrun, ?_, fun hinit x h' => ?_⟩
  · intro entry hentry alignment r h' hrun
    rw [hsame entry hentry] at hrun
    exact memalign_honours_iff hr hos hrun
  · refine ⟨malloc_fails hr hos hτ hinit, fun ptr hptr => realloc_fails hr hos hτ hinit hptr,
      calloc_fails hr hos hτ hinit, fun entry hentry alignment hrun => ?_⟩
    rw [hsame entry hentry] at hrun
    exact memalign_fails hr hos hτ hinit hrun

/-- A reallocation to 40 bytes of a block of 32, and a request of 256 KiB for a multiple of 1 MiB:
the mapping for it is shifted, and no BIBOP lies where its length points to. -/
theorem entry_points_honour_tags_realloc :
    ∃ c r h' r₁ h₁, Config.Run .cleanShifts (bumpKernel 0 .excluded) c ∧
      cssRealloc 1 47319765008 (tagWord 40 0 (cssHashFunction (fun _ => 0) 0) false) c.heap =
        .ok r h' ∧ HoldsOrFails (40 : Word).toNat r h' ∧
      cssMemalign 1 0x100000 (tagWord 0x40000 0 (cssHashFunction (fun _ => 0) 0) false) c.heap =
        .ok r₁ h₁ ∧ ¬ HoldsOrFails (0x40000 : Word).toNat r₁ h₁ := by
  have hrun : ((Config.run .cleanShifts (bumpKernel 0 .excluded) [⟨1, .malloc 24⟩]).map fun c =>
      ((decide (c.Owned 47319765008), usableSize c.heap 47319765008, servedWith (cssRealloc 1
        47319765008 (tagWord 40 0 (cssHashFunction (fun _ => 0) 0) false) c.heap)),
        decide (MemalignHonours c 1 0x100000 (tagWord 0x40000 0 (cssHashFunction (fun _ => 0) 0) false)
          (0x40000 : Word).toNat), servedWith (cssMemalign 1 0x100000
          (tagWord 0x40000 0 (cssHashFunction (fun _ => 0) 0) false) c.heap))) =
      some ((true, 32, some (51614736400, 64)), false, some (103154712576, 0)) := by decide +kernel
  obtain ⟨c, hc, heq⟩ := Option.map_eq_some_iff.mp hrun
  obtain ⟨heq, heq'⟩ := Prod.mk.inj heq
  obtain ⟨howned, heq⟩ := Prod.mk.inj heq
  obtain ⟨husable, hserved⟩ := Prod.mk.inj heq
  obtain ⟨hnot, hshifted⟩ := Prod.mk.inj heq'
  obtain ⟨h', hok⟩ := servedWith_eq hserved
  obtain ⟨h₁, hok₁⟩ := servedWith_eq hshifted
  have hrealloc := (entry_points_honour_tags (τ := 1) rfl (.of_run hc) (by decide) 40 0 (fun _ => 0) 0
    false (by decide) (by decide)).2.1 _ _ h' (of_decide_eq_true howned) hok
  have hmemalign := (entry_points_honour_tags (τ := 1) rfl (.of_run hc) (by decide) 0x40000 0
    (fun _ => 0) 0 false (by decide) (by decide)).2.2.2.1 _ List.mem_cons_self _ _ h₁ hok₁
  refine ⟨c, _, h', _, h₁, .of_run hc, hok, hrealloc.mpr ?_, hok₁, fun hholds => ?_⟩
  · exact .inr (.inr (by rw [husable]; decide))
  · exact of_decide_eq_false hnot (hmemalign.mp hholds)

/-- A request of `2 ^ 32 + 16` bytes, for which `css_calloc` answers a block of 16. -/
theorem calloc_ignores_huge_bit :
    ∃ c r h', Config.Run .cleanShifts (bumpKernel 0 .excluded) c ∧ c.Initialized 1 ∧
      cssCalloc 1 1 (tagWord 0x100000010 0 0 false) c.heap = .ok r h' ∧
      ¬ HoldsOrFails (0x100000010 : Word).toNat r h' := by
  have hrun : ((Config.run .cleanShifts (bumpKernel 0 .excluded) [⟨1, .malloc 24⟩]).map fun c =>
      (decide (c.Initialized 1),
        servedWith (cssCalloc 1 1 (tagWord 0x100000010 0 0 false) c.heap))) =
      some (true, some (43024793616, 16)) := by decide +kernel
  obtain ⟨c, hc, heq⟩ := Option.map_eq_some_iff.mp hrun
  obtain ⟨hinit, hserved⟩ := Prod.mk.inj heq
  obtain ⟨h', hok, hnot⟩ := not_holdsOrFails (n := (0x100000010 : Word).toNat) hserved
    (by decide) (by decide)
  exact ⟨c, _, h', .of_run hc, of_decide_eq_true hinit, hok, hnot⟩

end Semalloc
