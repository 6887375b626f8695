import Semalloc.Backend.RunSpec

/-!
# Plain requests

`semalloc` takes the place of the allocator of the whole process, so that code which was not
instrumented passes plain sizes to `css_malloc` and plain operands to `css_calloc`. Both read the
low 32 bits of a size, and `css_calloc` multiplies in 64 bits.

## Main definitions

* `HoldsOrFails`: a call returned null, or a block that holds the request
* `ClearedOrFails`: a call returned null, or a block that holds the request and starts with zeros

## Main results

* `malloc_plain_iff`: the plain sizes `css_malloc` honours
* `calloc_product_iff`: the operands `css_calloc` honours
-/

set_option autoImplicit false

namespace Semalloc

open ByteMemory Effect MemoryManager

variable {P : Promise} {c : Config} {os : Kernel} {τ : ℕ}

/-- The call returned null, or a block whose usable size is at least `n`. -/
def HoldsOrFails (n r : ℕ) (h : Heap) : Prop :=
  r = 0 ∨ ∃ u, cssMallocUsableSize r h = .ok u h ∧ n ≤ u

theorem holdsOrFails_iff {n r u : ℕ} {h : Heap} (hr : 0 < r)
    (hu : cssMallocUsableSize r h = .ok u h) : HoldsOrFails n r h ↔ n ≤ u := by
  constructor
  · rintro (hz | ⟨u', hu', hle⟩)
    · omega
    · rw [hu] at hu'
      cases hu'
      exact hle
  · exact fun hle => .inr ⟨u, hu, hle⟩

/-- The call returned null, or a block whose usable size is at least `n` and whose first `n` bytes
are zero. -/
def ClearedOrFails (n r : ℕ) (h : Heap) : Prop :=
  r = 0 ∨ (∃ u, cssMallocUsableSize r h = .ok u h ∧ n ≤ u) ∧ ∀ i < n, h.mem (r + i) = 0

theorem ClearedOrFails.holds {n r : ℕ} {h : Heap} (hc : ClearedOrFails n r h) :
    HoldsOrFails n r h := hc.imp_right And.left

theorem regularUsable_le {realSize : Word} (hlt : realSize.toNat < 2 ^ 32) :
    regularUsable realSize ≤ 2 ^ 32 := by
  unfold regularUsable
  split
  · rename_i hsmall
    have hk := computeSizeIndex_lt hsmall
    have hpow := Nat.pow_le_pow_right (n := 2) (by norm_num) (Nat.le_of_lt_succ hk)
    have hshift := slotSize_sub (BIBOP.computeSizeIndex realSize.toNat)
    have hle := slotSize_le hk
    simp only [headerSize] at hshift
    omega
  · rw [hugeRound_eq]
    omega

/-- No usable size reaches `2 ^ 64`. -/
theorem regularUsable_lt (realSize : Word) : regularUsable realSize < 2 ^ 64 := by
  unfold regularUsable
  split
  · rename_i hsmall
    have hk := computeSizeIndex_lt hsmall
    have hshift := slotSize_sub (BIBOP.computeSizeIndex realSize.toNat)
    have hle := slotSize_le hk
    simp only [headerSize] at hshift
    omega
  · rw [hugeRound_eq]
    omega

/-- The pointer a call returned with the usable size it has then. -/
def servedWith (r : EStateM.Result Halt Heap ℕ) : Option (ℕ × ℕ) :=
  match r with
  | .ok p h => some (p, usableSize h p)
  | .error _ _ => none

theorem not_holdsOrFails {run : EStateM.Result Halt Heap ℕ} {r u n : ℕ}
    (h : servedWith run = some (r, u)) (hr : r ≠ 0) (hu : u < n) :
    ∃ h', run = .ok r h' ∧ ¬ HoldsOrFails n r h' := by
  cases run with
  | ok p h' =>
    obtain ⟨rfl, rfl⟩ := Prod.mk.inj (Option.some.inj h)
    refine ⟨h', rfl, ?_⟩
    rintro (hz | ⟨u, hu', hle⟩)
    · exact hr hz
    · rw [usableSize, hu'] at hu
      simp only at hu
      omega
  | error e h' => cases h

theorem servedWith_eq {run : EStateM.Result Halt Heap ℕ} {r u : ℕ}
    (h : servedWith run = some (r, u)) : ∃ h', run = .ok r h' := by
  cases run with
  | ok p h' =>
    obtain ⟨rfl, -⟩ := Prod.mk.inj (Option.some.inj h)
    exact ⟨h', rfl⟩
  | error e h' => cases h

/-- Why a call ended the process, if it did. -/
def haltOf {α : Type} (run : EStateM.Result Halt Heap α) : Option Halt :=
  match run with
  | .ok _ _ => none
  | .error e _ => some e

theorem haltOf_eq {α : Type} {run : EStateM.Result Halt Heap α} {x : Halt}
    (h : haltOf run = some x) : ∃ h', run = .error x h' := by
  cases run with
  | ok _ _ => cases h
  | error e h' =>
    obtain rfl := Option.some.inj h
    exact ⟨h', rfl⟩

/-- What is computed from what a call returned, if it did. -/
def resultOf {α β : Type} (run : EStateM.Result Halt Heap α) (f : α → Heap → Option β) : Option β :=
  match run with
  | .ok a h => f a h
  | .error _ _ => none

theorem resultOf_ok {α β : Type} {a : α} {h : Heap} {f : α → Heap → Option β} :
    resultOf (.ok a h) f = f a h := rfl

/-- What is asked of a call that returned. -/
theorem exists_ok_iff {r : ℕ} {h : Heap} {Q : ℕ → Heap → Prop} :
    (∃ p h', (.ok r h : EStateM.Result Halt Heap ℕ) = .ok p h' ∧ Q p h') ↔ Q r h := by
  constructor
  · rintro ⟨p, h', hok, hq⟩
    cases hok
    exact hq
  · exact fun hq => ⟨r, h, rfl, hq⟩

/-! ## Sizes -/

/-- A size below `2 ^ 62` decodes to its low 32 bits. -/
theorem decodedSize_of_plain {n : Word} (hlt : n.toNat < 2 ^ 62) :
    isHugeWord n = false ∧ decodedSize n = n.toNat % 2 ^ 32 := by
  have hhuge : isHugeWord n = false := by
    rw [Bool.eq_false_iff, Ne, isHugeWord_iff]
    omega
  exact ⟨hhuge, by rw [decodedSize, hhuge, if_neg Bool.false_ne_true, toNat_getRealSize]⟩

/-- **Plain sizes**: below `2 ^ 62`, `css_malloc` fails or returns a block that holds the request
exactly for the sizes below `2 ^ 32`, and for the multiples of `2 ^ 32`, which it answers with
null. -/
theorem malloc_plain_iff (hos : os.failure = .excluded) (hr : Config.Run P os c) (hτ : τ ≠ 0)
    (n : Word) (hn : 1 ≤ n.toNat) (hlt : n.toNat < 2 ^ 62) (r : ℕ) (h' : Heap)
    (hrun : cssMalloc τ n c.heap = .ok r h') :
    HoldsOrFails n.toNat r h' ↔ n.toNat < 2 ^ 32 ∨ n.toNat % 2 ^ 32 = 0 := by
  obtain ⟨g, hi, hready⟩ := hr.sound hos
  obtain ⟨hhuge, hdecoded⟩ := decodedSize_of_plain hlt
  have hlow : (getRealSize n).toNat = n.toNat % 2 ^ 32 := toNat_getRealSize n
  rcases (cssMalloc_spec hi hready hτ).of_ok hrun with ⟨hz, ⟨-, hempty⟩, -⟩ | ⟨hpos, hempty, -, hu⟩
  · -- the low bits are zero
    rw [hempty] at hlow
    exact ⟨fun _ => .inr hlow.symm, fun _ => .inl hz⟩
  · have hle := decodedSize_le_mallocUsable n
    rw [hdecoded] at hle
    have hge : mallocUsable n ≤ 2 ^ 32 := by
      unfold mallocUsable
      rw [hhuge]
      exact regularUsable_le (by omega)
    have hne : n.toNat % 2 ^ 32 ≠ 0 := fun hz =>
      hempty ⟨hhuge, BitVec.eq_of_toNat_eq (hlow.trans hz)⟩
    rw [holdsOrFails_iff hpos hu]
    omega

/-- The first request of a process, for 24 bytes. -/
theorem malloc_plain_iff_first :
    ∃ c r h', Config.Run .cleanShifts (bumpKernel 0 .excluded) c ∧
      cssMalloc 1 24 c.heap = .ok r h' ∧ HoldsOrFails (24 : Word).toNat r h' := by
  have hserved : servedWith (cssMalloc 1 24 (Config.initial (bumpKernel 0 .excluded)).heap) =
      some (47319765008, 32) := by decide +kernel
  obtain ⟨h', hok⟩ := servedWith_eq hserved
  have hr : Config.Run .cleanShifts (bumpKernel 0 .excluded) (Config.initial _) := .start rfl
  refine ⟨_, _, h', hr, hok, (malloc_plain_iff rfl hr (by decide) 24 (by decide) (by decide) _ h'
    hok).mpr (.inl (by decide))⟩

/-- A plain request of `2 ^ 32 + 16` bytes, answered with a block of 16. -/
theorem malloc_truncates_plain :
    ∃ c n r h', Config.Run .cleanShifts (bumpKernel 0 .excluded) c ∧ 1 ≤ n.toNat ∧
      n.toNat < 2 ^ 62 ∧ cssMalloc 1 n c.heap = .ok r h' ∧ ¬ HoldsOrFails n.toNat r h' := by
  have hserved : servedWith (cssMalloc 1 0x100000010
      (Config.initial (bumpKernel 0 .excluded)).heap) = some (43024793616, 16) := by decide +kernel
  obtain ⟨h', hok, hnot⟩ := not_holdsOrFails (n := (0x100000010 : Word).toNat) hserved
    (by decide) (by decide)
  exact ⟨_, _, _, h', .start rfl, by decide, by decide, hok, hnot⟩

/-! ## Products -/

/-- The bytes `css_calloc` was asked for are zero when it returns. -/
theorem cssCalloc_cleared (nmemb size : Word) (h : Heap) :
    Spec (cssCalloc τ nmemb size) h
      (fun r h' => ∀ i < (nmemb * getRealSize size).toNat, h'.mem (r + i) = 0)
      fun _ => True := by
  unfold cssCalloc
  dsimp only
  refine Spec.seq Spec.trivial fun threadId h₁ _ => ?_
  refine Spec.seq Spec.trivial fun r h₂ _ => ?_
  -- the last step is the `memset`
  refine Spec.bind (poke_spec (.inr trivial) fun _ => Spec.pure fun i hi => ?_)
  exact fill_of_inside (Nat.le_add_right r i) (by omega)

/-- A size for which the rounding wraps around is larger than what it is rounded to. -/
theorem regularUsable_of_wrap {realSize : Word} (hlarge : 2 ^ 64 - 4096 < realSize.toNat) :
    regularUsable realSize < realSize.toNat := by
  have hthreshold : ¬ realSize.toNat < bagThreshold := by
    rw [bagThreshold_eq]
    omega
  rw [regularUsable, if_neg hthreshold, hugeRound_eq]
  omega

/-- **Products**: a call of `css_calloc` that does not run out of memory returns null or a cleared
block that holds the product exactly when the product is at most `2 ^ 64 - 4096`, or wraps around to
zero, which is answered with null. Otherwise the block is too small, or `memset` leaves it. -/
theorem calloc_product_iff (hos : os.failure = .excluded) (hr : Config.Run P os c)
    (hτ : τ ≠ 0) (htid : c.Initialized τ) (nmemb size : Word)
    (hends : ∀ x h', cssCalloc τ nmemb size c.heap = .error x h' →
      ¬ (RanOut c.heap (c.heap.tls τ).threadId x ∨ P.shifted ∧ x = .doubleFree)) :
    let n := nmemb.toNat * (getRealSize size).toNat
    (∃ r h', cssCalloc τ nmemb size c.heap = .ok r h' ∧ ClearedOrFails n r h') ↔
      n ≤ 2 ^ 64 - 4096 ∨ n % 2 ^ 64 = 0 := by
  intro n
  obtain ⟨g, hi, hready⟩ := hr.sound hos
  have hwrap : (nmemb * getRealSize size).toNat = n % 2 ^ 64 := BitVec.toNat_mul _ _
  cases hrun : cssCalloc τ nmemb size c.heap with
  | error x h' =>
    -- only `memset` can have ended the process
    obtain ⟨m, hm⟩ := hi.layout.thread τ hτ htid
    have hcrash : 2 ^ 64 - 4096 < n % 2 ^ 64 := by
      rcases (cssCalloc_spec hi hready).of_error hrun with (hnone | hout) | ⟨-, hlarge⟩
      · rw [hm] at hnone
        cases hnone
      · exact absurd hout (hends x h' hrun)
      · rwa [hwrap] at hlarge
    refine iff_of_false ?_ (by omega)
    rintro ⟨r, h₁, hok, -⟩
    cases hok
  | ok r h' =>
    have hcleared := (cssCalloc_cleared nmemb size c.heap).of_ok hrun
    rw [hwrap] at hcleared
    rw [exists_ok_iff]
    rcases (cssCalloc_spec hi hready).of_ok hrun with ⟨hz, hnull, -⟩ | ⟨hpos, hnull, ⟨g', ha⟩, hu⟩
    · rw [hnull] at hwrap
      exact iff_of_true (.inl hz) (.inr hwrap.symm)
    · have hne : n % 2 ^ 64 ≠ 0 := fun hz => hnull (BitVec.eq_of_toNat_eq (hwrap.trans hz))
      obtain ⟨hu', hcount⟩ := (ha.inv.contents.live _ List.mem_cons_self).usable ha.inv.layout
      rw [hu] at hu'
      injection hu' with hvalue
      simp only [← hvalue, hwrap] at hcount
      -- the rounding did not wrap around
      have hle : n % 2 ^ 64 ≤ 2 ^ 64 - 4096 := by
        by_contra hlarge
        have := regularUsable_of_wrap (hwrap.symm ▸ not_le.mp hlarge)
        omega
      have hlt := regularUsable_lt (nmemb * getRealSize size)
      constructor
      · intro hc
        have hn := (holdsOrFails_iff hpos hu).mp hc.holds
        exact .inl (by omega)
      · intro hfits
        have hn : n < 2 ^ 64 := by omega
        rw [Nat.mod_eq_of_lt hn] at hcleared hcount
        exact .inr ⟨⟨_, hu, hcount⟩, hcleared⟩

/-- Two members of 12 bytes, in a slot the clients wrote to before. -/
theorem calloc_product_iff_recycled :
    ∃ c r h', Config.Run .cleanShifts (bumpKernel 0 .excluded) c ∧ c.Initialized 1 ∧
      c.heap.mem 47319765011 ≠ 0 ∧ cssCalloc 1 2 12 c.heap = .ok r h' ∧ r = 47319765008 ∧
      ClearedOrFails ((2 : Word).toNat * (getRealSize 12).toNat) r h' := by
  have hrun : ((Config.run .cleanShifts (bumpKernel 0 .excluded) [⟨1, .malloc 24⟩,
      ⟨1, .write 47319765008 3 0xFF⟩, ⟨1, .free 47319765008⟩]).map fun c =>
      (decide (c.Initialized 1), c.heap.mem 47319765011,
        servedWith (cssCalloc 1 2 12 c.heap))) =
      some (true, 0xFF#8, some (47319765008, 32)) := by decide +kernel
  obtain ⟨c, hc, heq⟩ := Option.map_eq_some_iff.mp hrun
  obtain ⟨hinit, heq⟩ := Prod.mk.inj heq
  obtain ⟨hdirty, hserved⟩ := Prod.mk.inj heq
  obtain ⟨h', hok⟩ := servedWith_eq hserved
  have hinit : c.Initialized 1 := of_decide_eq_true hinit
  obtain ⟨r, h₁, hok', hcleared⟩ := (calloc_product_iff rfl (.of_run hc) (by decide) hinit 2 12
    fun x t herror => by rw [hok] at herror; cases herror).mpr (.inl (by decide))
  obtain ⟨rfl, rfl⟩ := EStateM.Result.ok.inj (hok.symm.trans hok')
  exact ⟨c, _, _, .of_run hc, hinit, by rw [hdirty]; decide, hok, rfl, hcleared⟩

/-- `2 ^ 60 + 1` members of 16 bytes, answered with a block of 16. -/
theorem calloc_product_wraps :
    ∃ c nmemb size r h', Config.Run .cleanShifts (bumpKernel 0 .excluded) c ∧ c.Initialized 1 ∧
      isHugeWord size = false ∧ cssCalloc 1 nmemb size c.heap = .ok r h' ∧
      ¬ ClearedOrFails (nmemb.toNat * (getRealSize size).toNat) r h' := by
  have hrun : ((Config.run .cleanShifts (bumpKernel 0 .excluded) [⟨1, .malloc 24⟩]).map fun c =>
      (decide (c.Initialized 1), servedWith (cssCalloc 1 0x1000000000000001 16 c.heap))) =
      some (true, some (43024793616, 16)) := by decide +kernel
  obtain ⟨c, hc, heq⟩ := Option.map_eq_some_iff.mp hrun
  obtain ⟨hinit, hserved⟩ := Prod.mk.inj heq
  obtain ⟨h', hok, hnot⟩ := not_holdsOrFails
    (n := (0x1000000000000001 : Word).toNat * (getRealSize 16).toNat) hserved
    (by decide) (by decide)
  exact ⟨c, _, _, _, h', .of_run hc, of_decide_eq_true hinit, by decide, hok,
    fun hcleared => hnot hcleared.holds⟩

end Semalloc
