import Semalloc.Backend.Requests

/-!
# The arithmetic of `css_memalign`

`css_memalign` lets through every power of two, and zero. It divides by the alignment, adds two of
it to the size, and keeps the distance it shifts an address by in 32 bits. All of this is safe up
to `2 ^ 32`. Above, a mapping may start so far from the next aligned address that the distance does
not fit; at `2 ^ 62` no mapping is large enough to be shifted in, and at `2 ^ 63` the size wraps
around to zero.

## Main definitions

* `MayReturn`: an address `mallocMemory` returns for a size in some run
* `ShiftSafe`: the shift of an address stays inside the block and fits the header
* `MemalignSafe`: no division by zero, no wrap-around, and safe shifts

## Main results

* `memalign_safe_iff`: the alignments for which the arithmetic is safe
* `memalign_shift_overflows`: an alignment of `2 ^ 33`
-/

set_option autoImplicit false

namespace Semalloc

open Effect MemoryManager

/-- An address `mallocMemory` returns for `newSize` in some run, under some kernel. -/
def MayReturn (newSize : Word) (addr : ℕ) : Prop :=
  ∃ P os c t size h', os.failure = .excluded ∧ Config.Run P os c ∧
    mallocMemoryCSI t newSize (getCSI size) (inLoop size) c.heap = .ok addr h'

/-- The address is aligned, or shifting it leaves room for a header before it and for `n` bytes
behind it, and the distance fits the 32 bits of `memalign_offset`. -/
def ShiftSafe (alignment newSize : Word) (n addr : ℕ) : Prop :=
  addr % alignment.toNat = 0 ∨
    addr + headerSize ≤ shiftedAddress addr alignment ∧
      shiftedAddress addr alignment + n ≤ addr + newSize.toNat ∧
      shiftedAddress addr alignment - addr < 2 ^ 32

/-- The arithmetic of `css_memalign` for an alignment and a decoded size. -/
structure MemalignSafe (alignment realSize : Word) : Prop where
  division : alignment ≠ 0
  noWrap : (memalignSize alignment realSize).toNat =
    (realSize.toNat + headerSize) / alignment.toNat * alignment.toNat + 2 * alignment.toNat
  shift : ∀ addr, addr % 16 = 0 → MayReturn (memalignSize alignment realSize) addr →
    ShiftSafe alignment (memalignSize alignment realSize) realSize.toNat addr

/-- An alignment of zero passes the test, and `css_memalign` divides by it. -/
theorem cssMemalign_zero (τ : ℕ) (size : Word) (h : Heap) :
    cssMemalign τ 0 size h = .error .divisionByZero h := by
  rfl

/-- Without a wrap-around the size leaves room for a header, the request and a shift. -/
theorem memalignSize_room {alignment realSize : Word} (hne : alignment ≠ 0)
    (heq : (memalignSize alignment realSize).toNat =
      (realSize.toNat + headerSize) / alignment.toNat * alignment.toNat + 2 * alignment.toNat) :
    realSize.toNat + headerSize + alignment.toNat < (memalignSize alignment realSize).toNat := by
  have hpos : 0 < alignment.toNat :=
    Nat.pos_of_ne_zero fun hz => hne (BitVec.eq_of_toNat_eq hz)
  have hmod := Nat.div_add_mod (realSize.toNat + headerSize) alignment.toNat
  have hrem := Nat.mod_lt (realSize.toNat + headerSize) hpos
  rw [Nat.mul_comm] at hmod
  omega

/-- The size wraps around exactly for the largest alignment. -/
theorem memalignSize_noWrap {k : ℕ} {alignment realSize : Word} (hk : alignment.toNat = 2 ^ k)
    (hreal : realSize.toNat < 2 ^ 32) (hlt : k < 63) :
    (memalignSize alignment realSize).toNat =
      (realSize.toNat + headerSize) / alignment.toNat * alignment.toNat + 2 * alignment.toNat := by
  have hle : 2 ^ k ≤ 2 ^ 62 := Nat.pow_le_pow_right (by norm_num) (by omega)
  have hdiv := Nat.div_mul_le_self (realSize.toNat + 16) alignment.toNat
  rw [memalignSize_eq, Nat.mod_eq_of_lt (show realSize.toNat + 16 < 2 ^ 64 by omega)]
  exact Nat.mod_eq_of_lt (by omega)

/-- What is returned for a size other than zero starts at a multiple of 16 and ends in user
space. -/
theorem MayReturn.bounds {newSize : Word} {addr : ℕ} (hm : MayReturn newSize addr)
    (hne : newSize ≠ 0) (hle : newSize.toNat ≤ 2 ^ 64 - 4096) :
    addr % 16 = 0 ∧ addr + newSize.toNat ≤ 2 ^ 63 ∧ 0 < addr := by
  obtain ⟨P, os, c, t, size, h', hos, hr, hrun⟩ := hm
  obtain ⟨g, hi, hready⟩ := hr.sound hos
  have hroom := le_regularUsable hle
  rcases (mallocMemoryCSI_spec hi hready (getCSI_ne_allOnes size) hroom).of_ok hrun with
    ⟨-, hz, -⟩ | ⟨-, ha⟩
  · exact absurd hz hne
  · obtain ⟨halign, htop⟩ := ha.bounds
    exact ⟨halign, by omega, ha.ptr_pos⟩

/-! ## Safe alignments -/

/-- Shifts by at most `2 ^ 32` are safe. -/
theorem shiftSafe_of_le {alignment realSize : Word} {k addr : ℕ}
    (htest : alignment &&& (alignment - 1#64) = 0) (hk : alignment.toNat = 2 ^ k) (hk32 : k ≤ 32)
    (hreal : realSize.toNat < 2 ^ 32)
    (hm : MayReturn (memalignSize alignment realSize) addr) :
    ShiftSafe alignment (memalignSize alignment realSize) realSize.toNat addr := by
  have hle : 2 ^ k ≤ 2 ^ 32 := Nat.pow_le_pow_right (by norm_num) hk32
  have hne : alignment ≠ 0 := by
    rintro rfl
    exact absurd hk.symm (by simp)
  have hsize := memalignSize_noWrap hk hreal (by omega)
  have hroom := memalignSize_room hne hsize
  have hdiv := Nat.div_mul_le_self (realSize.toNat + headerSize) alignment.toNat
  have hheader : headerSize = 16 := rfl
  have hnonzero : memalignSize alignment realSize ≠ 0 := by
    intro hz
    rw [hz] at hroom
    exact Nat.not_lt_zero _ hroom
  obtain ⟨haddr, htop, -⟩ := hm.bounds hnonzero (by omega)
  by_cases haligned : addr % alignment.toNat = 0
  · exact .inl haligned
  · obtain ⟨hlow, hhigh, -, -⟩ := shiftedAddress_bounds htest hne haddr haligned (by omega)
    exact .inr ⟨by omega, by omega, by omega⟩

/-- For an alignment of `2 ^ 62` there is nothing to shift: no mapping has the size. -/
theorem not_mayReturn_of_largest {alignment realSize : Word} {addr : ℕ}
    (hk : alignment.toNat = 2 ^ 62) (hreal : realSize.toNat < 2 ^ 32) :
    ¬ MayReturn (memalignSize alignment realSize) addr := by
  intro hm
  have hsize := memalignSize_noWrap hk hreal (by norm_num)
  have hheader : headerSize = 16 := rfl
  rw [hk, Nat.div_eq_of_lt (by omega)] at hsize
  have hnonzero : memalignSize alignment realSize ≠ 0 := by
    intro hz
    rw [hz] at hsize
    exact absurd hsize (by decide)
  obtain ⟨-, htop, hpos⟩ := hm.bounds hnonzero (by omega)
  omega

/-! ## Unsafe alignments -/

/-- Where the second mapping of a process may lie, for all sizes that exceed a slot. -/
theorem mayReturn_mapping {k : ℕ} (hlow : 33 ≤ k) (hhigh : k ≤ 61) :
    MayReturn (BitVec.ofNat 64 (2 ^ (k + 1))) 103154397184 := by
  have hrun : ((Config.run .cleanShifts (bumpKernel 0 .excluded) [⟨1, .malloc 24⟩]).map fun c =>
      (List.range' 33 29).all fun k => (servedWith (mallocMemoryCSI 0
        (BitVec.ofNat 64 (2 ^ (k + 1))) (getCSI 0) (inLoop 0) c.heap)).map Prod.fst =
          some 103154397184) = some true := by decide +kernel
  obtain ⟨c, hc, hall⟩ := Option.map_eq_some_iff.mp hrun
  have hk := List.all_eq_true.mp hall k (by simp only [List.mem_range'_1]; omega)
  obtain ⟨⟨p, u⟩, hserved, hp⟩ := Option.map_eq_some_iff.mp (of_decide_eq_true hk)
  obtain ⟨h', hok⟩ := servedWith_eq hserved
  obtain rfl : p = 103154397184 := hp
  exact ⟨_, _, c, 0, 0, h', rfl, .of_run hc, hok⟩

/-- Beyond `2 ^ 32` that mapping is shifted by more than the header can hold. -/
theorem not_shiftSafe_of_gt {alignment newSize : Word} {k n : ℕ} (hk : alignment.toNat = 2 ^ k)
    (hlow : 33 ≤ k) (hhigh : k ≤ 61) : ¬ ShiftSafe alignment newSize n 103154397184 := by
  have hall : (List.range' 33 29).all fun k => 103154397184 % 2 ^ k ≠ 0 ∧
      2 ^ 32 ≤ (103154397184 / 2 ^ k * 2 ^ k + 2 ^ k) % 2 ^ 64 - 103154397184 := by decide
  have hfar := of_decide_eq_true
    (List.all_eq_true.mp hall k (by simp only [List.mem_range'_1]; omega))
  rintro (haligned | ⟨-, -, hfits⟩)
  · rw [hk] at haligned
    exact hfar.1 haligned
  · rw [shiftedAddress, hk] at hfits
    omega

theorem memalignSize_of_wide {alignment realSize : Word} {k : ℕ} (hk : alignment.toNat = 2 ^ k)
    (hreal : realSize.toNat < 2 ^ 32) (hlow : 33 ≤ k) (hhigh : k ≤ 61) :
    memalignSize alignment realSize = BitVec.ofNat 64 (2 ^ (k + 1)) := by
  have hle : 2 ^ 33 ≤ 2 ^ k := Nat.pow_le_pow_right (by norm_num) hlow
  have hge : 2 ^ k ≤ 2 ^ 61 := Nat.pow_le_pow_right (by norm_num) hhigh
  have hsize := memalignSize_noWrap hk hreal (by omega)
  have hheader : headerSize = 16 := rfl
  rw [hk, Nat.div_eq_of_lt (by omega)] at hsize
  apply BitVec.eq_of_toNat_eq
  rw [hsize, BitVec.toNat_ofNat, Nat.mod_eq_of_lt (by rw [pow_succ]; omega), pow_succ]
  omega

/-! ## All alignments -/

/-- **The arithmetic of `css_memalign`** is safe, for an alignment that passes the test, exactly
when the alignment is a power of two up to `2 ^ 32`, or `2 ^ 62`. -/
theorem memalign_safe_iff (alignment realSize : Word)
    (htest : alignment &&& (alignment - 1#64) = 0) (hreal : realSize.toNat < 2 ^ 32) :
    MemalignSafe alignment realSize ↔
      (∃ k ≤ 32, alignment.toNat = 2 ^ k) ∨ alignment.toNat = 2 ^ 62 := by
  constructor
  · rintro ⟨hne, hsize, hshift⟩
    obtain ⟨k, hk⟩ := isPowerOfTwo_of_test htest hne
    have hlt := alignment.isLt
    rw [hk] at hlt
    have hk64 : k < 64 := (Nat.pow_lt_pow_iff_right (by norm_num)).mp hlt
    rcases Nat.lt_or_ge 32 k with hgt | hle
    · rcases Nat.lt_or_ge 61 k with hlarge | hmid
      · -- `2 ^ 62`, since twice `2 ^ 63` does not fit
        have hk62 : k ≠ 63 := by
          rintro rfl
          have := (memalignSize alignment realSize).isLt
          omega
        obtain rfl : k = 62 := by omega
        exact .inr hk
      · have hfar := hshift 103154397184 (by decide)
        rw [memalignSize_of_wide hk hreal hgt hmid] at hfar
        exact absurd (hfar (mayReturn_mapping hgt hmid)) (not_shiftSafe_of_gt hk hgt hmid)
    · exact .inl ⟨k, hle, hk⟩
  · intro halign
    have hne : alignment ≠ 0 := by
      rintro rfl
      rcases halign with ⟨k, -, hk⟩ | hk
      · exact absurd hk.symm (by simp)
      · exact absurd hk (by decide)
    rcases halign with ⟨k, hle, hk⟩ | hk
    · exact ⟨hne, memalignSize_noWrap hk hreal (by omega),
        fun addr _ hm => shiftSafe_of_le htest hk hle hreal hm⟩
    · exact ⟨hne, memalignSize_noWrap hk hreal (by norm_num),
        fun addr _ hm => absurd hm (not_mayReturn_of_largest hk hreal)⟩

/-- An alignment of 64 for 24 bytes. -/
theorem memalign_safe_iff_small : MemalignSafe 64 24 :=
  (memalign_safe_iff 64 24 (by decide) (by decide)).mpr (.inl ⟨6, by norm_num, by decide⟩)

/-- An alignment of `2 ^ 33` for 24 bytes, whose mapping is shifted by more than `2 ^ 32`; and an
alignment of zero, which passes the test as well. -/
theorem memalign_shift_overflows :
    (0x200000000 : Word) &&& (0x200000000 - 1#64) = 0 ∧ ¬ MemalignSafe 0x200000000 24 ∧
      (0 : Word) &&& (0 - 1#64) = 0 ∧ ¬ MemalignSafe 0 24 := by
  refine ⟨by decide, fun hsafe => ?_, by decide, fun hsafe => hsafe.division rfl⟩
  have hreturn : MayReturn (memalignSize 0x200000000 24) 103154397184 :=
    mayReturn_mapping (k := 33) le_rfl (by norm_num)
  exact not_shiftSafe_of_gt (k := 33) (by decide) le_rfl (by norm_num)
    (hsafe.shift 103154397184 (by decide) hreturn)

end Semalloc
