import Mathlib.Tactic
import Mathlib.Data.Nat.Size

/-!
# Constants and tagged sizes

The constants of `defines.hh`, and the word format the allocator decodes. A tagged size carries
the requested size in its low 32 bits, a 30-bit context id above it, a loop bit and a huge bit;
with the huge bit set, the other 63 bits are the size.

## Main definitions

* `Word`: `size_t`
* `getRealSize`, `getCSI`, `inLoop`, `isHugeWord`, `getHugeSize`: the decoded fields
* `log2`, `hash`: the size-class logarithm and the table hash

## Main results

* `toNat_getRealSize`, `toNat_getCSI`, `inLoop_iff`, `isHugeWord_iff`: the masks as arithmetic
-/

set_option autoImplicit false

namespace Semalloc

/-- `size_t` on the supported 64-bit targets. -/
abbrev Word := BitVec 64

def maxThread : ℕ := 128

def pageSizeBit : ℕ := 12
def pageSize : ℕ := 4096
def minBagSize : ℕ := 16

def globalBagN : ℕ := 14
def bagThreshold : ℕ := minBagSize <<< (globalBagN - 1)
def globalSingleBIBOPSize : ℕ := 2 ^ 32

def individualBIBOPMaxN : ℕ := 2 ^ 16
def individualDataPoolCapacity : ℕ := 16
def individualBIBOPSize : ℕ := 2 ^ 31

def metadataPoolSize : ℕ := 2 ^ 33

def individualDataPoolSize : ℕ := individualBIBOPSize * individualDataPoolCapacity
def individualDataPoolN : ℕ := 2 ^ 14

def lazyOccur : ℕ := 2

def memoryReleaseThreshold : ℕ := 8 * 4096

/-- `sizeof(ObjectHeader)`. -/
def headerSize : ℕ := 16

/-- The `0xFF` pattern `InitMemoryManager` fills the context table with. -/
def allOnes : ℕ := 2 ^ 64 - 1

/-- What a failed `mmap` returns: `(void*)-1`. -/
def mapFailed : ℕ := 2 ^ 64 - 1

def realSizeBitMask : Word := 0x00000000FFFFFFFF#64
def csiBitMask : Word := 0x3FFFFFFF00000000#64
def csiLoopBitMask : Word := 0x4000000000000000#64
def csiHugeSizeBitMask : Word := 0x8000000000000000#64
def csiHugeSizeSizeMask : Word := 0x7FFFFFFFFFFFFFFF#64

/-- `GET_REAL_SIZE(size)`. -/
def getRealSize (size : Word) : Word := size &&& realSizeBitMask

/-- `(size & CSI_BIT_MASK) >> 32`. -/
def getCSI (size : Word) : Word := (size &&& csiBitMask) >>> 32

/-- `size & CSI_LOOP_BIT_MASK`, read as a truth value. -/
def inLoop (size : Word) : Bool := size &&& csiLoopBitMask ≠ 0

/-- `size & CSI_HUGE_SIZE_BIT_MASK`, read as a truth value. -/
def isHugeWord (size : Word) : Bool := size &&& csiHugeSizeBitMask ≠ 0

/-- `size & CSI_HUGE_SIZE_SIZE_MASK`. -/
def getHugeWordSize (size : Word) : Word := size &&& csiHugeSizeSizeMask

/-- `LOG2(x)`: 64 less the leading zeros of `x - 1`, that is the bit length of `x - 1`. -/
def log2 (x : ℕ) : ℕ := (x - 1).size

/-- `hash`: the argument is truncated to 32 bits, the low 16 are kept. -/
def hash (input : Word) : ℕ := (input.setWidth 32 &&& 0xFFFF#32).toNat

theorem bagThreshold_eq : bagThreshold = 2 ^ 17 := rfl

theorem individualBIBOPSize_eq : individualBIBOPSize = 2 ^ 31 := rfl

theorem individualDataPoolSize_eq : individualDataPoolSize = 2 ^ 35 := rfl

theorem individualDataPoolSize_mod : individualDataPoolSize % 4096 = 0 := by
  norm_num [individualDataPoolSize_eq]

theorem individualBIBOPSize_le : individualBIBOPSize ≤ 2 ^ 62 := by
  norm_num [individualBIBOPSize_eq]

/-! ## The masks as arithmetic -/

theorem toNat_getRealSize (size : Word) : (getRealSize size).toNat = size.toNat % 2 ^ 32 := by
  rw [getRealSize, realSizeBitMask, BitVec.toNat_and]
  exact Nat.and_two_pow_sub_one_eq_mod size.toNat 32

theorem toNat_getHugeWordSize (size : Word) :
    (getHugeWordSize size).toNat = size.toNat % 2 ^ 63 := by
  rw [getHugeWordSize, csiHugeSizeSizeMask, BitVec.toNat_and]
  exact Nat.and_two_pow_sub_one_eq_mod size.toNat 63

theorem toNat_getCSI (size : Word) : (getCSI size).toNat = size.toNat / 2 ^ 32 % 2 ^ 30 := by
  have hshift : (getCSI size).toNat = (size.toNat &&& csiBitMask.toNat) >>> 32 := by
    rw [getCSI, BitVec.toNat_ushiftRight, BitVec.toNat_and]
  rw [hshift, Nat.shiftRight_and_distrib, Nat.shiftRight_eq_div_pow]
  exact Nat.and_two_pow_sub_one_eq_mod (size.toNat / 2 ^ 32) 30

/-- A one-bit mask tests that bit. -/
theorem and_twoPow_ne_zero_iff (w : Word) {i : ℕ} (hi : i < 64) :
    w &&& BitVec.twoPow 64 i ≠ 0 ↔ w.toNat / 2 ^ i % 2 = 1 := by
  rw [BitVec.and_twoPow, BitVec.getLsbD, Nat.testBit_eq_decide_div_mod_eq]
  by_cases h : w.toNat / 2 ^ i % 2 = 1
  · have hne : BitVec.twoPow 64 i ≠ 0 := fun hz => by
      have := congrArg BitVec.toNat hz
      rw [BitVec.toNat_twoPow_of_lt hi] at this
      exact absurd this (by positivity)
    simpa [h] using hne
  · simp [h]

theorem inLoop_iff (size : Word) : inLoop size = true ↔ size.toNat / 2 ^ 62 % 2 = 1 := by
  have hmask : csiLoopBitMask = BitVec.twoPow 64 62 := by decide
  rw [inLoop, decide_eq_true_iff, hmask, and_twoPow_ne_zero_iff size (by norm_num)]

theorem isHugeWord_iff (size : Word) : isHugeWord size = true ↔ 2 ^ 63 ≤ size.toNat := by
  have hmask : csiHugeSizeBitMask = BitVec.twoPow 64 63 := by decide
  rw [isHugeWord, decide_eq_true_iff, hmask, and_twoPow_ne_zero_iff size (by norm_num)]
  have := size.isLt
  omega

theorem hash_eq (input : Word) : hash input = input.toNat % 2 ^ 16 := by
  rw [hash, BitVec.toNat_and, BitVec.toNat_setWidth]
  have hmask := Nat.and_two_pow_sub_one_eq_mod (input.toNat % 2 ^ 32) 16
  norm_num at hmask ⊢
  rw [hmask]

end Semalloc
