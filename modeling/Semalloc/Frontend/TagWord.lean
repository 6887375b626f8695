import Semalloc.Backend.MemoryManager

/-!
# The tag of a size

`UpdateHMFInterface` puts code before each heap call that replaces its size. A size of at most 32
bits gets the recursion hash and the low 16 bits of the call-site track as its context, and the
loop bit; a larger one gets the huge bit only. `mallocMemory` takes the word apart again.

## Main definitions

* `cssHashFunction`: the recursion hash
* `tagWord`: the word the emitted code computes

## Main results

* `toNat_tagWord`: the word as a sum of its fields
* `cssHashFunction_eq_iff`: what two equal hashes have in common
* `mallocMemory_tagWord`: what the allocator makes of it
-/

set_option autoImplicit false

namespace Semalloc

open MemoryManager

def maxSize : Word := 0x00000000FFFFFFFF#64
def csiOffset : ℕ := 32
def csiMask : Word := 0x0000FFFF00000000#64
def loopBit : Word := 0x4000000000000000#64
def hugeBit : Word := 0x8000000000000000#64
def csiRHBitmask : Word := 0x3FFF000000000000#64
def csiRHLength : ℕ := 14

/-- The loop of `CSSHashFunction`: two bits of each of the `k` words from `p i`. -/
def hashFrames (p : ℕ → Word) (h : Word) (i : ℕ) : ℕ → Word
  | 0 => h
  | k + 1 => hashFrames p ((h <<< 2) + ((p i >>> 6) &&& 0x3#64)) (i + 1) k

/-- `CSSHashFunction` on the first `n` words of an array. -/
def cssHashFunction (p : ℕ → Word) (n : Word) : Word :=
  let len := if n.toNat > csiRHLength / 2 then csiRHLength / 2 else n.toNat
  (hashFrames p 0 0 len <<< 48) &&& csiRHBitmask

/-- The `then` block: hash, masked track and size added together. -/
def tagFields (size track hash : Word) : Word :=
  let maskCSTV := (track <<< csiOffset) &&& csiMask
  let addCSIInst := hash + maskCSTV
  addCSIInst + size

/-- The word that reaches the heap function, for either outcome of the branch on the loop
layers. -/
def tagWord (size track hash : Word) (loop : Bool) : Word :=
  if size > maxSize then size ||| hugeBit
  else if loop then tagFields size track hash ||| loopBit
  else tagFields size track hash

/-! ## The fields as numbers -/

theorem toNat_maskedTrack (track : Word) :
    ((track <<< csiOffset) &&& csiMask).toNat = track.toNat % 2 ^ 16 * 2 ^ 32 := by
  have hmask : csiMask = 0xFFFF#64 <<< 32 := by decide
  have hlow : (track &&& 0xFFFF#64).toNat = track.toNat % 2 ^ 16 := by
    rw [BitVec.toNat_and]
    exact Nat.and_two_pow_sub_one_eq_mod track.toNat 16
  rw [hmask, csiOffset, ← BitVec.shiftLeft_and_distrib, BitVec.toNat_shiftLeft, hlow,
    Nat.shiftLeft_eq, Nat.mod_eq_of_lt]
  omega

/-- The hash as a number: the low 14 bits of what the loop computes, at bit 48. -/
theorem toNat_cssHashFunction_eq (p : ℕ → Word) (n : Word) : (cssHashFunction p n).toNat =
    (hashFrames p 0 0 (if n.toNat > csiRHLength / 2 then csiRHLength / 2 else n.toNat)).toNat %
      2 ^ 14 * 2 ^ 48 := by
  have hmask : csiRHBitmask = 0x3FFF#64 <<< 48 := by decide
  unfold cssHashFunction
  dsimp only
  generalize hashFrames p 0 0 _ = h
  have hlow : (h &&& 0x3FFF#64).toNat = h.toNat % 2 ^ 14 := by
    rw [BitVec.toNat_and]
    exact Nat.and_two_pow_sub_one_eq_mod h.toNat 14
  rw [hmask, ← BitVec.shiftLeft_and_distrib, BitVec.toNat_shiftLeft, hlow,
    Nat.shiftLeft_eq, Nat.mod_eq_of_lt]
  omega

/-- The hash occupies the bits from 48 to 61. -/
theorem toNat_cssHashFunction (p : ℕ → Word) (n : Word) :
    (cssHashFunction p n).toNat % 2 ^ 48 = 0 ∧ (cssHashFunction p n).toNat < 2 ^ 62 := by
  rw [toNat_cssHashFunction_eq]
  omega

/-- Two bits of a word. -/
def frameBits (w : Word) : Word := (w >>> 6) &&& 0x3#64

theorem toNat_frameBits_lt (w : Word) : (frameBits w).toNat < 4 := by
  unfold frameBits
  rw [BitVec.toNat_and]
  have hle : (w >>> 6).toNat &&& (0x3#64).toNat ≤ (0x3#64).toNat := Nat.and_le_right
  have hthree : (0x3#64).toNat = 3 := rfl
  omega

/-- One round of the hash appends a digit. -/
theorem toNat_hashRound {h : Word} (w : Word) (hh : h.toNat < 2 ^ 60) :
    ((h <<< 2) + frameBits w).toNat = 4 * h.toNat + (frameBits w).toNat := by
  have hbits := toNat_frameBits_lt w
  rw [BitVec.toNat_add, BitVec.toNat_shiftLeft, Nat.shiftLeft_eq, Nat.mod_eq_of_lt (a := _ * _),
    Nat.mod_eq_of_lt] <;> omega

theorem hashFrames_lt {p : ℕ → Word} {h : Word} {i m k : ℕ} (hh : h.toNat < 4 ^ m)
    (hmk : m + k ≤ 30) : (hashFrames p h i k).toNat < 4 ^ (m + k) := by
  induction k generalizing h i m with
  | zero => exact hh
  | succ k ih =>
    have hpow : 4 ^ m ≤ 4 ^ 30 := Nat.pow_le_pow_right (by decide) (by omega)
    have hround := toNat_hashRound (p i) (h := h) (by omega)
    have hbits := toNat_frameBits_lt (p i)
    have hnext : ((h <<< 2) + frameBits (p i)).toNat < 4 ^ (m + 1) := by
      rw [hround, Nat.pow_succ]
      omega
    have hrest := ih (i := i + 1) hnext (by omega)
    rw [Nat.add_right_comm] at hrest
    exact hrest

/-- **The digits can be read back**: two runs of the loop agree when they start alike and read the
same two bits everywhere. -/
theorem hashFrames_inj {p q : ℕ → Word} {h h' : Word} {i m k : ℕ} (hh : h.toNat < 4 ^ m)
    (hh' : h'.toNat < 4 ^ m) (hmk : m + k ≤ 30) :
    hashFrames p h i k = hashFrames q h' i k ↔
      h = h' ∧ ∀ j < k, frameBits (p (i + j)) = frameBits (q (i + j)) := by
  induction k generalizing h h' i m with
  | zero => simp [hashFrames]
  | succ k ih =>
    have hpow : 4 ^ m ≤ 4 ^ 30 := Nat.pow_le_pow_right (by decide) (by omega)
    have hround := toNat_hashRound (p i) (h := h) (by omega)
    have hround' := toNat_hashRound (q i) (h := h') (by omega)
    have hbits := toNat_frameBits_lt (p i)
    have hbits' := toNat_frameBits_lt (q i)
    have hnext : ((h <<< 2) + frameBits (p i)).toNat < 4 ^ (m + 1) := by
      rw [hround, Nat.pow_succ]
      omega
    have hnext' : ((h' <<< 2) + frameBits (q i)).toNat < 4 ^ (m + 1) := by
      rw [hround', Nat.pow_succ]
      omega
    change hashFrames p ((h <<< 2) + frameBits (p i)) (i + 1) k =
      hashFrames q ((h' <<< 2) + frameBits (q i)) (i + 1) k ↔ _
    rw [ih hnext hnext' (by omega)]
    have hdigit : (h <<< 2) + frameBits (p i) = (h' <<< 2) + frameBits (q i) ↔
        h = h' ∧ frameBits (p i) = frameBits (q i) := by
      constructor
      · intro heq
        have hnat := congrArg BitVec.toNat heq
        rw [hround, hround'] at hnat
        exact ⟨BitVec.eq_of_toNat_eq (by omega), BitVec.eq_of_toNat_eq (by omega)⟩
      · rintro ⟨rfl, hbit⟩
        rw [hbit]
    rw [hdigit, and_assoc]
    refine and_congr_right fun _ => ?_
    constructor
    · rintro ⟨hfirst, hrest⟩ j hj
      cases j with
      | zero => exact hfirst
      | succ j =>
        have hjth := hrest j (by omega)
        rwa [Nat.add_right_comm] at hjth
    · intro hall
      refine ⟨hall 0 (by omega), fun j hj => ?_⟩
      have hjth := hall (j + 1) (by omega)
      rwa [← Nat.add_assoc, Nat.add_right_comm] at hjth

/-- **Equal hashes** of `n` words read the same two bits of the first seven of them. -/
theorem cssHashFunction_eq_iff {p q : ℕ → Word} {n : Word} :
    cssHashFunction p n = cssHashFunction q n ↔
      ∀ i < min n.toNat 7, frameBits (p i) = frameBits (q i) := by
  have hlen : (if n.toNat > csiRHLength / 2 then csiRHLength / 2 else n.toNat) = min n.toNat 7 := by
    have hseven : csiRHLength / 2 = 7 := rfl
    rw [hseven]
    split <;> omega
  have hlt : ∀ p : ℕ → Word, (hashFrames p 0 0 (min n.toNat 7)).toNat < 2 ^ 14 := by
    intro p
    have hbound : (hashFrames p 0 0 (min n.toNat 7)).toNat < 4 ^ (0 + min n.toNat 7) :=
      hashFrames_lt (by decide) (by omega)
    have hpow : 4 ^ (0 + min n.toNat 7) ≤ 4 ^ 7 := Nat.pow_le_pow_right (by decide) (by omega)
    have hval : 4 ^ 7 = 2 ^ 14 := by decide
    omega
  have hinj := @hashFrames_inj p q 0 0 0 0 (min n.toNat 7) (by decide) (by decide) (by omega)
  simp only [Nat.zero_add, true_and] at hinj
  rw [← hinj]
  constructor
  · intro heq
    have hnat := congrArg BitVec.toNat heq
    rw [toNat_cssHashFunction_eq, toNat_cssHashFunction_eq, hlen, Nat.mod_eq_of_lt (hlt p),
      Nat.mod_eq_of_lt (hlt q)] at hnat
    exact BitVec.eq_of_toNat_eq (by omega)
  · intro heq
    refine BitVec.eq_of_toNat_eq ?_
    rw [toNat_cssHashFunction_eq, toNat_cssHashFunction_eq, hlen, heq]

section Fields

variable {size hash : Word} (track : Word) (hsize : size.toNat < 2 ^ 32) (hmod : hash.toNat % 2 ^ 48 = 0)
  (hlt : hash.toNat < 2 ^ 62)
include hsize hmod hlt

/-- **No addition carries** into a neighbouring field. -/
theorem toNat_tagFields : (tagFields size track hash).toNat =
    hash.toNat + track.toNat % 2 ^ 16 * 2 ^ 32 + size.toNat := by
  unfold tagFields
  dsimp only
  rw [BitVec.toNat_add, BitVec.toNat_add, toNat_maskedTrack]
  have hfirst : hash.toNat + track.toNat % 2 ^ 16 * 2 ^ 32 < 2 ^ 62 := by omega
  rw [Nat.mod_eq_of_lt (by omega), Nat.mod_eq_of_lt (by omega)]

/-- The word as a sum of its fields. -/
theorem toNat_tagWord (loop : Bool) : (tagWord size track hash loop).toNat =
    hash.toNat + track.toNat % 2 ^ 16 * 2 ^ 32 + size.toNat + (if loop then 2 ^ 62 else 0) := by
  have hfields := toNat_tagFields track hsize hmod hlt
  have hsmall : ¬ size > maxSize := by
    rw [gt_iff_lt, BitVec.lt_def]
    have : maxSize.toNat = 2 ^ 32 - 1 := rfl
    omega
  rw [tagWord, if_neg hsmall]
  cases loop with
  | false => simpa using hfields
  | true =>
    have hbit : loopBit.toNat = 2 ^ 62 * 1 := rfl
    have hor := Nat.two_pow_add_eq_or_of_lt (i := 62) (b := (tagFields size track hash).toNat)
      (by rw [hfields]; omega) 1
    rw [if_pos rfl, if_pos rfl, BitVec.toNat_or, hbit, Nat.or_comm, ← hor, hfields]
    omega

end Fields

/-- A size of more than 32 bits only gets the huge bit. -/
theorem toNat_tagWord_huge {size : Word} (track hash : Word) (loop : Bool)
    (hsize : 2 ^ 32 ≤ size.toNat) (hlt : size.toNat < 2 ^ 63) :
    (tagWord size track hash loop).toNat = size.toNat + 2 ^ 63 := by
  have hlarge : size > maxSize := by
    rw [gt_iff_lt, BitVec.lt_def]
    have : maxSize.toNat = 2 ^ 32 - 1 := rfl
    omega
  have hbit : hugeBit.toNat = 2 ^ 63 * 1 := rfl
  have hor := Nat.two_pow_add_eq_or_of_lt hlt 1
  rw [tagWord, if_pos hlarge, BitVec.toNat_or, hbit, Nat.or_comm, ← hor]
  omega

/-! ## The round trip -/

/-- The word decodes to the size, the context and the loop flag it was made of. -/
structure Decodes (w size : Word) (context : ℕ) (loop : Bool) : Prop where
  notHuge : isHugeWord w = false
  size : getRealSize w = size
  context : (getCSI w).toNat = context
  loop : inLoop w = loop

theorem decodes_tagWord {size hash : Word} (track : Word) (hsize : size.toNat < 2 ^ 32)
    (hmod : hash.toNat % 2 ^ 48 = 0) (hlt : hash.toNat < 2 ^ 62) (loop : Bool) :
    Decodes (tagWord size track hash loop) size
      ((hash >>> 32).toNat + track.toNat % 2 ^ 16) loop := by
  have hword := toNat_tagWord track hsize hmod hlt loop
  have hloop : (if loop then 2 ^ 62 else 0) = (if loop then 1 else 0) * 2 ^ 62 := by
    cases loop <;> rfl
  have hle : (if loop then 1 else 0) ≤ 1 := by cases loop <;> decide
  rw [hloop] at hword
  have hshift : (hash >>> 32).toNat = hash.toNat / 2 ^ 32 := by
    rw [BitVec.toNat_ushiftRight, Nat.shiftRight_eq_div_pow]
  refine ⟨?_, BitVec.eq_of_toNat_eq ?_, ?_, ?_⟩
  · rw [Bool.eq_false_iff, ne_eq, isHugeWord_iff]
    omega
  · rw [toNat_getRealSize, hword]
    omega
  · rw [toNat_getCSI, hword, hshift]
    omega
  · rw [Bool.eq_iff_iff, inLoop_iff, hword]
    cases loop <;> simp <;> omega

/-- Words without a common bit. -/
theorem and_eq_zero_of_lt {x y : Word} {k : ℕ} (hx : x.toNat % 2 ^ k = 0) (hy : y.toNat < 2 ^ k) :
    x &&& y = 0 := by
  refine BitVec.eq_of_toNat_eq ?_
  rw [BitVec.toNat_and]
  refine Nat.eq_of_testBit_eq fun i => ?_
  rw [Nat.testBit_and, show (0 : Word).toNat = 0 from rfl, Nat.zero_testBit]
  rcases Nat.lt_or_ge i k with hi | hi
  · have hbit := Nat.testBit_mod_two_pow x.toNat k i
    rw [hx, Nat.zero_testBit] at hbit
    simp only [hi, decide_true, Bool.true_and] at hbit
    rw [← hbit, Bool.false_and]
  · rw [Nat.testBit_lt_two_pow (hy.trans_le (Nat.pow_le_pow_right (by norm_num) hi)),
      Bool.and_false]

/-- The additions of the emitted code add words without a common bit, and the flags are clear
before they are set. -/
structure FieldsApart (size track hash : Word) : Prop where
  track_apart : hash &&& ((track <<< csiOffset) &&& csiMask) = 0
  size_apart : (hash + ((track <<< csiOffset) &&& csiMask)) &&& size = 0
  flags_clear : (loopBit ||| hugeBit) &&& tagFields size track hash = 0

theorem fieldsApart {size track hash : Word} (hsize : size.toNat < 2 ^ 32)
    (hmod : hash.toNat % 2 ^ 48 = 0) (hlt : hash.toNat < 2 ^ 62) :
    FieldsApart size track hash := by
  have hmask := toNat_maskedTrack track
  refine ⟨and_eq_zero_of_lt hmod (by rw [hmask]; omega), and_eq_zero_of_lt ?_ hsize, ?_⟩
  · rw [BitVec.toNat_add, hmask]
    omega
  · have hfields := toNat_tagFields track hsize hmod hlt
    exact and_eq_zero_of_lt (k := 62) rfl (by rw [hfields]; omega)

/-- What `mallocMemory` does with a request that is not huge. -/
def serveDecoded (this : ℕ) (size context : Word) (loop : Bool) : Proc ℕ := do
  handleFreeList this
  if size = 0 then return 0
  else if size.toNat ≥ bagThreshold then allocateHuge size
  else allocateRegular this size.toNat context loop

/-- What `mallocMemory` does with a huge request. -/
def serveHuge (this : ℕ) (size : Word) : Proc ℕ := do
  handleFreeList this
  allocateHuge size

theorem mallocMemory_of_decodes {w size : Word} {context : ℕ} {loop : Bool}
    (h : Decodes w size context loop) (this : ℕ) :
    mallocMemory this w = serveDecoded this size (BitVec.ofNat 64 context) loop := by
  have hcontext : getCSI w = BitVec.ofNat 64 context := by
    rw [← h.context, BitVec.ofNat_toNat, BitVec.setWidth_eq]
  unfold mallocMemory serveDecoded
  simp only [h.notHuge, h.size, h.loop, hcontext, Bool.false_eq_true, if_false]

/-- **The tag round trip**: `mallocMemory` gets from the emitted word exactly the size, the hash
and the low track bits as context, and the outcome of the loop branch; a size beyond 32 bits goes
to `allocateHuge`. No addition carries. -/
theorem mallocMemory_tagWord (size track : Word) (p : ℕ → Word) (len : Word) (loop : Bool)
    (this : ℕ) (hlt : size.toNat < 2 ^ 63) :
    (size.toNat ≤ 2 ^ 32 - 1 →
      Decodes (tagWord size track (cssHashFunction p len) loop) size
        ((cssHashFunction p len >>> 32).toNat + track.toNat % 2 ^ 16) loop ∧
      mallocMemory this (tagWord size track (cssHashFunction p len) loop) =
        serveDecoded this size
          (BitVec.ofNat 64 ((cssHashFunction p len >>> 32).toNat + track.toNat % 2 ^ 16)) loop ∧
      FieldsApart size track (cssHashFunction p len)) ∧
    (2 ^ 32 ≤ size.toNat →
      mallocMemory this (tagWord size track (cssHashFunction p len) loop) = serveHuge this size ∧
      hugeBit &&& size = 0) := by
  obtain ⟨hmod, hhash⟩ := toNat_cssHashFunction p len
  refine ⟨fun hle => ?_, fun hge => ?_⟩
  · have hd := decodes_tagWord track (show size.toNat < 2 ^ 32 by omega) hmod hhash loop
    exact ⟨hd, mallocMemory_of_decodes hd this, fieldsApart (by omega) hmod hhash⟩
  · have hword := toNat_tagWord_huge track (cssHashFunction p len) loop hge hlt
    have hhuge : isHugeWord (tagWord size track (cssHashFunction p len) loop) = true := by
      rw [isHugeWord_iff]
      omega
    have hsize : getHugeWordSize (tagWord size track (cssHashFunction p len) loop) = size := by
      refine BitVec.eq_of_toNat_eq ?_
      rw [toNat_getHugeWordSize]
      omega
    refine ⟨?_, and_eq_zero_of_lt (k := 63) rfl hlt⟩
    unfold mallocMemory serveHuge
    simp only [hhuge, hsize, if_true]

/-- A small and a large request. -/
theorem mallocMemory_tagWord_requests :
    Decodes (tagWord 24 0x70005 (cssHashFunction (fun _ => 0xC0) 3) true) 24 0x3F0005 true ∧
      mallocMemory 0 (tagWord 0x100000000 5 (cssHashFunction (fun _ => 0xC0) 3) false) =
        serveHuge 0 0x100000000 := by
  have hsmall := ((mallocMemory_tagWord 24 0x70005 (fun _ => 0xC0) 3 true 0 (by decide)).1
    (by decide)).1
  have hlarge := ((mallocMemory_tagWord 0x100000000 5 (fun _ => 0xC0) 3 false 0 (by decide)).2
    (by decide)).1
  have hcontext : (cssHashFunction (fun _ => 0xC0) 3 >>> 32).toNat +
      (0x70005 : Word).toNat % 2 ^ 16 = 0x3F0005 := by decide
  rw [hcontext] at hsmall
  exact ⟨hsmall, hlarge⟩

end Semalloc
