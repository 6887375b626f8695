import Mathlib.Tactic

/-!
# Byte-addressed memory

A memory maps addresses to bytes. Fixed-width little-endian words, block fills and block copies
are read and written through it. Each writer changes only the bytes it names, and a word reads
back what was written.

## Main definitions

* `readLE m a n`, `writeLE m a n v`: the `n`-byte little-endian word at `a`
* `fill m a n b`, `copy m dst src n`: constant and copied blocks
* `AgreeOn P m m'`: the memories have the same bytes at the addresses of `P`

## Main results

* `readLE_writeLE`: a word reads back what was written
* `readLE_congr`: a word depends on its own bytes only
* `writeLE_of_outside`, `fill_of_outside`, `copy_of_outside`: writers keep all other bytes
-/

set_option autoImplicit false

/-- A memory: a byte at every address. -/
abbrev ByteMemory := ℕ → BitVec 8

namespace ByteMemory

variable {m m' : ByteMemory} {a n v : ℕ}

/-- The little-endian number spelled by the `n` bytes at `a`. -/
def readLE (m : ByteMemory) (a : ℕ) : ℕ → ℕ
  | 0 => 0
  | n + 1 => (m a).toNat + 256 * readLE m (a + 1) n

/-- The memory `m` with one byte replaced. -/
def writeByte (m : ByteMemory) (a : ℕ) (b : BitVec 8) : ByteMemory :=
  fun x => if x = a then b else m x

/-- The memory `m` with the low `n` bytes of `v` at `a`, least significant first. -/
def writeLE (m : ByteMemory) (a n v : ℕ) : ByteMemory :=
  fun x => if a ≤ x ∧ x < a + n then BitVec.ofNat 8 (v / 256 ^ (x - a)) else m x

/-- The memory `m` with the byte `b` at each of the `n` addresses from `a`. -/
def fill (m : ByteMemory) (a n : ℕ) (b : BitVec 8) : ByteMemory :=
  fun x => if a ≤ x ∧ x < a + n then b else m x

/-- The memory `m` with the `n` bytes at `src` copied to `dst`. -/
def copy (m : ByteMemory) (dst src n : ℕ) : ByteMemory :=
  fun x => if dst ≤ x ∧ x < dst + n then m (src + (x - dst)) else m x

/-- Equal bytes at every address of `P`. -/
def AgreeOn (P : ℕ → Prop) (m m' : ByteMemory) : Prop := ∀ x, P x → m' x = m x

theorem AgreeOn.refl (P : ℕ → Prop) (m : ByteMemory) : AgreeOn P m m := fun _ _ => rfl

theorem AgreeOn.trans {P : ℕ → Prop} {m₁ m₂ m₃ : ByteMemory} (h : AgreeOn P m₁ m₂)
    (h' : AgreeOn P m₂ m₃) : AgreeOn P m₁ m₃ := fun x hx => (h' x hx).trans (h x hx)

theorem AgreeOn.mono {P Q : ℕ → Prop} (h : AgreeOn P m m') (hQ : ∀ x, Q x → P x) :
    AgreeOn Q m m' := fun x hx => h x (hQ x hx)

@[simp] theorem readLE_zero (m : ByteMemory) (a : ℕ) : readLE m a 0 = 0 := rfl

theorem readLE_succ (m : ByteMemory) (a n : ℕ) :
    readLE m a (n + 1) = (m a).toNat + 256 * readLE m (a + 1) n := rfl

theorem readLE_lt (m : ByteMemory) (a n : ℕ) : readLE m a n < 256 ^ n := by
  induction n generalizing a with
  | zero => simp
  | succ n ih =>
    have hb := (m a).isLt
    have hr := ih (a + 1)
    rw [readLE_succ, pow_succ]
    omega

/-- A word depends on its own bytes only. -/
theorem readLE_congr (h : ∀ x, a ≤ x → x < a + n → m' x = m x) :
    readLE m' a n = readLE m a n := by
  induction n generalizing a with
  | zero => rfl
  | succ n ih =>
    have hhead := h a le_rfl (by omega)
    have htail := ih (a := a + 1) fun x hx hx' => h x (by omega) (by omega)
    rw [readLE_succ, readLE_succ, hhead, htail]

/-- The bytes of `v` at `a`, read as a word. -/
theorem readLE_of_bytes (h : ∀ x, a ≤ x → x < a + n → m x = BitVec.ofNat 8 (v / 256 ^ (x - a))) :
    readLE m a n = v % 256 ^ n := by
  induction n generalizing a v with
  | zero => simp [Nat.mod_one]
  | succ n ih =>
    have hhead : m a = BitVec.ofNat 8 v := by simpa using h a le_rfl (by omega)
    have htail : readLE m (a + 1) n = v / 256 % 256 ^ n := by
      refine ih fun x hx hx' => ?_
      rw [h x (by omega) (by omega), Nat.div_div_eq_div_mul]
      congr 2
      rw [show x - a = (x - (a + 1)) + 1 by omega, pow_succ, Nat.mul_comm]
    rw [readLE_succ, hhead, htail, pow_succ, Nat.mul_comm (256 ^ n), Nat.mod_mul]
    simp

/-- **A word reads back what was written.** -/
theorem readLE_writeLE (hv : v < 256 ^ n) : readLE (writeLE m a n v) a n = v := by
  have hbytes : readLE (writeLE m a n v) a n = v % 256 ^ n :=
    readLE_of_bytes fun x hx hx' => if_pos ⟨hx, hx'⟩
  rw [hbytes, Nat.mod_eq_of_lt hv]

theorem writeByte_self (b : BitVec 8) : writeByte m a b a = b := if_pos rfl

theorem writeByte_of_ne {x : ℕ} (b : BitVec 8) (h : x ≠ a) : writeByte m a b x = m x := if_neg h

theorem writeLE_of_outside {x : ℕ} (h : x < a ∨ a + n ≤ x) : writeLE m a n v x = m x :=
  if_neg (by omega)

theorem fill_of_inside {b : BitVec 8} {x : ℕ} (h : a ≤ x) (h' : x < a + n) :
    fill m a n b x = b := if_pos ⟨h, h'⟩

theorem fill_of_outside {b : BitVec 8} {x : ℕ} (h : x < a ∨ a + n ≤ x) : fill m a n b x = m x :=
  if_neg (by omega)

theorem copy_of_inside {dst src i : ℕ} (h : i < n) : copy m dst src n (dst + i) = m (src + i) := by
  unfold copy
  rw [if_pos (by omega), Nat.add_sub_cancel_left]

theorem copy_of_outside {dst src x : ℕ} (h : x < dst ∨ dst + n ≤ x) : copy m dst src n x = m x :=
  if_neg (by omega)

end ByteMemory
