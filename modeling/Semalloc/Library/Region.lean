import Mathlib.Tactic

/-!
# Address regions

A list of regions says which addresses are mapped. Removing an address range splits the regions
it meets.

## Main definitions

* `Region`: a half-open address range
* `Mapped rs x`: the address `x` lies in one of the regions
* `covers rs a n`: each of the `n` addresses from `a` is mapped
* `removeRange rs a n`: the regions less the `n` addresses from `a`

## Main results

* `mapped_removeRange`: exactly the addresses of the range are removed
* `covers_iff`: the executable test agrees with `Mapped`
-/

set_option autoImplicit false

/-- The addresses from `base` up to `base + len`. -/
structure Region where
  base : ℕ
  len : ℕ
  deriving DecidableEq, Repr

namespace Region

/-- The region holds the address. -/
def Contains (r : Region) (x : ℕ) : Prop := r.base ≤ x ∧ x < r.base + r.len

instance (r : Region) (x : ℕ) : Decidable (r.Contains x) :=
  inferInstanceAs (Decidable (r.base ≤ x ∧ x < r.base + r.len))

/-- Every address of the other region is one of this region. -/
def Includes (r s : Region) : Prop := ∀ x, s.Contains x → r.Contains x

/-- Two regions share an address. -/
def Overlaps (r s : Region) : Prop := ∃ x, r.Contains x ∧ s.Contains x

theorem overlaps_iff (r s : Region) :
    r.Overlaps s ↔ max r.base s.base < min (r.base + r.len) (s.base + s.len) := by
  constructor
  · rintro ⟨x, ⟨h₁, h₂⟩, h₃, h₄⟩
    omega
  · intro h
    exact ⟨max r.base s.base, ⟨by omega, by omega⟩, by omega, by omega⟩

instance (r s : Region) : Decidable (r.Overlaps s) := decidable_of_iff' _ (overlaps_iff r s)

/-- The address lies in one of the regions. -/
def Mapped (rs : List Region) (x : ℕ) : Prop := ∃ r ∈ rs, r.Contains x

instance (rs : List Region) (x : ℕ) : Decidable (Mapped rs x) :=
  inferInstanceAs (Decidable (∃ r ∈ rs, r.Contains x))

/-- Each of the `n` addresses from `a` is mapped: the first one is, and so is each one at which a
region ends. -/
def covers (rs : List Region) (a n : ℕ) : Bool :=
  n = 0 ∨ Mapped rs a ∧
    ∀ r ∈ rs, a < r.base + r.len ∧ r.base + r.len < a + n → Mapped rs (r.base + r.len)

/-- The regions less the `n` addresses from `a`: of each region, the part before the range and
the part after it. -/
def removeRange (rs : List Region) (a n : ℕ) : List Region :=
  rs.flatMap fun r =>
    [⟨r.base, min r.len (a - r.base)⟩,
      ⟨max r.base (a + n), r.base + r.len - max r.base (a + n)⟩]

theorem mapped_cons {r : Region} {rs : List Region} {x : ℕ} :
    Mapped (r :: rs) x ↔ r.Contains x ∨ Mapped rs x := by
  simp [Mapped]

theorem covers_iff {rs : List Region} {a n : ℕ} :
    covers rs a n = true ↔ ∀ x, a ≤ x → x < a + n → Mapped rs x := by
  simp only [covers, decide_eq_true_eq]
  constructor
  · rintro (rfl | ⟨hfirst, hends⟩) x hx hx'
    · omega
    · induction x, hx using Nat.le_induction with
      | base => exact hfirst
      | succ x hx ih =>
        obtain ⟨r, hr, h₁, h₂⟩ := ih (by omega)
        -- the region of `x` either goes on or ends just there
        by_cases hin : x + 1 < r.base + r.len
        · exact ⟨r, hr, by omega, hin⟩
        · have hend : r.base + r.len = x + 1 := by omega
          exact hend ▸ hends r hr (by omega)
  · intro h
    by_cases hn : n = 0
    · exact Or.inl hn
    · exact Or.inr ⟨h a le_rfl (by omega), fun r _ hr => h _ (by omega) hr.2⟩

/-- **Removal**: exactly the addresses of the range are removed. -/
theorem mapped_removeRange {rs : List Region} {a n x : ℕ} :
    Mapped (removeRange rs a n) x ↔ Mapped rs x ∧ ¬ (a ≤ x ∧ x < a + n) := by
  simp only [Mapped, removeRange, List.mem_flatMap, List.mem_cons, List.not_mem_nil, or_false]
  constructor
  · rintro ⟨s, ⟨r, hr, rfl | rfl⟩, h₁, h₂⟩
    · simp only at h₁ h₂
      exact ⟨⟨r, hr, by omega, by omega⟩, by omega⟩
    · simp only at h₁ h₂
      exact ⟨⟨r, hr, by omega, by omega⟩, by omega⟩
  · rintro ⟨⟨r, hr, h₁, h₂⟩, hout⟩
    by_cases hx : x < a
    · exact ⟨_, ⟨r, hr, Or.inl rfl⟩, h₁, by simp only; omega⟩
    · exact ⟨_, ⟨r, hr, Or.inr rfl⟩, by simp only; omega, by simp only; omega⟩

end Region
