import Semalloc.Library.Region

/-!
# Object stores

What a memory allocator is for, without its memory: a store of objects at addresses. No object is
at address zero and no two objects overlap. Of an object the store knows its size and the bytes
its clients put there; of a new object it knows no byte but those the allocator promised.

## Main definitions

* `Object`: a size, and the bytes that are known
* `Store`: separate objects at their addresses
* `Store.Fresh`: where a new object may be placed
* `Store.Allocates`: null, or one more object
* `Store.insert`, `Store.erase`, `Store.write`: the changes of a store

## Main results

* `Store.object_insert_of_ne`, `Store.object_erase_of_ne`, `Store.object_write_of_ne`: other objects stay
-/

set_option autoImplicit false

namespace ObjectStore

variable {β : Type}

/-- An object of known size, with the bytes that are known of it. -/
structure Object (β : Type) where
  size : ℕ
  byte : ℕ → Option β
  known_lt : ∀ i b, byte i = some b → i < size

namespace Object

/-- An object of which no byte is known. -/
def blank (n : ℕ) : Object β := ⟨n, fun _ => none, fun _ _ h => by cases h⟩

/-- An object that starts with `k` bytes `b`. -/
def filled (b : β) (k n : ℕ) : Object β where
  size := n
  byte i := if i < k ∧ i < n then some b else none
  known_lt i b' h := by
    split at h
    · rename_i hlt
      exact hlt.2
    · cases h

/-- The bytes of an object, in one of another size. -/
def resized (o : Object β) (n : ℕ) : Object β where
  size := n
  byte i := if i < n then o.byte i else none
  known_lt i b h := by
    split at h
    · assumption
    · cases h

/-- The object after a write. -/
def write (o : Object β) (i : ℕ) (b : β) : Object β where
  size := o.size
  byte j := if j = i ∧ i < o.size then some b else o.byte j
  known_lt j b' h := by
    split at h
    · rename_i hj
      exact hj.1 ▸ hj.2
    · exact o.known_lt j b' h

@[simp] theorem size_blank (n : ℕ) : (blank n : Object β).size = n := rfl

@[simp] theorem size_filled (b : β) (k n : ℕ) : (filled b k n).size = n := rfl

@[simp] theorem size_resized (o : Object β) (n : ℕ) : (o.resized n).size = n := rfl

@[simp] theorem size_write (o : Object β) (i : ℕ) (b : β) : (o.write i b).size = o.size := rfl

theorem byte_filled {b b' : β} {k n i : ℕ} :
    (filled b k n).byte i = some b' ↔ (i < k ∧ i < n) ∧ b = b' := by
  simp [filled]

/-- An object that grows keeps the bytes known of it. -/
theorem byte_resized {o : Object β} {n i : ℕ} (hn : o.size ≤ n) :
    (o.resized n).byte i = o.byte i := by
  unfold resized
  dsimp only
  split
  · rfl
  · cases hb : o.byte i with
    | none => rfl
    | some b =>
      have := o.known_lt i b hb
      omega

theorem byte_write_self {o : Object β} {i : ℕ} {b : β} (hi : i < o.size) :
    (o.write i b).byte i = some b := by
  simp [write, hi]

theorem byte_write_of_ne {o : Object β} {i j : ℕ} {b : β} (hj : j ≠ i) :
    (o.write i b).byte j = o.byte j := by
  simp [write, hj]

end Object

/-- Objects at addresses, none at zero, and no two of them overlapping. -/
@[ext] structure Store (β : Type) where
  object : ℕ → Option (Object β)
  null : object 0 = none
  separate : ∀ p q o o', object p = some o → object q = some o' → p ≠ q →
    ¬ (Region.mk p o.size).Overlaps ⟨q, o'.size⟩

namespace Store

variable {s : Store β} {p q n : ℕ} {o : Object β}

/-- The store without objects. -/
def empty : Store β := ⟨fun _ => none, rfl, fun _ _ _ _ h => by cases h⟩

/-- An object of size `n` may be placed at `p`: no object is there, nor overlaps it. -/
structure Fresh (s : Store β) (p n : ℕ) : Prop where
  ne_zero : p ≠ 0
  vacant : s.object p = none
  apart : ∀ q o, s.object q = some o → ¬ (Region.mk p n).Overlaps ⟨q, o.size⟩

/-- The store with one more object. -/
def insert (s : Store β) (p : ℕ) (o : Object β) (h : s.Fresh p o.size) : Store β where
  object := Function.update s.object p (some o)
  null := by rw [Function.update_of_ne h.ne_zero.symm, s.null]
  separate a b o₁ o₂ h₁ h₂ hne := by
    have hsymm : ∀ {r t : Region}, ¬ r.Overlaps t → ¬ t.Overlaps r := by
      rintro r t hr ⟨x, hx, hy⟩
      exact hr ⟨x, hy, hx⟩
    by_cases ha : a = p
    · rw [ha, Function.update_self] at h₁
      rw [ha] at hne
      rw [Function.update_of_ne hne.symm] at h₂
      cases h₁
      exact ha ▸ h.apart b o₂ h₂
    · rw [Function.update_of_ne ha] at h₁
      by_cases hb : b = p
      · rw [hb, Function.update_self] at h₂
        cases h₂
        exact hb ▸ hsymm (h.apart a o₁ h₁)
      · rw [Function.update_of_ne hb] at h₂
        exact s.separate a b o₁ o₂ h₁ h₂ hne

/-- The store without the object at `p`. -/
def erase (s : Store β) (p : ℕ) : Store β where
  object := Function.update s.object p none
  null := by
    by_cases hp : 0 = p
    · rw [hp, Function.update_self]
    · rw [Function.update_of_ne hp, s.null]
  separate a b o₁ o₂ h₁ h₂ hne := by
    have hold : ∀ {c o}, Function.update s.object p none c = some o → s.object c = some o := by
      intro c o hc
      by_cases hcp : c = p
      · rw [hcp, Function.update_self] at hc
        cases hc
      · rwa [Function.update_of_ne hcp] at hc
    exact s.separate a b o₁ o₂ (hold h₁) (hold h₂) hne

/-- The store after a write to byte `i` of the object at `p`. -/
def write (s : Store β) (p i : ℕ) (b : β) : Store β where
  object := Function.update s.object p ((s.object p).map fun o => o.write i b)
  null := by
    by_cases hp : 0 = p
    · rw [hp, Function.update_self, ← hp, s.null]
      rfl
    · rw [Function.update_of_ne hp, s.null]
  separate a c o₁ o₂ h₁ h₂ hne := by
    have hold : ∀ {a o}, Function.update s.object p ((s.object p).map fun o => o.write i b) a = some o →
        ∃ o', s.object a = some o' ∧ o'.size = o.size := by
      intro a o ha
      by_cases hap : a = p
      · rw [hap, Function.update_self] at ha
        obtain ⟨o', ho', rfl⟩ := Option.map_eq_some_iff.mp ha
        exact ⟨o', hap ▸ ho', rfl⟩
      · rw [Function.update_of_ne hap] at ha
        exact ⟨o, ha, rfl⟩
    obtain ⟨o₁', h₁', hs₁⟩ := hold h₁
    obtain ⟨o₂', h₂', hs₂⟩ := hold h₂
    rw [← hs₁, ← hs₂]
    exact s.separate a c o₁' o₂' h₁' h₂' hne

/-- An allocation of at least `n` bytes answered `p`: null, or the place of one more object, which
`make` gives for its size. -/
def Allocates (s : Store β) (null : Prop) (n : ℕ) (make : ℕ → Object β) (p : ℕ) (s' : Store β) :
    Prop :=
  (p = 0 ∧ null ∧ s' = s) ∨
    ¬ null ∧ ∃ m, n ≤ m ∧ ∃ h : s.Fresh p (make m).size, s' = s.insert p (make m) h

@[simp] theorem object_insert_self (h : s.Fresh p o.size) : (s.insert p o h).object p = some o :=
  Function.update_self _ _ _

theorem object_insert_of_ne (h : s.Fresh p o.size) (hq : q ≠ p) : (s.insert p o h).object q = s.object q :=
  Function.update_of_ne hq _ _

@[simp] theorem object_erase_self (s : Store β) (p : ℕ) : (s.erase p).object p = none :=
  Function.update_self _ _ _

theorem object_erase_of_ne (s : Store β) (hq : q ≠ p) : (s.erase p).object q = s.object q :=
  Function.update_of_ne hq _ _

theorem object_erase_eq_some {s : Store β} : (s.erase p).object q = some o ↔ q ≠ p ∧ s.object q = some o := by
  by_cases hq : q = p
  · simp [hq]
  · simp [hq, object_erase_of_ne s hq]

theorem object_write_self (s : Store β) (p i : ℕ) (b : β) :
    (s.write p i b).object p = (s.object p).map fun o => o.write i b :=
  Function.update_self _ _ _

theorem object_write_of_ne (s : Store β) {i : ℕ} {b : β} (hq : q ≠ p) :
    (s.write p i b).object q = s.object q :=
  Function.update_of_ne hq _ _

/-- An allocation keeps the objects there are. -/
theorem Allocates.object_of_ne {s' : Store β} {null : Prop} {make : ℕ → Object β}
    (h : s.Allocates null n make p s') (hq : s.object q = some o) : s'.object q = some o := by
  rcases h with ⟨-, -, rfl⟩ | ⟨-, m, -, hfresh, rfl⟩
  · exact hq
  · rw [object_insert_of_ne hfresh, hq]
    rintro rfl
    rw [hfresh.vacant] at hq
    cases hq

end Store

end ObjectStore
