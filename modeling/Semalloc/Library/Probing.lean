import Mathlib.Tactic
import Mathlib.Data.Finset.Card
import Mathlib.Data.Finset.Range

/-!
# Linear probing

A table of `size` slots is searched from a start slot upwards, and from slot `0` again after the
last one. `First size p start k` says that `k` is the first slot on this way with the property
`p`; `search` finds it.

## Main definitions

* `First size p start k`: the slot a search from `start` for `p` stops at
* `search size p start n`: the search with the last `n` slots of the way left
* `Stops`, `Placed`: a table of keys, each at the slot at which a search for it stops

## Main results

* `First.unique`, `First.exists`: a search stops, at one slot, when some slot has the property
* `First.mono`: a search for less stops at the same slot, if that slot still has the property
* `search_first`: `search` stops at the first slot
* `Placed.unique`, `Placed.insert`, `Placed.exists_stop`: a table that keys are only added to
-/

set_option autoImplicit false

namespace Probing

variable {size start k : ℕ} {p q : ℕ → Prop}

/-- `k` is the first slot from `start` on, cyclically, with the property `p`. -/
def First (size : ℕ) (p : ℕ → Prop) (start k : ℕ) : Prop :=
  ∃ i < size, k = (i + start) % size ∧ p k ∧ ∀ j < i, ¬ p ((j + start) % size)

namespace First

theorem holds (h : First size p start k) : p k := by
  obtain ⟨i, -, -, hp, -⟩ := h
  exact hp

theorem lt (h : First size p start k) : k < size := by
  obtain ⟨i, hi, rfl, -, -⟩ := h
  exact Nat.mod_lt _ (by omega)

theorem unique {l : ℕ} (h : First size p start k) (h' : First size p start l) : k = l := by
  obtain ⟨i, -, rfl, hp, hbefore⟩ := h
  obtain ⟨j, -, rfl, hq, hbefore'⟩ := h'
  -- the one met earlier would have stopped the other search
  rcases lt_trichotomy i j with hij | rfl | hij
  · exact absurd hp (hbefore' i hij)
  · rfl
  · exact absurd hq (hbefore j hij)

/-- A search for less stops at the same slot, if that slot still has the property. -/
theorem mono (h : First size p start k) (hk : q k) (hqp : ∀ l < size, q l → p l) :
    First size q start k := by
  obtain ⟨i, hi, rfl, -, hbefore⟩ := h
  refine ⟨i, hi, rfl, hk, fun j hj hq => hbefore j hj (hqp _ ?_ hq)⟩
  exact Nat.mod_lt _ (by omega)

theorem congr (h : First size p start k) (hqp : ∀ l < size, q l ↔ p l) :
    First size q start k :=
  h.mono ((hqp k h.lt).mpr h.holds) fun l hl => (hqp l hl).mp

/-- Every slot is on the way from every start. -/
theorem «exists» (hk : k < size) (hp : p k) : ∃ l, First size p start l := by
  classical
  have hway : ∃ i, i < size ∧ p ((i + start) % size) := by
    refine ⟨(k + (size - start % size)) % size, Nat.mod_lt _ (by omega), ?_⟩
    have hmod : ((k + (size - start % size)) % size + start) % size = k := by
      have hsplit := Nat.div_add_mod start size
      have hlt := Nat.mod_lt start (show size > 0 by omega)
      have hsum : k + (size - start % size) + start = k + size * (start / size + 1) := by
        rw [Nat.mul_add, Nat.mul_one]
        omega
      rw [Nat.mod_add_mod, hsum, Nat.add_mul_mod_self_left, Nat.mod_eq_of_lt hk]
    rwa [hmod]
  refine ⟨(Nat.find hway + start) % size, Nat.find hway, (Nat.find_spec hway).1, rfl,
    (Nat.find_spec hway).2, fun j hj hpj => ?_⟩
  exact Nat.find_min hway hj ⟨hj.trans (Nat.find_spec hway).1, hpj⟩

/-- A search stops if fewer slots than there are lack the property. -/
theorem exists_of_card {taken : Finset ℕ} (hcard : taken.card < size)
    (hp : ∀ l < size, l ∉ taken → p l) : ∃ l, First size p start l := by
  have hfree : ∃ l ∈ Finset.range size, l ∉ taken := by
    by_contra hnone
    push Not at hnone
    have hle := Finset.card_le_card hnone
    rw [Finset.card_range] at hle
    omega
  obtain ⟨l, hl, hfree⟩ := hfree
  have hlt := Finset.mem_range.mp hl
  exact «exists» hlt (hp l hlt hfree)

end First

/-- The search for a slot with `p`, with the last `n` slots of the way from `start` left. -/
def search (size : ℕ) (p : ℕ → Prop) [DecidablePred p] (start : ℕ) : ℕ → ℕ
  | 0 => 0
  | n + 1 =>
    let k := (size - (n + 1) + start) % size
    if p k then k else search size p start n

variable [DecidablePred p]

/-- The search stops at the first slot, when there is one among those left. -/
theorem search_of_first {n i : ℕ} (hn : n ≤ size) (hle : size - n ≤ i) (hi : i < size)
    (hp : p ((i + start) % size)) (hbefore : ∀ j < i, ¬ p ((j + start) % size)) :
    search size p start n = (i + start) % size := by
  induction n with
  | zero => omega
  | succ n ih =>
    unfold search
    dsimp only
    by_cases heq : size - (n + 1) = i
    · rw [heq, if_pos hp]
    · rw [if_neg (hbefore _ (by omega))]
      exact ih (by omega) (by omega)

/-- **The search finds the first slot.** -/
theorem search_first (h : First size p start k) : search size p start size = k := by
  obtain ⟨i, hi, rfl, hp, hbefore⟩ := h
  exact search_of_first le_rfl (by omega) hi hp hbefore

/-! ## Tables of keys -/

variable {κ : Type} {hash : κ → ℕ} {slots : ℕ → Option κ} {c : κ}

/-- A search for a key stops at a slot that holds it, and at an empty one. -/
def Stops (slots : ℕ → Option κ) (c : κ) (k : ℕ) : Prop := slots k = some c ∨ slots k = none

/-- Every key of the table is where a search for it stops. -/
def Placed (size : ℕ) (hash : κ → ℕ) (slots : ℕ → Option κ) : Prop :=
  ∀ k < size, ∀ c, slots k = some c → First size (Stops slots c) (hash c) k

namespace Placed

/-- A key has one slot. -/
theorem unique {l : ℕ} (h : Placed size hash slots) (hk : k < size) (hl : l < size)
    (hc : slots k = some c) (hc' : slots l = some c) : k = l :=
  (h k hk c hc).unique (h l hl c hc')

theorem empty : Placed size hash fun _ => none := fun _ _ _ h => by cases h

/-- A new key is put where the search for it stops: no other search is cut short. -/
theorem insert (h : Placed size hash slots) (hk : First size (Stops slots c) (hash c) k)
    (hempty : slots k = none) : Placed size hash (Function.update slots k (some c)) := by
  have hless : ∀ d, ∀ l < size, Stops (Function.update slots k (some c)) d l → Stops slots d l := by
    intro d l _ hstop
    by_cases hl : l = k
    · exact .inr (hl ▸ hempty)
    · unfold Stops at hstop
      rwa [Function.update_of_ne hl] at hstop
  intro l hl d hd
  by_cases hlk : l = k
  · subst hlk
    obtain rfl : c = d := by simpa using hd
    exact hk.mono (.inl hd) (hless c)
  · have hold : slots l = some d := by rwa [Function.update_of_ne hlk] at hd
    exact (h l hl d hold).mono (.inl hd) (hless d)

/-- A search stops when the keys of the table are fewer than its slots. -/
theorem exists_stop [DecidableEq κ] (h : Placed size hash slots) {keys : Finset κ}
    (hkeys : ∀ k < size, ∀ d, slots k = some d → d ∈ keys) (hcard : keys.card < size) (c : κ) :
    ∃ k, First size (Stops slots c) (hash c) k := by
  have htaken : ((Finset.range size).filter fun k => slots k ≠ none).card < size := by
    refine lt_of_le_of_lt ?_ hcard
    refine le_trans (Finset.card_le_card_of_injOn slots (t := keys.image some) ?_ ?_)
      Finset.card_image_le
    · intro k hk
      obtain ⟨hlt, hne⟩ := Finset.mem_filter.mp hk
      obtain ⟨d, hd⟩ := Option.ne_none_iff_exists'.mp hne
      rw [hd]
      exact Finset.mem_image_of_mem some (hkeys k (Finset.mem_range.mp hlt) d hd)
    · intro k hk l hl heq
      obtain ⟨hlt, hne⟩ := Finset.mem_filter.mp hk
      obtain ⟨hlt', -⟩ := Finset.mem_filter.mp hl
      obtain ⟨d, hd⟩ := Option.ne_none_iff_exists'.mp hne
      exact h.unique (Finset.mem_range.mp hlt) (Finset.mem_range.mp hlt') hd (heq ▸ hd)
  refine First.exists_of_card htaken fun l hl hfree => .inr ?_
  by_contra hne
  exact hfree (Finset.mem_filter.mpr ⟨Finset.mem_range.mpr hl, hne⟩)

end Placed

end Probing
