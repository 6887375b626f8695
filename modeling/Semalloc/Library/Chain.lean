import Mathlib.Tactic
import Mathlib.Data.List.Nodup

/-!
# Intrusive singly linked lists

An intrusive list keeps the link to the next node inside the node. `Chain next head l` says that
following `next` from `head` visits exactly the nodes `l`, in order, and then meets the null link
`0`. A change of links away from the visited nodes keeps the chain.

## Main definitions

* `Chain next head l`: the links from `head` spell the list `l`
* `Segment next head l stop`: the links from `head` spell `l` and then arrive at `stop`

## Main results

* `Chain.congr`: a chain depends on the links of its own nodes
* `Chain.push`, `Chain.pop`: the two ends of stack use
* `Chain.unique`: a head determines its nodes
* `Segment.loop`: a node linked a second time closes a loop
-/

set_option autoImplicit false

/-- Following the links `next` from `head` visits the nodes `l` and ends at the null link. -/
def Chain (next : ℕ → ℕ) : ℕ → List ℕ → Prop
  | head, [] => head = 0
  | head, x :: l => head = x ∧ x ≠ 0 ∧ Chain next (next x) l

namespace Chain

variable {next next' : ℕ → ℕ} {head x : ℕ} {l : List ℕ}

@[simp] theorem nil_iff : Chain next head [] ↔ head = 0 := Iff.rfl

@[simp] theorem cons_iff :
    Chain next head (x :: l) ↔ head = x ∧ x ≠ 0 ∧ Chain next (next x) l := Iff.rfl

/-- A chain depends on the links of its own nodes only. -/
theorem congr (h : Chain next head l) (hl : ∀ y ∈ l, next' y = next y) : Chain next' head l := by
  induction l generalizing head with
  | nil => exact h
  | cons y l ih =>
    obtain ⟨hy, hne, hrest⟩ := h
    refine ⟨hy, hne, ?_⟩
    rw [hl y List.mem_cons_self]
    exact ih hrest fun z hz => hl z (List.mem_cons_of_mem y hz)

/-- A new node linked to the old head heads the longer chain. -/
theorem push (h : Chain next head l) (hne : x ≠ 0) (hx : next' x = head)
    (hl : ∀ y ∈ l, next' y = next y) : Chain next' x (x :: l) := by
  refine ⟨rfl, hne, ?_⟩
  rw [hx]
  exact h.congr hl

/-- A non-null head is the first node, and its link heads the rest. -/
theorem pop (h : Chain next head l) (hne : head ≠ 0) :
    ∃ l', l = head :: l' ∧ Chain next (next head) l' := by
  cases l with
  | nil => exact absurd h hne
  | cons y l =>
    obtain ⟨rfl, -, hrest⟩ := h
    exact ⟨l, rfl, hrest⟩

theorem head_eq_zero (h : Chain next head l) : head = 0 ↔ l = [] := by
  cases l with
  | nil => simpa using h
  | cons y l =>
    obtain ⟨rfl, hne, -⟩ := h
    simp [hne]

/-- The nodes of a chain are determined by its head. -/
theorem unique {l' : List ℕ} (h : Chain next head l) (h' : Chain next head l') : l = l' := by
  induction l generalizing head l' with
  | nil => exact ((h'.head_eq_zero).mp h).symm
  | cons y l ih =>
    obtain ⟨rfl, hne, hrest⟩ := h
    obtain ⟨k, rfl, hk⟩ := h'.pop hne
    rw [ih hrest hk]

end Chain

/-- Following the links `next` from `head` visits the nodes `l` and arrives at `stop`, which may be
one of them. -/
def Segment (next : ℕ → ℕ) : ℕ → List ℕ → ℕ → Prop
  | head, [], stop => head = stop
  | head, x :: l, stop => head = x ∧ x ≠ 0 ∧ Segment next (next x) l stop

namespace Segment

variable {next next' : ℕ → ℕ} {head stop x : ℕ} {l : List ℕ}

@[simp] theorem nil_iff : Segment next head [] stop ↔ head = stop := Iff.rfl

@[simp] theorem cons_iff : Segment next head (x :: l) stop ↔
    head = x ∧ x ≠ 0 ∧ Segment next (next x) l stop := Iff.rfl

/-- A segment depends on the links of its own nodes only. -/
theorem congr (h : Segment next head l stop) (hl : ∀ y ∈ l, next' y = next y) :
    Segment next' head l stop := by
  induction l generalizing head with
  | nil => exact h
  | cons y l ih =>
    obtain ⟨hy, hne, hrest⟩ := h
    refine ⟨hy, hne, ?_⟩
    rw [hl y List.mem_cons_self]
    exact ih hrest fun z hz => hl z (List.mem_cons_of_mem y hz)

/-- A new node linked to the old head heads the longer segment. -/
theorem push (h : Segment next head l stop) (hne : x ≠ 0) (hx : next' x = head)
    (hl : ∀ y ∈ l, next' y = next y) : Segment next' x (x :: l) stop := by
  refine ⟨rfl, hne, ?_⟩
  rw [hx]
  exact h.congr hl

/-- The null link heads nothing. -/
theorem of_zero (h : Segment next 0 l stop) : l = [] ∧ stop = 0 := by
  cases l with
  | nil => exact ⟨rfl, h.symm⟩
  | cons y l => exact absurd h.1.symm h.2.1

/-- The way to one of the nodes. -/
theorem before (h : Segment next head l stop) (hx : x ∈ l) :
    ∃ l' l'', l = l' ++ x :: l'' ∧ Segment next head l' x := by
  induction l generalizing head with
  | nil => cases hx
  | cons y l ih =>
    obtain ⟨rfl, hne, hrest⟩ := h
    rcases List.mem_cons.mp hx with rfl | hx
    · exact ⟨[], l, rfl, rfl⟩
    · obtain ⟨l', l'', rfl, hl'⟩ := ih hrest hx
      exact ⟨head :: l', l'', rfl, rfl, hne, hl'⟩

/-- **A loop**: a node of the segment that is linked to its head a second time is met again. -/
theorem loop (h : Segment next head l stop) (hnodup : l.Nodup) (hx : x ∈ l) (hne : x ≠ 0)
    (hnext : next' x = head) (hl : ∀ y ∈ l, y ≠ x → next' y = next y) :
    ∃ l', x :: l' ⊆ l ∧ (x :: l').Nodup ∧ Segment next' x (x :: l') x := by
  obtain ⟨l', l'', rfl, hl'⟩ := h.before hx
  obtain ⟨hnodup', -, hdisjoint⟩ := List.nodup_append.mp hnodup
  have hnot : x ∉ l' := fun hmem => hdisjoint x hmem x List.mem_cons_self rfl
  refine ⟨l', ?_, List.nodup_cons.mpr ⟨hnot, hnodup'⟩, ?_⟩
  · rintro y hy
    rcases List.mem_cons.mp hy with rfl | hy
    · simp
    · exact List.mem_append_left _ hy
  · refine hl'.push hne hnext fun y hy => hl y (List.mem_append_left _ hy) ?_
    rintro rfl
    exact hnot hy

end Segment
