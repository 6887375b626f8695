import Semalloc.Library.Multigraph
import Mathlib.Data.Set.Card

/-!
# Numbers of walks

In an acyclic graph give each edge out of a vertex, as its offset, the number of nonempty walks that
start with an edge before it. The offsets along a walk to a sink add up to the number of walks that
branch off to its left, and no two walks from a vertex to a sink have the same number. So the
numbers of at most `m` walks are different modulo `m`, and more than `m` walks to sinks have no
different numbers modulo `m`.

## Main definitions

* `walks`: the nonempty walks out of a vertex
* `offset`: the walks that start with an edge before the given one
* `number`: the walks to the left of a walk

## Main results

* `SourcesFirst.walks_stable`: no walk is longer than the list of vertices
* `SourcesFirst.number_lt`, `SourcesFirst.eq_of_number_eq`: different numbers below the number of walks
* `card_le_of_distinct`: how many walks can be told apart modulo `m`
-/

set_option autoImplicit false

namespace Multigraph

variable {V E : Type} {G : Multigraph V E} {u v w w' : V} {e e' : E} {es es' : List E} {l : List V}
  {n m : ℕ}

/-- The nonempty walks out of a vertex with at most `n` edges. -/
def walks (G : Multigraph V E) : ℕ → V → List (List E)
  | 0, _ => []
  | n + 1, v => (G.out v).flatMap fun e => [e] :: (G.walks n (G.target e)).map (e :: ·)

theorem mem_walks : es ∈ G.walks n v ↔ es ≠ [] ∧ es.length ≤ n ∧ ∃ w, G.Walk v es w := by
  induction n generalizing v es with
  | zero =>
    simp only [walks, List.not_mem_nil, Nat.le_zero, false_iff, List.length_eq_zero_iff]
    rintro ⟨hne, hnil, -⟩
    exact hne hnil
  | succ n ih =>
    rw [walks, List.mem_flatMap]
    constructor
    · rintro ⟨e, he, hmem⟩
      rcases List.mem_cons.mp hmem with rfl | hmem
      · exact ⟨List.cons_ne_nil _ _, by simp, _, .cons he (.nil _)⟩
      · obtain ⟨rest, hrest, rfl⟩ := List.mem_map.mp hmem
        obtain ⟨-, hlen, w, hwalk⟩ := ih.mp hrest
        exact ⟨List.cons_ne_nil _ _, Nat.succ_le_succ hlen, w, .cons he hwalk⟩
    · rintro ⟨hne, hlen, w, hwalk⟩
      cases hwalk with
      | nil => exact absurd rfl hne
      | @cons _ _ e rest he hrest =>
        refine ⟨e, he, List.mem_cons.mpr ?_⟩
        by_cases hnil : rest = []
        · exact .inl (by rw [hnil])
        · exact .inr (List.mem_map_of_mem (ih.mpr ⟨hnil, Nat.le_of_succ_le_succ hlen, w, hrest⟩))

/-- A walk starts with one of the edges, and stops there or goes on. -/
theorem length_walks_succ : (G.walks (n + 1) v).length =
    ((G.out v).map fun e => (G.walks n (G.target e)).length + 1).sum := by
  rw [walks, List.length_flatMap]
  simp only [List.length_cons, List.length_map]

/-- **No walk is longer than the list of vertices**, so a larger bound gives the same walks. -/
theorem SourcesFirst.walks_stable (h : G.SourcesFirst l) (hv : v ∈ l) (hn : l.length ≤ n) :
    G.walks n v = G.walks l.length v := by
  induction l generalizing v n with
  | nil => cases hv
  | cons x l ih =>
    rw [List.length_cons] at hn ⊢
    rcases List.mem_cons.mp hv with rfl | hv
    · obtain ⟨k, rfl⟩ : ∃ k, n = k + 1 := ⟨n - 1, by omega⟩
      have hsame : ∀ e ∈ G.out v, [e] :: (G.walks k (G.target e)).map (e :: ·) =
          [e] :: (G.walks l.length (G.target e)).map (e :: ·) := by
        intro e he
        rw [ih h.2 (h.1 e he) (by omega)]
      rw [walks, walks]
      exact List.flatMap_congr hsame
    · rw [ih h.2 hv (by omega), ih h.2 hv (Nat.le_succ _)]

/-- The walks out of a vertex of the list, by their first edge. -/
theorem SourcesFirst.length_walks (h : G.SourcesFirst l) (hv : v ∈ l) : (G.walks l.length v).length =
    ((G.out v).map fun e => (G.walks l.length (G.target e)).length + 1).sum := by
  rw [← h.walks_stable hv (Nat.le_succ _), length_walks_succ]

section Numbers

variable [DecidableEq E]

/-- How many walks of at most `n + 1` edges start with an edge before `e`. -/
def offset (G : Multigraph V E) (n : ℕ) (v : V) (e : E) : ℕ :=
  (((G.out v).takeWhile (· ≠ e)).map fun e' => (G.walks n (G.target e')).length + 1).sum

/-- How many walks branch off to the left of a walk out of `v`. -/
def number (G : Multigraph V E) (n : ℕ) : V → List E → ℕ
  | _, [] => 0
  | v, e :: es => G.offset n v e + G.number n (G.target e) es

/-- Of two entries of a list one comes before the other. -/
theorem takeWhile_ne_append {α : Type} [DecidableEq α] {a b : α} {l : List α} (ha : a ∈ l)
    (hb : b ∈ l) (hab : a ≠ b) :
    (∃ l', l.takeWhile (· ≠ b) = l.takeWhile (· ≠ a) ++ a :: l') ∨
      ∃ l', l.takeWhile (· ≠ a) = l.takeWhile (· ≠ b) ++ b :: l' := by
  induction l with
  | nil => cases ha
  | cons x l ih =>
    by_cases hxa : x = a
    · subst hxa
      exact .inl ⟨l.takeWhile (· ≠ b), by simp [hab]⟩
    · by_cases hxb : x = b
      · subst hxb
        exact .inr ⟨l.takeWhile (· ≠ a), by simp [hxa]⟩
      · have ha' := (List.mem_cons.mp ha).resolve_left (Ne.symm hxa)
        have hb' := (List.mem_cons.mp hb).resolve_left (Ne.symm hxb)
        simpa [hxa, hxb] using ih ha' hb'

theorem offset_add_le (he : e ∈ G.out v) : G.offset n v e + (G.walks n (G.target e)).length + 1 ≤
    ((G.out v).map fun e => (G.walks n (G.target e)).length + 1).sum := by
  unfold offset
  generalize G.out v = es at he ⊢
  induction es with
  | nil => cases he
  | cons x es ih =>
    by_cases hxe : x = e
    · subst hxe
      simp
    · have hrest := ih ((List.mem_cons.mp he).resolve_left (Ne.symm hxe))
      simp only [ne_eq, hxe, not_false_eq_true, decide_true, List.takeWhile_cons_of_pos,
        List.map_cons, List.sum_cons] at hrest ⊢
      omega

/-- The edges reserve intervals that do not overlap. -/
theorem offset_apart (he : e ∈ G.out v) (he' : e' ∈ G.out v) (hne : e ≠ e') :
    G.offset n v e + (G.walks n (G.target e)).length + 1 ≤ G.offset n v e' ∨
      G.offset n v e' + (G.walks n (G.target e')).length + 1 ≤ G.offset n v e := by
  unfold offset
  rcases takeWhile_ne_append he he' hne with ⟨l', hl⟩ | ⟨l', hl⟩
  · left
    rw [hl, List.map_append, List.sum_append, List.map_cons, List.sum_cons]
    omega
  · right
    rw [hl, List.map_append, List.sum_append, List.map_cons, List.sum_cons]
    omega

namespace SourcesFirst

/-- The number of a walk to a sink fits in what the edges to its start reserve. -/
theorem number_le (h : G.SourcesFirst l) (hv : v ∈ l) (hwalk : G.Walk v es w) :
    G.number l.length v es ≤ (G.walks l.length v).length := by
  induction hwalk with
  | nil v => exact Nat.zero_le _
  | @cons u w e es he _ ih =>
    have hrest := ih (h.target_mem hv he)
    have hoffset := offset_add_le (n := l.length) he
    rw [← h.length_walks hv] at hoffset
    rw [number]
    omega

/-- **The number of a walk is below the number of walks**, unless the start is a sink. -/
theorem number_lt (h : G.SourcesFirst l) (hv : v ∈ l) (hwalk : G.Walk v es w) (hw : G.IsSink w)
    (hsink : ¬ G.IsSink v) : G.number l.length v es < (G.walks l.length v).length := by
  cases hwalk with
  | nil => exact absurd hw hsink
  | @cons _ _ e es he hrest =>
    have hle := h.number_le (h.target_mem hv he) hrest
    have hoffset := offset_add_le (n := l.length) he
    rw [← h.length_walks hv] at hoffset
    rw [number]
    omega

/-- **A walk to a sink is determined by its number.** -/
theorem eq_of_number_eq (h : G.SourcesFirst l) (hv : v ∈ l) (hwalk : G.Walk v es w)
    (hwalk' : G.Walk v es' w') (hw : G.IsSink w) (hw' : G.IsSink w')
    (heq : G.number l.length v es = G.number l.length v es') : es = es' := by
  induction hwalk generalizing es' with
  | nil v => exact (hwalk'.eq_nil_of_isSink hw).symm
  | @cons v w e es he hrest ih =>
    cases hwalk' with
    | nil => exact absurd hw' (List.ne_nil_of_mem he)
    | @cons _ _ e' es' he' hrest' =>
      rw [number, number] at heq
      by_cases hee : e = e'
      · subst hee
        rw [ih (h.target_mem hv he) hrest' hw (Nat.add_left_cancel heq)]
      · have hle := h.number_le (h.target_mem hv he) hrest
        have hle' := h.number_le (h.target_mem hv he') hrest'
        have hapart := offset_apart (n := l.length) he he' hee
        omega

end SourcesFirst

end Numbers

/-- **How many walks can be told apart**: a number below `m` that is different for each of them
leaves room for at most `m`. -/
theorem card_le_of_distinct {α : Type} {S : Set α} {f : α → ℕ} (hlt : ∀ x ∈ S, f x < m)
    (hinj : ∀ x ∈ S, ∀ y ∈ S, f x = f y → x = y) : S.encard ≤ m := by
  have hmaps : Set.MapsTo f S (Finset.range m : Set ℕ) := fun x hx => by simpa using hlt x hx
  have hle := Set.encard_le_encard_of_injOn hmaps fun x hx y hy => hinj x hx y hy
  rwa [Set.encard_coe_eq_coe_finsetCard, Finset.card_range] at hle

end Multigraph
