import Mathlib.Tactic
import Mathlib.Data.List.Sort

/-!
# Ordered sets, ordered maps, shared objects and searches

Sets and maps keep their keys sorted and without repetition, so that walking over them visits the
keys in order. A list of pairs is a map that has the first pair of each key. Objects are shared by
pointers, so a change through one pointer is seen through every other: a store maps the pointers to
the objects, and a change of one object leaves the others.

A breadth-first search takes the next name off its queue; unless it was visited, it is noted, kept
when it is wanted, and the names next to it are queued. Only so many names can be queued in all, so a
search with enough steps empties its queue.

## Main definitions

* `insertKey`, `insertKeys`: insertion in a sorted list without repetition
* `KeyMap`: a map and its keys in order
* `modifyAt`, `modifyAll`: a change of one object, and of many, one after the other
* `Search`: the queue, what was visited and what was found
* `Search.run next wanted n`: at most `n` steps of a search
* `Search.finish keys next wanted`: a search with enough steps

## Main results

* `Association.lookup_filter`: taking out pairs of other keys
* `modifyAll_of_mem`: when no pointer repeats, every listed object is changed once
* `Search.finish_queue`: the search empties its queue
* `Search.mem_finish_visited`: what a search visits
* `Search.mem_finish_found_iff`: what a search finds
* `Search.mem_finish_found`: what a search finds is wanted
* `Search.finish_found_induction`: what holds along a search holds of what it finds
-/

set_option autoImplicit false

section Sets

variable {κ : Type} [LinearOrder κ] {x y : κ} {s l : List κ}

def insertKey (x : κ) (s : List κ) : List κ := if x ∈ s then s else s.orderedInsert (· ≤ ·) x

@[simp] theorem mem_insertKey : y ∈ insertKey x s ↔ y = x ∨ y ∈ s := by
  unfold insertKey
  split
  · rename_i hx
    constructor
    · exact Or.inr
    · rintro (rfl | hy)
      · exact hx
      · exact hy
  · exact List.mem_orderedInsert _

theorem nodup_insertKey (hs : s.Nodup) : (insertKey x s).Nodup := by
  unfold insertKey
  split
  · exact hs
  · rename_i hx
    exact (List.perm_orderedInsert _ x s).nodup_iff.mpr (List.nodup_cons.mpr ⟨hx, hs⟩)

theorem pairwise_insertKey (hs : s.Pairwise (· < ·)) : (insertKey x s).Pairwise (· < ·) := by
  unfold insertKey
  split
  · exact hs
  · rename_i hx
    have hle : (s.orderedInsert (· ≤ ·) x).Pairwise (· ≤ ·) :=
      List.Pairwise.orderedInsert x s (hs.imp le_of_lt)
    have hnodup : (s.orderedInsert (· ≤ ·) x).Nodup :=
      (List.perm_orderedInsert _ x s).nodup_iff.mpr
        (List.nodup_cons.mpr ⟨hx, hs.imp fun h => h.ne⟩)
    exact (List.Pairwise.and hle hnodup).imp fun h => lt_of_le_of_ne h.1 h.2

/-- Insert one key after the other. -/
def insertKeys (l s : List κ) : List κ := l.foldl (fun s x => insertKey x s) s

@[simp] theorem mem_insertKeys : y ∈ insertKeys l s ↔ y ∈ l ∨ y ∈ s := by
  unfold insertKeys
  induction l generalizing s with
  | nil => simp
  | cons x l ih =>
    rw [List.foldl_cons, ih, mem_insertKey, List.mem_cons]
    tauto

theorem nodup_insertKeys (hs : s.Nodup) : (insertKeys l s).Nodup := by
  unfold insertKeys
  induction l generalizing s with
  | nil => exact hs
  | cons x l ih => exact ih (nodup_insertKey hs)

theorem pairwise_insertKeys (hs : s.Pairwise (· < ·)) : (insertKeys l s).Pairwise (· < ·) := by
  unfold insertKeys
  induction l generalizing s with
  | nil => exact hs
  | cons x l ih => exact ih (pairwise_insertKey hs)

end Sets

/-- A map and its keys in order. What it gives for other keys is a default value. -/
structure KeyMap (κ β : Type) where
  keys : List κ
  get : κ → β

namespace KeyMap

variable {κ β : Type} [LinearOrder κ] {m : KeyMap κ β} {k k' : κ} {v : β}

def empty (v : β) : KeyMap κ β := ⟨[], fun _ => v⟩

/-- The values in the order of the keys. -/
def values (m : KeyMap κ β) : List β := m.keys.map m.get

def insert (m : KeyMap κ β) (k : κ) (v : β) : KeyMap κ β :=
  ⟨insertKey k m.keys, Function.update m.get k v⟩

@[simp] theorem mem_insert_keys : k' ∈ (m.insert k v).keys ↔ k' = k ∨ k' ∈ m.keys := mem_insertKey

@[simp] theorem insert_get_self : (m.insert k v).get k = v := Function.update_self ..

theorem insert_get_of_ne (h : k' ≠ k) : (m.insert k v).get k' = m.get k' :=
  Function.update_of_ne h ..

/-- Every value a map gives for a key it does not have is the default. -/
def Outside (m : KeyMap κ β) (d : β) : Prop := ∀ k ∉ m.keys, m.get k = d

theorem Outside.insert {d : β} (h : m.Outside d) : (m.insert k v).Outside d := by
  intro k' hk'
  rw [mem_insert_keys, not_or] at hk'
  rw [insert_get_of_ne hk'.1]
  exact h k' hk'.2

theorem nodup_insert_keys (hm : m.keys.Nodup) : (m.insert k v).keys.Nodup := nodup_insertKey hm

end KeyMap

namespace Association

variable {α β : Type} [BEq α] [LawfulBEq α] {m : List (α × β)} {k k' : α} {v : β}

theorem mem_of_lookup (h : m.lookup k = some v) : (k, v) ∈ m := by
  obtain ⟨l₁, l₂, rfl, -⟩ := List.lookup_eq_some_iff.mp h
  exact List.mem_append_right _ List.mem_cons_self

theorem lookup_cons_of_ne (hk : k ≠ k') : ((k', v) :: m).lookup k = m.lookup k := by
  rw [List.lookup_cons, beq_false_of_ne hk]

theorem lookup_filter {keep : α × β → Bool} (hkeep : ∀ v, keep (k, v) = true) :
    (m.filter keep).lookup k = m.lookup k := by
  induction m with
  | nil => rfl
  | cons x m ih =>
    obtain ⟨k', v⟩ := x
    by_cases hk : k = k'
    · subst hk
      rw [List.filter_cons_of_pos (hkeep v), List.lookup_cons_self, List.lookup_cons_self]
    · rw [lookup_cons_of_ne hk, List.filter_cons]
      split
      · rw [lookup_cons_of_ne hk, ih]
      · exact ih

theorem exists_lookup (h : (k, v) ∈ m) : ∃ v', m.lookup k = some v' ∧ (k, v') ∈ m := by
  cases hlookup : m.lookup k with
  | none =>
    have hne := List.lookup_eq_none_iff.mp hlookup (k, v) h
    simp at hne
  | some v' => exact ⟨v', rfl, mem_of_lookup hlookup⟩

end Association

section Objects

variable {α β : Type} [DecidableEq α] {m : α → β} {g : β → β} {p q : α} {l : List α}

/-- Change the object at `p`. -/
def modifyAt (m : α → β) (p : α) (g : β → β) : α → β := Function.update m p (g (m p))

@[simp] theorem modifyAt_self : modifyAt m p g p = g (m p) := Function.update_self ..

theorem modifyAt_of_ne (h : q ≠ p) : modifyAt m p g q = m q := Function.update_of_ne h ..

/-- Change the objects at the pointers of `l`, one after the other. -/
def modifyAll (m : α → β) (l : List α) (g : α → β → β) : α → β :=
  l.foldl (fun m p => modifyAt m p (g p)) m

variable {g : α → β → β}

theorem modifyAll_cons : modifyAll m (p :: l) g = modifyAll (modifyAt m p (g p)) l g := rfl

theorem modifyAll_append {l' : List α} :
    modifyAll m (l ++ l') g = modifyAll (modifyAll m l g) l' g := List.foldl_append

theorem modifyAll_of_not_mem (h : q ∉ l) : modifyAll m l g q = m q := by
  induction l generalizing m with
  | nil => rfl
  | cons p l ih =>
    obtain ⟨hqp, hq⟩ := List.ne_and_not_mem_of_not_mem_cons h
    rw [modifyAll_cons, ih hq, modifyAt_of_ne hqp]

/-- When no pointer repeats, every listed object is changed once. -/
theorem modifyAll_of_mem (hl : l.Nodup) (h : q ∈ l) : modifyAll m l g q = g q (m q) := by
  induction l generalizing m with
  | nil => cases h
  | cons p l ih =>
    obtain ⟨hp, hl⟩ := List.nodup_cons.mp hl
    rw [modifyAll_cons]
    rcases List.mem_cons.mp h with rfl | hq
    · rw [modifyAll_of_not_mem hp, modifyAt_self]
    · have hqp : q ≠ p := by
        rintro rfl
        exact hp hq
      rw [ih hl hq, modifyAt_of_ne hqp]

theorem modifyAll_congr {g' : α → β → β} (h : ∀ p ∈ l, g p = g' p) :
    modifyAll m l g = modifyAll m l g' := by
  induction l generalizing m with
  | nil => rfl
  | cons p l ih =>
    rw [modifyAll_cons, modifyAll_cons, h p List.mem_cons_self]
    exact ih fun q hq => h q (List.mem_cons_of_mem p hq)

/-- A loop over lists of pointers is a loop over all their pointers. -/
theorem foldl_modifyAll {γ : Type} (ks : List γ) (f : γ → List α) (h : γ → α → β → β)
    (hg : ∀ k ∈ ks, ∀ p ∈ f k, h k p = g p) :
    ks.foldl (fun m k => modifyAll m (f k) (h k)) m = modifyAll m (ks.flatMap f) g := by
  induction ks generalizing m with
  | nil => rfl
  | cons k ks ih =>
    rw [List.foldl_cons, List.flatMap_cons, modifyAll_append,
      ih fun k' hk' => hg k' (List.mem_cons_of_mem k hk'), modifyAll_congr (hg k List.mem_cons_self)]

/-- What every change keeps, all of them keep. -/
theorem modifyAll_invariant {γ : Type} (f : β → γ) (hf : ∀ p b, f (g p b) = f b) (q : α) :
    f (modifyAll m l g q) = f (m q) := by
  induction l generalizing m with
  | nil => rfl
  | cons p l ih =>
    rw [modifyAll_cons, ih]
    by_cases hqp : q = p
    · subst hqp
      rw [modifyAt_self, hf]
    · rw [modifyAt_of_ne hqp]

/-- A property that every change keeps holds of every object that had it. -/
theorem modifyAll_induction {P : β → Prop} (hg : ∀ p b, P b → P (g p b)) (q : α) (hq : P (m q)) :
    P (modifyAll m l g q) := by
  induction l generalizing m with
  | nil => exact hq
  | cons p l ih =>
    rw [modifyAll_cons]
    refine ih ?_
    by_cases hqp : q = p
    · subst hqp
      rw [modifyAt_self]
      exact hg q _ hq
    · rw [modifyAt_of_ne hqp]
      exact hq

end Objects

/-! ## Searches -/

/-- The state of a breadth-first search. -/
structure Search (κ : Type) where
  queue : List κ
  visited : List κ
  found : List κ

namespace Search

variable {κ : Type} [LinearOrder κ] {next : κ → List κ} {wanted : κ → Bool} {keys : List κ}
  {s : Search κ} {x : κ}

/-- Take the next name off the queue. -/
def step (next : κ → List κ) (wanted : κ → Bool) (s : Search κ) : Search κ :=
  match s.queue with
  | [] => s
  | x :: queue =>
    if x ∈ s.visited then { s with queue := queue }
    else
      let visited := insertKey x s.visited
      { queue := queue ++ (next x).filter (· ∉ visited)
        visited := visited
        found := if wanted x then insertKey x s.found else s.found }

/-- At most `n` steps. -/
def run (next : κ → List κ) (wanted : κ → Bool) : ℕ → Search κ → Search κ
  | 0, s => s
  | n + 1, s => if s.queue = [] then s else run next wanted n (s.step next wanted)

/-- A search among `keys`, with as many steps as names can be queued. -/
def finish (keys : List κ) (next : κ → List κ) (wanted : κ → Bool) (s : Search κ) : Search κ :=
  s.run next wanted (s.queue.length + (keys.flatMap next).length)

/-- What every step keeps, a run keeps. -/
theorem run_invariant {I : Search κ → Prop} (hstep : ∀ s, I s → I (s.step next wanted)) (hs : I s)
    (n : ℕ) : I (s.run next wanted n) := by
  induction n generalizing s with
  | zero => exact hs
  | succ n ih =>
    unfold run
    split
    · exact hs
    · exact ih (hstep s hs)

/-! ## Termination -/

/-- The steps a search can still take: the names that are queued, and those that will be. -/
def pending (keys : List κ) (next : κ → List κ) (s : Search κ) : ℕ :=
  s.queue.length + ((keys.filter (· ∉ s.visited)).flatMap next).length

/-- A name that is visited queues no more names. -/
theorem length_flatMap_visit (hx : x ∉ s.visited) (hkeys : ∀ y ∉ keys, next y = [])
    (hnodup : keys.Nodup) :
    ((keys.filter (· ∉ insertKey x s.visited)).flatMap next).length + (next x).length =
      ((keys.filter (· ∉ s.visited)).flatMap next).length := by
  by_cases hmem : x ∈ keys
  · -- split the keys at the visited name
    obtain ⟨l, r, rfl⟩ := List.append_of_mem hmem
    have hrest : ∀ k : List κ, x ∉ k → k.filter (· ∉ insertKey x s.visited) =
        k.filter (· ∉ s.visited) := by
      intro k hk
      refine List.filter_congr fun y hy => ?_
      have hyx : y ≠ x := by
        rintro rfl
        exact hk hy
      simp [hyx]
    have hl : x ∉ l := by
      intro hl
      exact (List.disjoint_of_nodup_append hnodup) hl List.mem_cons_self
    have hr : x ∉ r := (List.nodup_cons.mp hnodup.of_append_right).1
    rw [List.filter_append, List.filter_append, List.filter_cons_of_neg (by simp),
      List.filter_cons_of_pos (by simpa using hx), hrest l hl, hrest r hr]
    simp only [List.flatMap_append, List.flatMap_cons, List.length_append]
    omega
  · have hkeep : keys.filter (· ∉ insertKey x s.visited) = keys.filter (· ∉ s.visited) := by
      refine List.filter_congr fun y hy => ?_
      have hyx : y ≠ x := by
        rintro rfl
        exact hmem hy
      simp [hyx]
    rw [hkeep, hkeys x hmem]
    rfl

theorem pending_step (hs : s.queue ≠ []) (hkeys : ∀ y ∉ keys, next y = []) (hnodup : keys.Nodup) :
    (s.step next wanted).pending keys next < s.pending keys next := by
  unfold step pending
  cases hq : s.queue with
  | nil => exact absurd hq hs
  | cons x queue =>
    by_cases hx : x ∈ s.visited
    · simp only [if_pos hx, List.length_cons]
      omega
    · have hlen := length_flatMap_visit hx hkeys hnodup
      have hfilter := List.length_filter_le (· ∉ insertKey x s.visited) (next x)
      simp only [if_neg hx, List.length_cons, List.length_append]
      omega

/-- **A search empties its queue.** -/
theorem finish_queue (hkeys : ∀ y ∉ keys, next y = []) (hnodup : keys.Nodup) :
    (s.finish keys next wanted).queue = [] := by
  have hrun : ∀ n (s : Search κ), s.pending keys next ≤ n → (s.run next wanted n).queue = [] := by
    intro n
    induction n with
    | zero =>
      intro s hs
      unfold pending at hs
      exact List.length_eq_zero_iff.mp (by rw [run]; omega)
    | succ n ih =>
      intro s hs
      unfold run
      split
      · assumption
      · rename_i hq
        have hlt : (s.step next wanted).pending keys next < s.pending keys next :=
          pending_step hq hkeys hnodup
        exact ih _ (by omega)
  refine hrun _ s ?_
  have hsub : (keys.filter (· ∉ s.visited)).Sublist keys := List.filter_sublist
  have hle := (hsub.flatMap next).length_le
  unfold pending
  omega

/-! ## What a search visits -/

/-- The names `x` that are met from `q` without entering `avoided`. -/
def Reaches (next : κ → List κ) (avoided : List κ) : κ → κ → Prop :=
  Relation.ReflTransGen fun x y => y ∈ next x ∧ y ∉ avoided

/-- What holds while a search runs that started in `s`. -/
structure Running (next : κ → List κ) (wanted : κ → Bool) (s t : Search κ) : Prop where
  kept : ∀ x ∈ s.visited, x ∈ t.visited
  queued : ∀ x ∈ s.queue, x ∈ t.visited ∨ x ∈ t.queue
  closed : ∀ x ∈ t.visited, x ∉ s.visited → ∀ y ∈ next x, y ∈ t.visited ∨ y ∈ t.queue
  visitedReached : ∀ x ∈ t.visited, x ∉ s.visited →
    ∃ q ∈ s.queue, q ∉ s.visited ∧ Reaches next s.visited q x
  queueReached : ∀ x ∈ t.queue, x ∉ s.visited →
    ∃ q ∈ s.queue, q ∉ s.visited ∧ Reaches next s.visited q x
  found : ∀ x, x ∈ t.found ↔ x ∈ s.found ∨ x ∈ t.visited ∧ x ∉ s.visited ∧ wanted x = true

omit [LinearOrder κ] in
theorem Running.refl (s : Search κ) : Running next wanted s s where
  kept _ hx := hx
  queued _ hx := .inr hx
  closed x hx hnew := absurd hx hnew
  visitedReached x hx hnew := absurd hx hnew
  queueReached x hx hnew := ⟨x, hx, hnew, .refl⟩
  found x := by
    constructor
    · exact Or.inl
    · rintro (hx | ⟨hx, hnew, -⟩)
      · exact hx
      · exact absurd hx hnew

theorem Running.step {t : Search κ} (h : Running next wanted s t) :
    Running next wanted s (t.step next wanted) := by
  unfold Search.step
  cases hq : t.queue with
  | nil => exact h
  | cons x queue =>
    have hx : x ∈ t.queue := hq ▸ List.mem_cons_self
    have hrest : ∀ y, y ∈ t.queue ↔ y = x ∨ y ∈ queue := fun y => hq ▸ List.mem_cons
    by_cases hv : x ∈ t.visited
    · simp only [if_pos hv]
      have hdrop : ∀ y, y ∈ t.visited ∨ y ∈ t.queue → y ∈ t.visited ∨ y ∈ queue := by
        rintro y (hy | hy)
        · exact .inl hy
        · rcases (hrest y).mp hy with rfl | hy
          · exact .inl hv
          · exact .inr hy
      exact { h with
        queued := fun y hy => hdrop y (h.queued y hy)
        closed := fun y hy hnew z hz => hdrop z (h.closed y hy hnew z hz)
        queueReached := fun y hy => h.queueReached y ((hrest y).mpr (.inr hy)) }
    · simp only [if_neg hv]
      -- the name that is taken was not visited before the search either
      have hnew : x ∉ s.visited := fun hs => hv (h.kept x hs)
      obtain ⟨q, hqs, hqnew, hreach⟩ := h.queueReached x hx hnew
      have hmove : ∀ y, y ∈ t.visited ∨ y ∈ t.queue → y ∈ insertKey x t.visited ∨
          y ∈ queue ++ (next x).filter (· ∉ insertKey x t.visited) := by
        rintro y (hy | hy)
        · exact .inl (mem_insertKey.mpr (.inr hy))
        · rcases (hrest y).mp hy with rfl | hy
          · exact .inl (mem_insertKey.mpr (.inl rfl))
          · exact .inr (List.mem_append_left _ hy)
      refine {
        kept := fun y hy => mem_insertKey.mpr (.inr (h.kept y hy))
        queued := fun y hy => hmove y (h.queued y hy)
        closed := ?_
        visitedReached := ?_
        queueReached := ?_
        found := ?_ }
      · intro y hy hynew z hz
        rcases mem_insertKey.mp hy with rfl | hy
        · by_cases hzv : z ∈ insertKey y t.visited
          · exact .inl hzv
          · exact .inr (List.mem_append_right _ (List.mem_filter.mpr ⟨hz, decide_eq_true hzv⟩))
        · exact hmove z (h.closed y hy hynew z hz)
      · intro y hy hynew
        rcases mem_insertKey.mp hy with rfl | hy
        · exact ⟨q, hqs, hqnew, hreach⟩
        · exact h.visitedReached y hy hynew
      · intro y hy hynew
        rcases List.mem_append.mp hy with hy | hy
        · exact h.queueReached y ((hrest y).mpr (.inr hy)) hynew
        · exact ⟨q, hqs, hqnew, hreach.tail ⟨(List.mem_filter.mp hy).1, hynew⟩⟩
      · intro y
        have hfound : y ∈ (if wanted x then insertKey x t.found else t.found) ↔
            (y = x ∧ wanted x = true) ∨ y ∈ t.found := by
          split
          · rename_i hw
            simp [hw]
          · rename_i hw
            simp [hw]
        rw [hfound, h.found y, mem_insertKey]
        constructor
        · rintro (⟨rfl, hw⟩ | hy | ⟨hy, hrest⟩)
          · exact .inr ⟨.inl rfl, hnew, hw⟩
          · exact .inl hy
          · exact .inr ⟨.inr hy, hrest⟩
        · rintro (hy | ⟨rfl | hy, hynew, hw⟩)
          · exact .inr (.inl hy)
          · exact .inl ⟨rfl, hw⟩
          · exact .inr (.inr ⟨hy, hynew, hw⟩)

theorem running_finish : Running next wanted s (s.finish keys next wanted) :=
  run_invariant (I := Running next wanted s) (fun _ h => h.step) (.refl s) _

/-- **What a search visits**: what is met from the queue without entering what was visited. -/
theorem mem_finish_visited (hkeys : ∀ y ∉ keys, next y = []) (hnodup : keys.Nodup) :
    x ∈ (s.finish keys next wanted).visited ↔ x ∈ s.visited ∨
      ∃ q ∈ s.queue, q ∉ s.visited ∧ Reaches next s.visited q x := by
  have h : Running next wanted s (s.finish keys next wanted) := running_finish
  have hqueue : (s.finish keys next wanted).queue = [] := finish_queue hkeys hnodup
  constructor
  · intro hx
    by_cases hs : x ∈ s.visited
    · exact .inl hs
    · exact .inr (h.visitedReached x hx hs)
  · rintro (hx | ⟨q, hq, hqnew, hreach⟩)
    · exact h.kept x hx
    · -- along the way everything is visited, and nothing was before
      have hnotQueued : ∀ y, y ∉ (s.finish keys next wanted).queue := by simp [hqueue]
      have hall : x ∈ (s.finish keys next wanted).visited ∧ x ∉ s.visited := by
        induction hreach with
        | refl => exact ⟨(h.queued q hq).resolve_right (hnotQueued q), hqnew⟩
        | tail _ hstep ih =>
          exact ⟨(h.closed _ ih.1 ih.2 _ hstep.1).resolve_right (hnotQueued _), hstep.2⟩
      exact hall.1

/-- **What a search finds**: what is wanted of what it visits. -/
theorem mem_finish_found_iff : x ∈ (s.finish keys next wanted).found ↔ x ∈ s.found ∨
    x ∈ (s.finish keys next wanted).visited ∧ x ∉ s.visited ∧ wanted x = true :=
  running_finish.found x

/-- When what was visited is closed, a search visits everything that is reached. -/
theorem mem_finish_visited_of_closed (hkeys : ∀ y ∉ keys, next y = []) (hnodup : keys.Nodup)
    (hclosed : ∀ x ∈ s.visited, ∀ y ∈ next x, y ∈ s.visited) :
    x ∈ (s.finish keys next wanted).visited ↔ x ∈ s.visited ∨
      ∃ q ∈ s.queue, Relation.ReflTransGen (fun x y => y ∈ next x) q x := by
  rw [mem_finish_visited hkeys hnodup]
  constructor
  · rintro (hx | ⟨q, hq, -, hreach⟩)
    · exact .inl hx
    · exact .inr ⟨q, hq, Relation.ReflTransGen.mono (fun _ _ h => h.1) q x hreach⟩
  · rintro (hx | ⟨q, hq, hreach⟩)
    · exact .inl hx
    · by_cases hqv : q ∈ s.visited
      · left
        induction hreach with
        | refl => exact hqv
        | tail _ hstep ih => exact hclosed _ ih _ hstep
      · have hsplit : x ∈ s.visited ∨ Reaches next s.visited q x := by
          induction hreach with
          | refl => exact .inr .refl
          | @tail y z _ hstep ih =>
            rcases ih with hy | hy
            · exact .inl (hclosed y hy z hstep)
            · by_cases hz : z ∈ s.visited
              · exact .inl hz
              · exact .inr (hy.tail ⟨hstep, hz⟩)
        rcases hsplit with hx | hx
        · exact .inl hx
        · exact .inr ⟨q, hq, hqv, hx⟩

/-! ## What a search finds -/

theorem mem_step_found (h : x ∈ (s.step next wanted).found) : x ∈ s.found ∨ wanted x = true := by
  unfold step at h
  split at h
  · exact .inl h
  · split at h
    · exact .inl h
    · dsimp only at h
      split at h
      · rename_i hw
        rcases mem_insertKey.mp h with rfl | h
        · exact .inr hw
        · exact .inl h
      · exact .inl h

theorem mem_finish_found (h : x ∈ (s.finish keys next wanted).found) :
    x ∈ s.found ∨ wanted x = true := by
  have hinv : ∀ y ∈ (s.finish keys next wanted).found, y ∈ s.found ∨ wanted y = true := by
    refine run_invariant (I := fun t => ∀ y ∈ t.found, y ∈ s.found ∨ wanted y = true) ?_
      (fun y hy => .inl hy) _
    intro t ht y hy
    rcases mem_step_found hy with hy | hy
    · exact ht y hy
    · exact .inr hy
  exact hinv x h

/-- What holds of the queue, and of what comes next, holds of everything that is found. -/
theorem finish_found_induction {P : κ → Prop} (hqueue : ∀ x ∈ s.queue, P x)
    (hnext : ∀ x, ∀ y ∈ next x, P y) (hfound : ∀ x ∈ s.found, P x) :
    ∀ x ∈ (s.finish keys next wanted).found, P x := by
  have hinv : (∀ x ∈ (s.finish keys next wanted).queue, P x) ∧
      ∀ x ∈ (s.finish keys next wanted).found, P x := by
    refine run_invariant (I := fun t => (∀ x ∈ t.queue, P x) ∧ ∀ x ∈ t.found, P x) ?_
      ⟨hqueue, hfound⟩ _
    rintro t ⟨htq, htf⟩
    unfold step
    cases hq : t.queue with
    | nil => exact ⟨htq, htf⟩
    | cons x queue =>
      have hx : P x := htq x (hq ▸ List.mem_cons_self)
      have hrest : ∀ y ∈ queue, P y := fun y hy => htq y (hq ▸ List.mem_cons_of_mem x hy)
      by_cases hv : x ∈ t.visited
      · simp only [if_pos hv]
        exact ⟨hrest, htf⟩
      · simp only [if_neg hv]
        refine ⟨fun y hy => ?_, fun y hy => ?_⟩
        · rcases List.mem_append.mp hy with hy | hy
          · exact hrest y hy
          · exact hnext x y (List.mem_of_mem_filter hy)
        · split at hy
          · rcases mem_insertKey.mp hy with rfl | hy
            · exact hx
            · exact htf y hy
          · exact htf y hy
  exact hinv.2

theorem nodup_finish_found (h : s.found.Nodup) : (s.finish keys next wanted).found.Nodup := by
  refine run_invariant (I := fun t => t.found.Nodup) ?_ h _
  intro t ht
  unfold step
  split
  · exact ht
  · split
    · exact ht
    · dsimp only
      split
      · exact nodup_insertKey ht
      · exact ht

end Search
