import Semalloc.Backend.BIBOPSpec
import Semalloc.Library.Probing

/-!
# The lazy table

`tryPutToLazyPool` answers `true` to the first `lazyOccur` loop allocations of a context, and
counts them in an open-addressing table that starts zeroed. The id `0` marks an empty slot, and
the match is tested before the emptiness: the context with id `0` is counted in the first empty
slot from slot `0`, without occupying it. A new context that takes this slot wipes the count.

## Main definitions

* `MemoryManager.tryPutAllToLazyPool`: a sequence of calls with their answers
* `LazyPool.placements`: the slots the ids of a sequence get, from the hashes alone
* `LazyPool.Displaces`: a new id takes the slot at which the id `0` is counted
* `LazyPool.CountsOccurrences`: each call is answered by the number of earlier calls of its id
* `LazyPool.Tabulates`: what the table holds after a sequence

## Main results

* `LazyPool.lazy_routing_counts`: the answers count occurrences just when no id displaces the
  count of id `0`
-/

set_option autoImplicit false

namespace Semalloc

open Effect

namespace MemoryManager

/-- Calls of `tryPutToLazyPool` one after the other, with their answers. -/
def tryPutAllToLazyPool (this : ℕ) : List Word → Proc (List Bool)
  | [] => return []
  | CSI :: rest => do
    let answer ← tryPutToLazyPool this CSI
    let answers ← tryPutAllToLazyPool this rest
    return answer :: answers

end MemoryManager

namespace LazyPool

open MemoryManager Probing

/-- The number of slots of `lazyIdentifiers`. -/
abbrev lazyN : ℕ := individualDataPoolN <<< 8

/-! ## The slots of the ids -/

/-- The first slot from `start` on that none of the placed ids has. -/
def freeSlot (placed : List (Word × ℕ)) (start : ℕ) : ℕ :=
  search lazyN (fun k => k ∉ placed.map Prod.snd) start lazyN

/-- A new id other than `0` gets the first free slot from its hash on. -/
def place (placed : List (Word × ℕ)) (CSI : Word) : List (Word × ℕ) :=
  if CSI = 0 ∨ CSI ∈ placed.map Prod.fst then placed
  else (CSI, freeSlot placed (hash CSI)) :: placed

/-- The ids of a sequence of calls, with their slots. -/
def placements (calls : List Word) : List (Word × ℕ) := calls.foldl place []

/-- After the calls `past`, the id is new and takes the first free slot from slot `0` on, where
the id `0` is counted. -/
def Displaces (past : List Word) (CSI : Word) : Prop :=
  CSI ≠ 0 ∧ CSI ∉ past ∧
    freeSlot (placements past) (hash CSI) = freeSlot (placements past) (hash 0)

instance (past : List Word) (CSI : Word) : Decidable (Displaces past CSI) :=
  inferInstanceAs (Decidable (_ ∧ _ ∧ _))

/-- The id `0` is called at most `lazyOccur` times, or no id displaces its count between two of
its calls. -/
def ZeroUndisturbed (calls : List Word) : Prop :=
  calls.count 0 ≤ lazyOccur ∨
    ∀ past CSI rest, calls = past ++ CSI :: rest → 0 ∈ past → 0 ∈ rest → ¬ Displaces past CSI

/-- Every call is answered `true` just when fewer than `lazyOccur` earlier calls had its id. -/
def CountsOccurrences (this : ℕ) (calls : List Word) (h : Heap) : Prop :=
  ∃ answers h', tryPutAllToLazyPool this calls h = .ok answers h' ∧
    answers.length = calls.length ∧
    ∀ past CSI rest, calls = past ++ CSI :: rest →
      answers[past.length]? = some (decide (past.count CSI < lazyOccur))

variable {placed : List (Word × ℕ)} {past rest recent : List Word} {CSI id : Word} {k : ℕ}

theorem placements_snoc (past : List Word) (CSI : Word) :
    placements (past ++ [CSI]) = place (placements past) CSI := by
  rw [placements, List.foldl_append]
  rfl

theorem mem_ids_iff : id ∈ (placements past).map Prod.fst ↔ id ≠ 0 ∧ id ∈ past := by
  induction past using List.reverseRecOn with
  | nil => simp [placements]
  | append_singleton past CSI ih =>
    rw [placements_snoc, place]
    split
    · rename_i hold
      rw [ih, List.mem_append, List.mem_singleton]
      refine ⟨fun h => ⟨h.1, Or.inl h.2⟩, fun ⟨hne, hmem⟩ => ?_⟩
      rcases hmem with hmem | rfl
      · exact ⟨hne, hmem⟩
      · exact ih.mp (hold.resolve_left hne)
    · rename_i hnew
      push Not at hnew
      rw [List.map_cons, List.mem_cons, ih, List.mem_append, List.mem_singleton]
      constructor
      · rintro (rfl | ⟨hne, hmem⟩)
        · exact ⟨hnew.1, Or.inr rfl⟩
        · exact ⟨hne, Or.inl hmem⟩
      · rintro ⟨hne, hmem | rfl⟩
        · exact Or.inr ⟨hne, hmem⟩
        · exact Or.inl rfl

theorem nodup_ids (past : List Word) : ((placements past).map Prod.fst).Nodup := by
  induction past using List.reverseRecOn with
  | nil => simp [placements]
  | append_singleton past CSI ih =>
    rw [placements_snoc, place]
    split
    · exact ih
    · rename_i hnew
      push Not at hnew
      rw [List.map_cons, List.nodup_cons]
      exact ⟨hnew.2, ih⟩

/-- The table has a slot for every id. -/
theorem length_placements_le (past : List Word) :
    (placements past).length ≤ past.toFinset.card := by
  have hcard : (placements past).length = ((placements past).map Prod.fst).toFinset.card := by
    rw [List.toFinset_card_of_nodup (nodup_ids past), List.length_map]
  rw [hcard]
  refine Finset.card_le_card fun id hid => ?_
  rw [List.mem_toFinset] at hid ⊢
  exact (mem_ids_iff.mp hid).2

theorem freeSlot_first (hroom : placed.length < lazyN) (start : ℕ) :
    First lazyN (fun l => l ∉ placed.map Prod.snd) start (freeSlot placed start) := by
  have hcard : (placed.map Prod.snd).toFinset.card < lazyN :=
    lt_of_le_of_lt (List.toFinset_card_le _) (by rwa [List.length_map])
  have hexists : ∃ l, First lazyN (fun l => l ∉ placed.map Prod.snd) start l :=
    First.exists_of_card hcard fun l _ hfree => by rwa [List.mem_toFinset] at hfree
  obtain ⟨l, hl⟩ := hexists
  rwa [freeSlot, search_first hl]

theorem place_of_seen (hseen : CSI = 0 ∨ CSI ∈ past) :
    placements (past ++ [CSI]) = placements past := by
  rw [placements_snoc, place, if_pos]
  by_cases hzero : CSI = 0
  · exact Or.inl hzero
  · exact Or.inr (mem_ids_iff.mpr ⟨hzero, hseen.resolve_left hzero⟩)

theorem place_of_new (hne : CSI ≠ 0) (hnew : CSI ∉ past) :
    placements (past ++ [CSI]) =
      (CSI, freeSlot (placements past) (hash CSI)) :: placements past := by
  rw [placements_snoc, place, if_neg]
  rw [mem_ids_iff]
  tauto

/-! ## The calls since the last displacement -/

/-- `recent` are the calls of `past` after the last that displaced the count of the id `0`. -/
inductive Recent : List Word → List Word → Prop
  | nil : Recent [] []
  | keep {past recent : List Word} {CSI : Word} :
      Recent past recent → ¬ Displaces past CSI → Recent (past ++ [CSI]) (recent ++ [CSI])
  | displaced {past : List Word} {CSI : Word} :
      Displaces past CSI → Recent (past ++ [CSI]) []

theorem Recent.count_le (h : Recent past recent) (id : Word) :
    recent.count id ≤ past.count id := by
  induction h with
  | nil => exact le_rfl
  | keep _ _ ih =>
    rw [List.count_append, List.count_append]
    exact Nat.add_le_add_right ih _
  | displaced _ => exact Nat.zero_le _

/-- The recent calls are all calls, or those after a displacement. -/
theorem Recent.cases_eq (h : Recent past recent) :
    recent = past ∨ ∃ a CSI, past = a ++ CSI :: recent ∧ Displaces a CSI := by
  induction h with
  | nil => exact Or.inl rfl
  | keep _ _ ih =>
    rcases ih with rfl | ⟨a, d, rfl, hd⟩
    · exact Or.inl rfl
    · exact Or.inr ⟨a, d, by simp, hd⟩
  | displaced hd => exact Or.inr ⟨_, _, rfl, hd⟩

/-- The recent calls lie after every displacement. -/
theorem Recent.suffix (h : Recent past recent) {a b : List Word}
    (hpast : past = a ++ CSI :: b) (hd : Displaces a CSI) : recent <:+ b := by
  induction h generalizing b with
  | nil => simp at hpast
  | @keep past recent c _ hkeep ih =>
    rcases List.eq_nil_or_concat b with rfl | ⟨b, e, rfl⟩
    · -- the last call would be the displacement
      obtain ⟨rfl, hc⟩ := List.append_inj' hpast rfl
      cases hc
      exact absurd hd hkeep
    · have hsplit : past ++ [c] = (a ++ CSI :: b) ++ [e] := by simpa using hpast
      obtain ⟨hinit, hlast⟩ := List.append_inj' hsplit rfl
      cases hlast
      obtain ⟨pre, hpre⟩ := ih hinit
      exact ⟨pre, by rw [← hpre, List.concat_eq_append, List.append_assoc]⟩
  | displaced _ => exact List.nil_suffix

/-! ## What the table holds -/

/-- The slot a probe for the id stops at. -/
def Stops (table : ℕ → LazyElement) (CSI : Word) (k : ℕ) : Prop :=
  First lazyN (fun l => (table l).CSI = CSI ∨ (table l).CSI = 0) (hash CSI) k

/-- The table after the calls `past`: every placed id is found at its slot with its count, and
the other slots are empty. The first of them from slot `0` on counts the id `0`. -/
structure Tabulates (table : ℕ → LazyElement) (past recent : List Word) : Prop where
  since : Recent past recent
  stops : ∀ id k, (id, k) ∈ placements past → Stops table id k ∧ (table k).CSI = id
  count : ∀ id k, (id, k) ∈ placements past →
    (table k).occurCount.toNat = min lazyOccur (past.count id)
  blank : ∀ k < lazyN, k ∉ (placements past).map Prod.snd → (table k).CSI = 0
  zero : ∀ k < lazyN, k ∉ (placements past).map Prod.snd →
    (table k).occurCount.toNat =
      if k = freeSlot (placements past) (hash 0) then min lazyOccur (recent.count 0) else 0

variable {table : ℕ → LazyElement}

theorem Tabulates.initial : Tabulates (fun _ => ⟨0, 0⟩) [] [] where
  since := .nil
  stops _ _ hmem := by simp [placements] at hmem
  count _ _ hmem := by simp [placements] at hmem
  blank _ _ _ := rfl
  zero _ _ _ := by
    rw [List.count_nil, Nat.min_zero, ite_self]
    rfl

namespace Tabulates

theorem slot_mem (h : Tabulates table past recent) (hk : k < lazyN) (hne : (table k).CSI ≠ 0) :
    ((table k).CSI, k) ∈ placements past := by
  have htaken : k ∈ (placements past).map Prod.snd := by
    by_contra hfree
    exact hne (h.blank k hk hfree)
  obtain ⟨⟨id, l⟩, hmem, rfl⟩ := List.mem_map.mp htaken
  rw [(h.stops id l hmem).2]
  exact hmem

theorem empty_iff (h : Tabulates table past recent) (hk : k < lazyN) :
    (table k).CSI = 0 ↔ k ∉ (placements past).map Prod.snd := by
  refine ⟨fun hzero htaken => ?_, h.blank k hk⟩
  obtain ⟨⟨id, l⟩, hmem, rfl⟩ := List.mem_map.mp htaken
  rw [(h.stops id l hmem).2] at hzero
  exact (mem_ids_iff.mp (List.mem_map_of_mem hmem)).1 hzero

/-- An id that is not placed, the id `0` among them, stops at the first free slot. -/
theorem stops_of_not_placed (h : Tabulates table past recent)
    (hnot : CSI ∉ (placements past).map Prod.fst) (hroom : (placements past).length < lazyN) :
    Stops table CSI (freeSlot (placements past) (hash CSI)) := by
  refine (freeSlot_first hroom (hash CSI)).congr fun l hl => ?_
  rw [h.empty_iff hl |>.symm]
  refine ⟨fun hp => ?_, Or.inr⟩
  rcases hp with hp | hp
  · by_contra hne
    have hmem := List.mem_map_of_mem (f := Prod.fst) (h.slot_mem hl hne)
    rw [hp] at hmem
    exact hnot hmem
  · exact hp

/-- Another count at a slot leaves every probe and every id where it is. -/
theorem stops_update (h : Tabulates table past recent) {n : BitVec 8} {l : ℕ}
    (hmem : (id, l) ∈ placements past) :
    Stops (Function.update table k { table k with occurCount := n }) id l ∧
      (Function.update table k { table k with occurCount := n } l).CSI = id := by
  have hsame : ∀ l, (Function.update table k { table k with occurCount := n } l).CSI =
      (table l).CSI := by
    intro l
    by_cases hl : l = k
    · subst hl
      rw [Function.update_self]
    · rw [Function.update_of_ne hl]
  obtain ⟨hstop, hid⟩ := h.stops id l hmem
  refine ⟨hstop.congr fun i _ => by rw [hsame], ?_⟩
  rw [hsame, hid]

theorem count_zero_snoc (hne : CSI ≠ 0) : (recent ++ [CSI]).count 0 = recent.count 0 := by
  rw [List.count_append, List.count_singleton, if_neg (by simpa using hne), Nat.add_zero]

/-- A placed id is called again. -/
theorem step_placed (h : Tabulates table past recent) (hmem : (CSI, k) ∈ placements past)
    {n : BitVec 8} (hn : n.toNat = min lazyOccur (past.count CSI + 1)) :
    Tabulates (Function.update table k { table k with occurCount := n }) (past ++ [CSI])
      (recent ++ [CSI]) := by
  obtain ⟨hne, hpast⟩ := mem_ids_iff.mp (List.mem_map_of_mem hmem)
  have hsame := place_of_seen (Or.inr hpast)
  refine ⟨h.since.keep fun hd => hd.2.1 hpast, fun id l hl => ?_, fun id l hl => ?_,
    fun l hl hfree => ?_, fun l hl hfree => ?_⟩
  · rw [hsame] at hl
    exact h.stops_update hl
  · rw [hsame] at hl
    rw [List.count_append]
    by_cases hid : id = CSI
    · -- the slot of an id is unique
      subst hid
      have hslot := (h.stops id l hl).1.unique (h.stops id k hmem).1
      subst hslot
      rw [Function.update_self, List.count_singleton_self]
      exact hn
    · have hother : l ≠ k := by
        rintro rfl
        exact hid ((h.stops id l hl).2.symm.trans (h.stops CSI l hmem).2)
      rw [Function.update_of_ne hother, h.count id l hl, List.count_singleton,
        if_neg (by simpa using fun heq => hid heq.symm), Nat.add_zero]
  · rw [hsame] at hfree
    have hother : l ≠ k := fun heq => hfree (heq ▸ List.mem_map_of_mem hmem)
    rw [Function.update_of_ne hother]
    exact h.blank l hl hfree
  · rw [hsame] at hfree ⊢
    have hother : l ≠ k := fun heq => hfree (heq ▸ List.mem_map_of_mem hmem)
    rw [Function.update_of_ne hother, count_zero_snoc hne]
    exact h.zero l hl hfree

/-- The id `0` is called. -/
theorem step_zero (h : Tabulates table past recent) (hroom : (placements past).length < lazyN)
    (hk : k = freeSlot (placements past) (hash 0)) {n : BitVec 8}
    (hn : n.toNat = min lazyOccur (recent.count 0 + 1)) :
    Tabulates (Function.update table k { table k with occurCount := n }) (past ++ [0])
      (recent ++ [0]) := by
  have hsame : placements (past ++ [0]) = placements past := place_of_seen (Or.inl rfl)
  have hfirst := freeSlot_first hroom (hash 0)
  rw [← hk] at hfirst
  refine ⟨h.since.keep fun hd => hd.1 rfl, fun id l hl => ?_, fun id l hl => ?_,
    fun l hl hfree => ?_, fun l hl hfree => ?_⟩
  · rw [hsame] at hl
    exact h.stops_update hl
  · rw [hsame] at hl
    have hother : l ≠ k := fun heq => hfirst.holds (heq ▸ List.mem_map_of_mem hl)
    have hid : id ≠ 0 := (mem_ids_iff.mp (List.mem_map_of_mem hl)).1
    rw [Function.update_of_ne hother, List.count_append, List.count_singleton,
      if_neg (by simpa using hid.symm), Nat.add_zero]
    exact h.count id l hl
  · rw [hsame] at hfree
    by_cases hother : l = k
    · subst hother
      rw [Function.update_self]
      exact h.blank l hl hfree
    · rw [Function.update_of_ne hother]
      exact h.blank l hl hfree
  · rw [hsame] at hfree ⊢
    by_cases hother : l = k
    · subst hother
      rw [Function.update_self, if_pos hk, List.count_append, List.count_singleton_self]
      exact hn
    · rw [Function.update_of_ne hother, if_neg (fun heq => hother (heq.trans hk.symm))]
      have hcount := h.zero l hl hfree
      rwa [if_neg (fun heq => hother (heq.trans hk.symm))] at hcount

/-- A new id takes its slot, and wipes the count of the id `0` if it was kept there. -/
theorem step_new (h : Tabulates table past recent) (hne : CSI ≠ 0) (hnew : CSI ∉ past)
    (hroom : (placements past).length + 1 < lazyN)
    (hk : k = freeSlot (placements past) (hash CSI)) :
    Tabulates (Function.update table k ⟨CSI, 1⟩) (past ++ [CSI])
      (if Displaces past CSI then [] else recent ++ [CSI]) := by
  have hplaced := place_of_new hne hnew
  rw [← hk] at hplaced
  have hfirst := freeSlot_first (Nat.lt_of_succ_lt hroom) (hash CSI)
  rw [← hk] at hfirst
  have hother : ∀ {id l}, (id, l) ∈ placements past → l ≠ k := fun hl heq =>
    hfirst.holds (heq ▸ List.mem_map_of_mem hl)
  have hnot : CSI ∉ (placements past).map Prod.fst := fun hmem => hnew (mem_ids_iff.mp hmem).2
  refine ⟨?_, fun id l hl => ?_, fun id l hl => ?_, fun l hl hfree => ?_, fun l hl hfree => ?_⟩
  · split
    · rename_i hd
      exact .displaced hd
    · rename_i hd
      exact h.since.keep hd
  · rw [hplaced, List.mem_cons] at hl
    rcases hl with heq | hl
    · -- the new id stops at the slot it took: the slots before it have other ids
      obtain ⟨rfl, rfl⟩ := Prod.mk.inj heq
      have hstop := h.stops_of_not_placed hnot (Nat.lt_of_succ_lt hroom)
      rw [← hk] at hstop
      refine ⟨hstop.mono (Or.inl (by rw [Function.update_self])) fun i hi hp => ?_,
        by rw [Function.update_self]⟩
      by_cases hik : i = l
      · subst hik
        exact Or.inr (h.blank i hi hfirst.holds)
      · rwa [Function.update_of_ne hik] at hp
    · obtain ⟨hstop, hid⟩ := h.stops id l hl
      have hidne : id ≠ CSI := fun heq => hnot (heq ▸ List.mem_map_of_mem hl)
      refine ⟨hstop.mono (Or.inl ?_) fun i _ hp => ?_, ?_⟩
      · rw [Function.update_of_ne (hother hl), hid]
      · by_cases hik : i = k
        · subst hik
          rw [Function.update_self] at hp
          rcases hp with hp | hp
          · exact absurd hp.symm hidne
          · exact absurd hp hne
        · rwa [Function.update_of_ne hik] at hp
      · rw [Function.update_of_ne (hother hl), hid]
  · rw [hplaced, List.mem_cons] at hl
    rw [List.count_append]
    rcases hl with heq | hl
    · obtain ⟨rfl, rfl⟩ := Prod.mk.inj heq
      rw [Function.update_self, List.count_eq_zero_of_not_mem hnew, List.count_singleton_self]
      rfl
    · have hidne : id ≠ CSI := fun heq => hnot (heq ▸ List.mem_map_of_mem hl)
      rw [Function.update_of_ne (hother hl), h.count id l hl, List.count_singleton,
        if_neg (by simpa using fun heq => hidne heq.symm), Nat.add_zero]
  · rw [hplaced, List.map_cons, List.mem_cons, not_or] at hfree
    rw [Function.update_of_ne hfree.1]
    exact h.blank l hl hfree.2
  · rw [hplaced, List.map_cons, List.mem_cons, not_or] at hfree
    rw [Function.update_of_ne hfree.1, h.zero l hl hfree.2, hplaced]
    have hzero := freeSlot_first (Nat.lt_of_succ_lt hroom) (hash 0)
    by_cases hd : Displaces past CSI
    · -- the slot that counted the id `0` is taken, and no other free slot has a count
      rw [if_pos hd, List.count_nil, Nat.min_zero, ite_self, if_neg]
      rintro rfl
      exact hfree.1 (hd.2.2.symm.trans hk.symm)
    · have hkeep : freeSlot ((CSI, k) :: placements past) (hash 0) =
          freeSlot (placements past) (hash 0) := by
        have hroom' : ((CSI, k) :: placements past).length < lazyN := hroom
        refine (freeSlot_first hroom' (hash 0)).unique (hzero.mono ?_ fun i _ hi => ?_)
        · rw [List.map_cons, List.mem_cons, not_or]
          exact ⟨fun heq => hd ⟨hne, hnew, (heq.trans hk).symm⟩, hzero.holds⟩
        · rw [List.map_cons, List.mem_cons, not_or] at hi
          exact hi.2
      rw [if_neg hd, count_zero_snoc hne, hkeep]

end Tabulates

/-! ## One call -/

variable {this n : ℕ} {h : Heap} {m : MemoryManager} {post : Bool → Heap → Prop}
  {halt : Halt → Prop}

/-- What a call does at the slot `k` it stops at, told by its effect on the table. -/
structure AtSlot (this : ℕ) (m : MemoryManager) (CSI : Word) (k : ℕ) (h : Heap)
    (post : Bool → Heap → Prop) : Prop where
  counted : (m.lazyIdentifiers k).CSI = CSI →
    (m.lazyIdentifiers k).occurCount.toNat < lazyOccur →
    post true (h.setManager this { m with
      lazyIdentifiers := Function.update m.lazyIdentifiers k { m.lazyIdentifiers k with
        occurCount := (m.lazyIdentifiers k).occurCount + 1 } })
  spent : (m.lazyIdentifiers k).CSI = CSI →
    ¬ (m.lazyIdentifiers k).occurCount.toNat < lazyOccur → post false h
  entered : (m.lazyIdentifiers k).CSI ≠ CSI →
    post true (h.setManager this { m with
      lazyIdentifiers := Function.update m.lazyIdentifiers k ⟨CSI, 1⟩ })

/-- The probing loop acts at the slot it stops at. -/
theorem probeLazyPool_spec {i : ℕ} (hm : h.globalMemoryManager this = some m)
    (hi : i < lazyN) (hn : n ≤ lazyN) (hleft : lazyN - n ≤ i)
    (hp : (m.lazyIdentifiers ((i + hash CSI) % lazyN)).CSI = CSI ∨
      (m.lazyIdentifiers ((i + hash CSI) % lazyN)).CSI = 0)
    (hbefore : ∀ j < i, ¬ ((m.lazyIdentifiers ((j + hash CSI) % lazyN)).CSI = CSI ∨
      (m.lazyIdentifiers ((j + hash CSI) % lazyN)).CSI = 0))
    (hslot : AtSlot this m CSI ((i + hash CSI) % lazyN) h post) :
    Spec (probeLazyPool this CSI n) h post halt := by
  induction n with
  | zero => omega
  | succ n ih =>
    unfold probeLazyPool
    dsimp only
    refine Spec.bind (getManager_spec hm ?_)
    by_cases heq : lazyN - (n + 1) = i
    · subst heq
      refine Spec.ite (fun hid => Spec.ite (fun hlt => ?_) fun hge => ?_) fun hid =>
        Spec.ite (fun _ => ?_) fun hzero => ?_
      · exact Spec.bind (setManager_spec (Spec.pure (hslot.counted hid hlt)))
      · exact Spec.pure (hslot.spent hid hge)
      · exact Spec.bind (setManager_spec (Spec.pure (hslot.entered hid)))
      · exact absurd hp (not_or.mpr ⟨hid, hzero⟩)
    · have hskip := not_or.mp (hbefore (lazyN - (n + 1)) (by omega))
      refine Spec.ite (fun hid => absurd hid hskip.1) fun _ =>
        Spec.ite (fun hzero => absurd hzero hskip.2) fun _ => ?_
      exact ih (by omega) (by omega)

theorem tryPutToLazyPool_stops (hm : h.globalMemoryManager this = some m)
    (hstop : Stops m.lazyIdentifiers CSI k) (hslot : AtSlot this m CSI k h post) :
    Spec (tryPutToLazyPool this CSI) h post halt := by
  obtain ⟨i, hi, rfl, hp, hbefore⟩ := hstop
  exact probeLazyPool_spec hm hi le_rfl ((Nat.sub_self lazyN).le.trans (Nat.zero_le i)) hp hbefore
    hslot

/-- How often the table has counted the id. -/
def seen (past recent : List Word) (CSI : Word) : ℕ :=
  if CSI = 0 then recent.count 0 else past.count CSI

theorem occurCount_succ {c : BitVec 8} (hc : c.toNat < lazyOccur) :
    (c + 1).toNat = c.toNat + 1 := by
  have hsmall : c.toNat < 2 := hc
  rw [BitVec.toNat_add]
  show (c.toNat + 1) % 256 = c.toNat + 1
  omega

/-- The table after a call, whose answer tells how often it had counted the id. -/
def Counted (this : ℕ) (past recent : List Word) (CSI : Word) (answer : Bool) (h : Heap) : Prop :=
  answer = decide (seen past recent CSI < lazyOccur) ∧
    ∃ m recent', h.globalMemoryManager this = some m ∧
      Tabulates m.lazyIdentifiers (past ++ [CSI]) recent'

/-- A call that stops at a slot with the count of its id. -/
theorem atSlot_counted (hm : h.globalMemoryManager this = some m)
    (hid : (m.lazyIdentifiers k).CSI = CSI)
    (hcount : (m.lazyIdentifiers k).occurCount.toNat = min lazyOccur (seen past recent CSI))
    (hstep : ∀ c : BitVec 8, c.toNat = min lazyOccur (seen past recent CSI + 1) →
      Tabulates (Function.update m.lazyIdentifiers k { m.lazyIdentifiers k with
        occurCount := c }) (past ++ [CSI]) (recent ++ [CSI])) :
    AtSlot this m CSI k h (Counted this past recent CSI) := by
  refine ⟨fun _ hlt => ⟨?_, _, _, Function.update_self _ _ _, hstep _ ?_⟩,
    fun _ hge => ⟨?_, m, recent ++ [CSI], hm, ?_⟩, fun hne => absurd hid hne⟩
  · have hless : seen past recent CSI < lazyOccur := by omega
    rw [decide_eq_true hless]
  · rw [occurCount_succ hlt]
    omega
  · have hless : ¬ seen past recent CSI < lazyOccur := by omega
    rw [decide_eq_false hless]
  · have hsame := hstep (m.lazyIdentifiers k).occurCount (by omega)
    rwa [Function.update_eq_self] at hsame

/-- **What one call does**: the answer tells the count of the id, and the table goes on to hold
what it should. -/
theorem tryPutToLazyPool_counted (ht : Tabulates m.lazyIdentifiers past recent)
    (hm : h.globalMemoryManager this = some m)
    (hroom : (past ++ [CSI]).toFinset.card < lazyN) :
    Spec (tryPutToLazyPool this CSI) h (Counted this past recent CSI) halt := by
  have hafter := (length_placements_le (past ++ [CSI])).trans_lt hroom
  by_cases hzero : CSI = 0
  · subst hzero
    rw [place_of_seen (Or.inl rfl)] at hafter
    have hnot : 0 ∉ (placements past).map Prod.fst := fun hmem => (mem_ids_iff.mp hmem).1 rfl
    have hfirst := freeSlot_first hafter (hash 0)
    refine tryPutToLazyPool_stops hm (ht.stops_of_not_placed hnot hafter) ?_
    refine atSlot_counted hm (ht.blank _ hfirst.lt hfirst.holds) ?_ fun c hc => ?_
    · rw [ht.zero _ hfirst.lt hfirst.holds, if_pos rfl]
      rfl
    · exact ht.step_zero hafter rfl hc
  · have hseen : seen past recent CSI = past.count CSI := if_neg hzero
    by_cases hpast : CSI ∈ past
    · obtain ⟨⟨id, k⟩, hmem, rfl⟩ := List.mem_map.mp (mem_ids_iff.mpr ⟨hzero, hpast⟩)
      refine tryPutToLazyPool_stops hm (ht.stops _ _ hmem).1 ?_
      refine atSlot_counted hm (ht.stops _ _ hmem).2 ?_ fun c hc => ?_
      · rw [ht.count _ _ hmem, hseen]
      · rw [hseen] at hc
        exact ht.step_placed hmem hc
    · have hnot : CSI ∉ (placements past).map Prod.fst :=
        fun hmem => hpast (mem_ids_iff.mp hmem).2
      rw [place_of_new hzero hpast, List.length_cons] at hafter
      have hfirst := freeSlot_first (Nat.lt_of_succ_lt hafter) (hash CSI)
      have hblank := ht.blank _ hfirst.lt hfirst.holds
      refine tryPutToLazyPool_stops hm
        (ht.stops_of_not_placed hnot (Nat.lt_of_succ_lt hafter)) ?_
      refine ⟨fun hid => absurd (hid.symm.trans hblank) hzero,
        fun hid => absurd (hid.symm.trans hblank) hzero, fun _ => ⟨?_, _, _,
          Function.update_self _ _ _, ht.step_new hzero hpast hafter rfl⟩⟩
      rw [hseen, List.count_eq_zero_of_not_mem hpast]
      rfl

/-! ## Sequences of calls -/

/-- Each answer of a sequence tells whether the table had counted the id often enough. -/
theorem tryPutAllToLazyPool_counted (ht : Tabulates m.lazyIdentifiers past recent)
    (hm : h.globalMemoryManager this = some m)
    (hroom : (past ++ rest).toFinset.card < lazyN) :
    Spec (tryPutAllToLazyPool this rest) h
      (fun answers _ => answers.length = rest.length ∧
        ∀ a CSI b, rest = a ++ CSI :: b → ∃ recent', Recent (past ++ a) recent' ∧
          answers[a.length]? = some (decide (seen (past ++ a) recent' CSI < lazyOccur))) halt := by
  induction rest generalizing h m past recent with
  | nil =>
    refine Spec.pure ⟨rfl, fun a CSI b hsplit => ?_⟩
    simp at hsplit
  | cons CSI rest ih =>
    have hfirst : (past ++ [CSI]).toFinset.card < lazyN := by
      refine lt_of_le_of_lt (Finset.card_le_card fun id hid => ?_) hroom
      rw [List.mem_toFinset, List.mem_append, List.mem_singleton] at hid
      rw [List.mem_toFinset, List.mem_append, List.mem_cons]
      exact hid.imp_right Or.inl
    unfold tryPutAllToLazyPool
    refine Spec.seq (tryPutToLazyPool_counted ht hm hfirst) ?_
    rintro answer h₁ ⟨hanswer, m₁, recent₁, hm₁, ht₁⟩
    refine Spec.seq (ih ht₁ hm₁ (by rwa [List.append_assoc, List.singleton_append])) ?_
    rintro answers h₂ ⟨hlength, hanswers⟩
    refine Spec.pure ⟨by rw [List.length_cons, List.length_cons, hlength], ?_⟩
    intro a c b hsplit
    cases a with
    | nil =>
      obtain ⟨rfl, -⟩ := List.cons.inj hsplit
      refine ⟨recent, by rw [List.append_nil]; exact ht.since, ?_⟩
      rw [List.append_nil, List.length_nil, List.getElem?_cons_zero, hanswer]
    | cons d a =>
      obtain ⟨rfl, htail⟩ := List.cons.inj hsplit
      obtain ⟨recent', hrecent, hget⟩ := hanswers a c b htail
      rw [List.append_assoc, List.singleton_append] at hrecent hget
      exact ⟨recent', hrecent, by rw [List.length_cons, List.getElem?_cons_succ, hget]⟩

/-! ## When the answers count occurrences -/

/-- An element that occurs more than `n` times has an occurrence after just `n` others. -/
theorem exists_occurrence {l : List Word} {n : ℕ} (hn : n < l.count id) :
    ∃ a b, l = a ++ id :: b ∧ a.count id = n := by
  induction l generalizing n with
  | nil => simp at hn
  | cons d l ih =>
    by_cases hd : d = id
    · subst hd
      cases n with
      | zero => exact ⟨[], l, rfl, rfl⟩
      | succ n =>
        rw [List.count_cons_self] at hn
        obtain ⟨a, b, rfl, hcount⟩ := ih (Nat.lt_of_succ_lt_succ hn)
        exact ⟨d :: a, b, rfl, by rw [List.count_cons_self, hcount]⟩
    · rw [List.count_cons_of_ne hd] at hn
      obtain ⟨a, b, rfl, hcount⟩ := ih hn
      exact ⟨d :: a, b, rfl, by rw [List.count_cons_of_ne hd, hcount]⟩

/-- Undisturbed, the table's count tells whether an id was called often enough. -/
theorem ZeroUndisturbed.seen_iff (h : ZeroUndisturbed (past ++ CSI :: rest))
    (hrecent : Recent past recent) :
    seen past recent CSI < lazyOccur ↔ past.count CSI < lazyOccur := by
  by_cases hzero : CSI = 0
  · subst hzero
    rw [seen, if_pos rfl]
    refine ⟨fun hlt => ?_, fun hlt => (hrecent.count_le 0).trans_lt hlt⟩
    rcases hrecent.cases_eq with rfl | ⟨a, d, rfl, hd⟩
    · exact hlt
    · rcases h with hfew | hnone
      · rw [List.count_append, List.count_cons_self] at hfew
        omega
      · -- no call of the id `0` precedes the displacement
        have hbefore : 0 ∉ a := fun ha =>
          hnone a d (recent ++ 0 :: rest) (by simp) ha (by simp) hd
        rwa [List.count_append, List.count_eq_zero_of_not_mem hbefore,
          List.count_cons_of_ne hd.1, Nat.zero_add]
  · rw [seen, if_neg hzero]

/-- A displacement between calls of the id `0` makes the table forget one call too many. -/
theorem exists_forgotten {calls : List Word} (h : ¬ ZeroUndisturbed calls) :
    ∃ past rest, calls = past ++ 0 :: rest ∧ lazyOccur ≤ past.count 0 ∧
      ∀ recent, Recent past recent → recent.count 0 < lazyOccur := by
  unfold ZeroUndisturbed at h
  push Not at h
  obtain ⟨hmany, past, CSI, rest, rfl, hpast, hrest, hd⟩ := h
  have hold : 0 < past.count 0 := List.count_pos_iff.mpr hpast
  have hlater : 0 < rest.count 0 := List.count_pos_iff.mpr hrest
  rw [List.count_append, List.count_cons_of_ne hd.1] at hmany
  have hroom : max (past.count 0) lazyOccur - past.count 0 < rest.count 0 := by omega
  obtain ⟨mid, b, rfl, hmid⟩ := exists_occurrence hroom
  refine ⟨past ++ CSI :: mid, b, by simp, ?_, fun recent hrecent => ?_⟩
  · rw [List.count_append, List.count_cons_of_ne hd.1, hmid]
    omega
  · have hle := (hrecent.suffix rfl hd).sublist.count_le 0
    have hpos : 0 < lazyOccur := by decide
    omega

/-- **Lazy routing**: on a zeroed table with room for the ids, each call is answered by how
often its id was called before, just when no id displaces the count of the id `0`. -/
theorem lazy_routing_counts {calls : List Word} (hm : h.globalMemoryManager this = some m)
    (hzeroed : ∀ k, m.lazyIdentifiers k = ⟨0, 0⟩) (hroom : calls.toFinset.card < 2 ^ 22) :
    CountsOccurrences this calls h ↔ ZeroUndisturbed calls := by
  have htable : Tabulates m.lazyIdentifiers [] [] := by
    rw [funext hzeroed]
    exact .initial
  have hall : ([] ++ calls).toFinset.card < lazyN := hroom
  obtain ⟨answers, h', hrun, hlength, hanswers⟩ :=
    (tryPutAllToLazyPool_counted htable hm hall).exists_ok
  constructor
  · rintro ⟨answers', h'', hrun', -, hcounts⟩
    obtain ⟨rfl, rfl⟩ : answers = answers' ∧ h' = h'' := by
      rw [hrun] at hrun'
      exact EStateM.Result.ok.inj hrun'
    by_contra hnot
    obtain ⟨past, rest, hsplit, hmany, hforgot⟩ := exists_forgotten hnot
    obtain ⟨recent, hrecent, hget⟩ := hanswers past 0 rest hsplit
    rw [hcounts past 0 rest hsplit, Option.some_inj, decide_eq_decide, List.nil_append, seen,
      if_pos rfl] at hget
    have hlt := hget.mpr (hforgot recent hrecent)
    omega
  · intro hundisturbed
    refine ⟨answers, h', hrun, hlength, fun past CSI rest hsplit => ?_⟩
    obtain ⟨recent, hrecent, hget⟩ := hanswers past CSI rest hsplit
    rw [List.nil_append] at hrecent hget
    subst hsplit
    rw [hget, decide_eq_decide.mpr (hundisturbed.seen_iff hrecent)]

/-- A manager whose tables are as `InitMemoryManager` leaves them. -/
def zeroedManager : MemoryManager where
  individualDataPool _ := ⟨0, 0, 0⟩
  lazyIdentifiers _ := ⟨0, 0⟩
  metadataPool := ⟨0, 0, 0⟩
  globalBIBOP _ := 0
  individualDatPoolBump := 0
  individualBIBOP _ := ⟨fun _ => allOnes, BitVec.ofNat 64 allOnes⟩
  freeList := 0
  threadId := 0

def zeroedHeap : Heap :=
  (Config.initial (bumpKernel 0 .excluded)).heap.setManager 0 zeroedManager

/-- The contexts `7` and `65543` have the same hash. -/
theorem lazy_routing_counts_collision :
    CountsOccurrences 0 [7, 65543, 0, 7, 0, 65543, 7] zeroedHeap := by
  have hm : zeroedHeap.globalMemoryManager 0 = some zeroedManager := rfl
  exact (lazy_routing_counts hm (fun _ => rfl) (by decide)).mpr (Or.inl (by decide))

/-- The context `65536` has the hash of the id `0` and takes the slot at which it is counted: the
third call of the id `0` is answered `true`. -/
theorem zero_id_forgotten : ¬ CountsOccurrences 0 [0, 0, 65536, 0] zeroedHeap := by
  have hrun : ∃ h', tryPutAllToLazyPool 0 [0, 0, 65536, 0] zeroedHeap =
      .ok [true, true, true, true] h' := ⟨_, rfl⟩
  rintro ⟨answers, h', hanswers, -, hcounts⟩
  obtain ⟨h'', hrun⟩ := hrun
  obtain ⟨rfl, -⟩ := EStateM.Result.ok.inj (hrun.symm.trans hanswers)
  have hlast := hcounts [0, 0, 65536] 0 [] rfl
  simp [lazyOccur] at hlast

end LazyPool

end Semalloc
