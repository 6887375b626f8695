import Mathlib.Tactic

/-!
# Depth-first search

A depth-first search enters a vertex, searches from each successor that was not entered before, and
leaves the vertex. What a program records on the way differs; the order in which vertices are entered
and left does not. `Visits` describes the search by its log, and an executable search is compared with
it by what it records of the log.

The order in which vertices are left decides the strongly connected components: a vertex that was
left later and is reached from an earlier one has, among itself and what was left after it, a vertex
of the component of the earlier one.

## Main definitions

* `Log`: the vertices that were entered, and those that were left, the last one first
* `Visits next s vs s'`: the search from the vertices `vs` that were not entered in `s` ends in `s'`
* `explore`, `exploreAll`: the executable search over any state
* `Records`: a state that records the log
* `Ordered`: what holds of a log at any time of a search
* `Numbered`: components that were numbered in the order in which vertices were left

## Main results

* `Visits.mem_entered`: what a search enters
* `Visits.ordered`: a search keeps `Ordered`
* `Visits.joined`: what the order of a finished search says
* `Numbered.visit`: the search against the edges from the vertex that was left last enters its
  component
* `exploreAll_visits`: with enough fuel, the executable search is a search
-/

set_option autoImplicit false

namespace DepthFirst

variable {V σ : Type} {next : V → List V}

/-- The vertices entered and left so far, the last one first. -/
structure Log (V : Type) where
  entered : List V
  left : List V

namespace Log

def enter (s : Log V) (v : V) : Log V := { s with entered := v :: s.entered }

def leave (s : Log V) (v : V) : Log V := { s with left := v :: s.left }

/-- The vertex was entered and is not left yet. -/
def Open (s : Log V) (v : V) : Prop := v ∈ s.entered ∧ v ∉ s.left

theorem open_enter {s : Log V} {v w : V} (hv : v ∉ s.left) :
    (s.enter v).Open w ↔ w = v ∨ s.Open w := by
  unfold Open enter
  rw [List.mem_cons]
  constructor
  · rintro ⟨rfl | hw, hl⟩
    · exact .inl rfl
    · exact .inr ⟨hw, hl⟩
  · rintro (rfl | ⟨hw, hl⟩)
    · exact ⟨.inl rfl, hv⟩
    · exact ⟨.inr hw, hl⟩

theorem open_leave {s : Log V} {v w : V} : (s.leave v).Open w ↔ w ≠ v ∧ s.Open w := by
  unfold Open leave
  rw [List.mem_cons]
  tauto

end Log

/-- The search from the vertices of a list, one after the other. -/
inductive Visits (next : V → List V) : Log V → List V → Log V → Prop
  | nil {s : Log V} : Visits next s [] s
  | skip {s s' : Log V} {v : V} {vs : List V} (hv : v ∈ s.entered) (h : Visits next s vs s') :
      Visits next s (v :: vs) s'
  | visit {s s₁ s' : Log V} {v : V} {vs : List V} (hv : v ∉ s.entered)
      (h₁ : Visits next (s.enter v) (next v) s₁) (h : Visits next (s₁.leave v) vs s') :
      Visits next s (v :: vs) s'

/-! ## What a search enters -/

namespace Visits

variable {s s' : Log V} {vs : List V} {v w : V}

theorem entered_subset (h : Visits next s vs s') : s.entered ⊆ s'.entered := by
  induction h with
  | nil => exact fun _ hx => hx
  | skip _ _ ih => exact ih
  | visit _ _ _ ih₁ ih => exact fun _ hx => ih (ih₁ (List.mem_cons_of_mem _ hx))

theorem subset_entered (h : Visits next s vs s') : vs ⊆ s'.entered := by
  induction h with
  | nil => exact List.nil_subset _
  | skip hv h ih =>
    intro x hx
    rcases List.mem_cons.mp hx with rfl | hx
    · exact h.entered_subset hv
    · exact ih hx
  | visit _ h₁ h _ ih =>
    intro x hx
    rcases List.mem_cons.mp hx with rfl | hx
    · exact h.entered_subset (h₁.entered_subset List.mem_cons_self)
    · exact ih hx

/-- The successors of what is entered are entered. -/
theorem closed (h : Visits next s vs s') (hw : w ∈ s'.entered) (hnew : w ∉ s.entered) :
    next w ⊆ s'.entered := by
  induction h with
  | nil => exact absurd hw hnew
  | skip _ _ ih => exact ih hw hnew
  | @visit s s₁ s' v vs hv h₁ h ih₁ ih =>
    by_cases hw₁ : w ∈ s₁.entered
    · refine List.Subset.trans ?_ h.entered_subset
      by_cases hwv : w = v
      · subst hwv
        exact h₁.subset_entered
      · exact ih₁ hw₁ (by simp [Log.enter, hwv, hnew])
    · exact ih hw hw₁

/-- A walk that meets none of the vertices of `avoided` after its start. -/
def Reaches (next : V → List V) (avoided : List V) : V → V → Prop :=
  Relation.ReflTransGen fun x y => y ∈ next x ∧ y ∉ avoided

theorem Reaches.mono {xs ys : List V} (h : Reaches next ys v w) (hsub : xs ⊆ ys) :
    Reaches next xs v w :=
  Relation.ReflTransGen.mono (fun _ _ h => ⟨h.1, fun hmem => h.2 (hsub hmem)⟩) _ _ h

/-- Only what is met from the start is entered. -/
theorem reached (h : Visits next s vs s') (hw : w ∈ s'.entered) (hnew : w ∉ s.entered) :
    ∃ v ∈ vs, v ∉ s.entered ∧ Reaches next s.entered v w := by
  induction h with
  | nil => exact absurd hw hnew
  | skip _ _ ih =>
    obtain ⟨u, hu, hsu, hreach⟩ := ih hw hnew
    exact ⟨u, List.mem_cons_of_mem _ hu, hsu, hreach⟩
  | @visit s s₁ s' v vs hv h₁ h ih₁ ih =>
    have hsub : s.entered ⊆ (s.enter v).entered := fun x hx => List.mem_cons_of_mem v hx
    by_cases hw₁ : w ∈ s₁.entered
    · refine ⟨v, List.mem_cons_self, hv, ?_⟩
      by_cases hwv : w = v
      · subst hwv
        exact .refl
      · obtain ⟨u, hu, hsu, hreach⟩ := ih₁ hw₁ (by simp [Log.enter, hwv, hnew])
        exact .head ⟨hu, fun hmem => hsu (hsub hmem)⟩ (hreach.mono hsub)
    · obtain ⟨u, hu, hsu, hreach⟩ := ih hw hw₁
      have hsub₁ : s.entered ⊆ s₁.entered := fun x hx => h₁.entered_subset (hsub hx)
      exact ⟨u, List.mem_cons_of_mem v hu, fun hmem => hsu (hsub₁ hmem), hreach.mono hsub₁⟩

/-- **What a search enters**: what is met from its starts without entering what was entered. -/
theorem mem_entered (h : Visits next s vs s') : w ∈ s'.entered ↔
    w ∈ s.entered ∨ ∃ v ∈ vs, v ∉ s.entered ∧ Reaches next s.entered v w := by
  constructor
  · intro hw
    by_cases hs : w ∈ s.entered
    · exact .inl hs
    · exact .inr (h.reached hw hs)
  · rintro (hw | ⟨v, hv, hnew, hreach⟩)
    · exact h.entered_subset hw
    · -- along the way everything is entered, and nothing was before
      have hall : w ∈ s'.entered ∧ w ∉ s.entered := by
        induction hreach with
        | refl => exact ⟨h.subset_entered hv, hnew⟩
        | tail _ hstep ih => exact ⟨h.closed ih.1 ih.2 hstep.1, hstep.2⟩
      exact hall.1

end Visits

/-! ## The order of a search -/

/-- There is a walk. -/
def Leads (next : V → List V) : V → V → Prop := Relation.ReflTransGen fun x y => y ∈ next x

/-- Each of the vertices leads to the other. -/
def Joined (next : V → List V) (x y : V) : Prop := Leads next x y ∧ Leads next y x

theorem Joined.symm {x y : V} (h : Joined next x y) : Joined next y x := ⟨h.2, h.1⟩

theorem Joined.trans {x y z : V} (h : Joined next x y) (h' : Joined next y z) : Joined next x z :=
  ⟨.trans h.1 h'.1, .trans h'.2 h.2⟩

theorem Joined.refl (x : V) : Joined next x x := ⟨.refl, .refl⟩

/-- What holds of a log at any time of a search. A vertex that was left and leads to an open one is
joined to an open one; and one that leads to a vertex that was left after it is joined to that one, to
one that was left still later, or to an open one. -/
structure Ordered (next : V → List V) (s : Log V) : Prop where
  subset : s.left ⊆ s.entered
  nodup : s.left.Nodup
  closed : ∀ v ∈ s.left, next v ⊆ s.entered
  opened : ∀ u ∈ s.left, ∀ g, s.Open g → Leads next u g → ∃ z, s.Open z ∧ Joined next z u
  ranked : ∀ after v before, s.left = after ++ v :: before → ∀ u ∈ before, Leads next u v →
    ∃ z, (z ∈ after ∨ z = v ∨ s.Open z) ∧ Joined next z u

namespace Ordered

variable {s : Log V} {u v : V}

/-- A walk out of what was left meets an open vertex. -/
theorem exists_open (h : Ordered next s) (hu : u ∈ s.left) (huv : Leads next u v) (hv : v ∉ s.left) :
    ∃ g, s.Open g ∧ Leads next u g := by
  have hmeets : v ∈ s.left ∨ ∃ g, s.Open g ∧ Leads next u g := by
    induction huv with
    | refl => exact .inl hu
    | @tail x y hux hxy ih =>
      by_cases hx : x ∈ s.left
      · by_cases hy : y ∈ s.left
        · exact .inl hy
        · exact .inr ⟨y, ⟨h.closed x hx hxy, hy⟩, hux.tail hxy⟩
      · exact .inr ((ih hx).resolve_left hx)
  exact hmeets.resolve_left hv

theorem enter (h : Ordered next s) (hv : v ∉ s.entered) : Ordered next (s.enter v) := by
  have hleft : v ∉ s.left := fun hmem => hv (h.subset hmem)
  have hopen : ∀ {z}, s.Open z → (s.enter v).Open z := fun hz => (Log.open_enter hleft).mpr (.inr hz)
  refine ⟨fun x hx => List.mem_cons_of_mem v (h.subset hx), h.nodup,
    fun x hx y hy => List.mem_cons_of_mem v (h.closed x hx hy), ?_, ?_⟩
  · intro u hu g hg hug
    rcases (Log.open_enter hleft).mp hg with rfl | hg
    · obtain ⟨g', hg', hug'⟩ := h.exists_open hu hug hleft
      obtain ⟨z, hz, hzu⟩ := h.opened u hu g' hg' hug'
      exact ⟨z, hopen hz, hzu⟩
    · obtain ⟨z, hz, hzu⟩ := h.opened u hu g hg hug
      exact ⟨z, hopen hz, hzu⟩
  · intro after x before hsplit u hu hux
    obtain ⟨z, hz, hzu⟩ := h.ranked after x before hsplit u hu hux
    exact ⟨z, hz.imp_right fun hz => hz.imp_right hopen, hzu⟩

/-- A vertex that every open one leads to is left when its successors were entered. -/
theorem leave (h : Ordered next s) (hv : s.Open v) (hnext : next v ⊆ s.entered)
    (hleads : ∀ g, s.Open g → Leads next g v) : Ordered next (s.leave v) := by
  refine ⟨?_, List.nodup_cons.mpr ⟨hv.2, h.nodup⟩, ?_, ?_, ?_⟩
  · intro x hx
    rcases List.mem_cons.mp hx with rfl | hx
    · exact hv.1
    · exact h.subset hx
  · intro x hx
    rcases List.mem_cons.mp hx with rfl | hx
    · exact hnext
    · exact h.closed x hx
  · intro u hu g hg hug
    obtain ⟨-, hgs⟩ := Log.open_leave.mp hg
    rcases List.mem_cons.mp hu with rfl | hu
    · exact ⟨g, hg, hleads g hgs, hug⟩
    · obtain ⟨z, hz, hzu⟩ := h.opened u hu g hgs hug
      by_cases hzv : z = v
      · -- the open vertex above is joined to `v`, and so to `u`
        subst hzv
        exact ⟨g, hg, (hleads g hgs).trans hzu.1, hug⟩
      · exact ⟨z, Log.open_leave.mpr ⟨hzv, hz⟩, hzu⟩
  · intro after x before hsplit u hu hux
    cases after with
    | nil =>
      obtain ⟨rfl, rfl⟩ := List.cons.inj hsplit
      obtain ⟨z, hz, hzu⟩ := h.opened u hu v hv hux
      by_cases hzv : z = v
      · exact ⟨z, .inr (.inl hzv), hzu⟩
      · exact ⟨z, .inr (.inr (Log.open_leave.mpr ⟨hzv, hz⟩)), hzu⟩
    | cons y after =>
      obtain ⟨rfl, hrest⟩ := List.cons.inj hsplit
      obtain ⟨z, hz, hzu⟩ := h.ranked after x before hrest u hu hux
      refine ⟨z, ?_, hzu⟩
      rcases hz with hz | hz | hz
      · exact .inl (List.mem_cons_of_mem v hz)
      · exact .inr (.inl hz)
      · by_cases hzv : z = v
        · exact .inl (hzv ▸ List.mem_cons_self)
        · exact .inr (.inr (Log.open_leave.mpr ⟨hzv, hz⟩))

end Ordered

namespace Visits

variable {s s' : Log V} {vs : List V}

/-- **A search keeps the order**, and leaves every vertex it enters. -/
theorem ordered (h : Visits next s vs s') (hs : Ordered next s)
    (hleads : ∀ g, s.Open g → ∀ v ∈ vs, Leads next g v) :
    Ordered next s' ∧ ∀ g, s'.Open g ↔ s.Open g := by
  induction h with
  | nil => exact ⟨hs, fun _ => Iff.rfl⟩
  | skip _ _ ih => exact ih hs fun g hg x hx => hleads g hg x (List.mem_cons_of_mem _ hx)
  | @visit s s₁ s' v vs hv h₁ h ih₁ ih =>
    have hleft : v ∉ s.left := fun hmem => hv (hs.subset hmem)
    have hto : ∀ g, s.Open g → Leads next g v := fun g hg => hleads g hg v List.mem_cons_self
    obtain ⟨hs₁, hopen₁⟩ := ih₁ (hs.enter hv) fun g hg x hx => by
      rcases (Log.open_enter hleft).mp hg with rfl | hg
      · exact .single hx
      · exact (hto g hg).tail hx
    have hopen : ∀ g, s₁.Open g ↔ g = v ∨ s.Open g := fun g =>
      (hopen₁ g).trans (Log.open_enter hleft)
    have hback : ∀ g, (s₁.leave v).Open g ↔ s.Open g := fun g => by
      rw [Log.open_leave, hopen]
      constructor
      · rintro ⟨hne, hg⟩
        exact hg.resolve_left hne
      · intro hg
        exact ⟨fun hgv => hv (hgv ▸ hg.1), .inr hg⟩
    have hs₂ : Ordered next (s₁.leave v) := by
      refine hs₁.leave ((hopen v).mpr (.inl rfl)) h₁.subset_entered fun g hg => ?_
      rcases (hopen g).mp hg with rfl | hg
      · exact .refl
      · exact hto g hg
    obtain ⟨hs', hopen'⟩ := ih hs₂ fun g hg x hx =>
      hleads g ((hback g).mp hg) x (List.mem_cons_of_mem v hx)
    exact ⟨hs', fun g => (hopen' g).trans (hback g)⟩

theorem ordered_nil (next : V → List V) : Ordered next ⟨[], []⟩ where
  subset _ hx := hx
  nodup := List.nodup_nil
  closed _ hv := absurd hv List.not_mem_nil
  opened _ hu := absurd hu List.not_mem_nil
  ranked after v before h := by simp at h

/-- A search that starts with nothing leaves what it enters. -/
theorem left_iff (h : Visits next ⟨[], []⟩ vs s') {v : V} : v ∈ s'.left ↔ v ∈ s'.entered := by
  obtain ⟨hs', hopen⟩ := h.ordered (ordered_nil next) fun _ hg => absurd hg.1 List.not_mem_nil
  constructor
  · exact fun hv => hs'.subset hv
  · intro hv
    by_contra hleft
    exact List.not_mem_nil ((hopen v).mp ⟨hv, hleft⟩).1

/-- **The order of a finished search**: what leads to a vertex is joined to it or to one that was left
later. -/
theorem joined (h : Visits next ⟨[], []⟩ vs s') {after before : List V} {u v : V}
    (hsplit : s'.left = after ++ v :: before) (hu : u ∈ s'.left) (huv : Leads next u v) :
    (∃ z ∈ after, Joined next z u) ∨ Joined next v u := by
  obtain ⟨hs', hopen⟩ := h.ordered (ordered_nil next) fun _ hg => absurd hg.1 List.not_mem_nil
  rw [hsplit, List.mem_append, List.mem_cons] at hu
  rcases hu with hu | rfl | hu
  · exact .inl ⟨u, hu, .refl u⟩
  · exact .inr (.refl u)
  · obtain ⟨z, hz | rfl | hz, hzu⟩ := hs'.ranked after v before hsplit u hu huv
    · exact .inl ⟨z, hz, hzu⟩
    · exact .inr hzu
    · exact absurd ((hopen z).mp hz).1 List.not_mem_nil

end Visits

/-! ## Components -/

/-- The searches against the edges from the vertices `done` entered their components and gave each of
the numbers below `k` to one of them. No walk leads to a lower number. -/
structure Numbered (next : V → List V) (done : List V) (l : Log V) (number : V → ℕ) (k : ℕ) :
    Prop where
  entered : ∀ x, x ∈ l.entered ↔ ∃ z ∈ done, Joined next z x
  lt : ∀ x ∈ l.entered, number x < k
  onto : ∀ i < k, ∃ x ∈ l.entered, number x = i
  joined : ∀ x ∈ l.entered, ∀ y ∈ l.entered, number x = number y ↔ Joined next x y
  sorted : ∀ y ∈ l.entered, ∀ x, Leads next x y → x ∈ l.entered ∧ number x ≤ number y

namespace Numbered

variable {done : List V} {l l' : Log V} {number number' : V → ℕ} {k : ℕ} {v : V} {prev : V → List V}

/-- A vertex whose component was entered changes nothing. -/
theorem skip (h : Numbered next done l number k) (hv : v ∈ l.entered) :
    Numbered next (done ++ [v]) l number k := by
  refine ⟨fun x => ?_, h.lt, h.onto, h.joined, h.sorted⟩
  rw [h.entered]
  constructor
  · rintro ⟨z, hz, hzx⟩
    exact ⟨z, List.mem_append_left _ hz, hzx⟩
  · rintro ⟨z, hz, hzx⟩
    rcases List.mem_append.mp hz with hz | hz
    · exact ⟨z, hz, hzx⟩
    · obtain ⟨z', hz', hjoined⟩ := (h.entered v).mp hv
      rw [List.mem_singleton] at hz
      exact ⟨z', hz', hjoined.trans (hz ▸ hzx)⟩

/-- What the search against the edges meets from the next vertex is its component. -/
theorem reaches_iff (h : Numbered next done l number k) (hv : v ∉ l.entered)
    (hprev : ∀ x y, y ∈ prev x ↔ x ∈ next y)
    (hlast : ∀ u, Leads next u v → (∃ z ∈ done, Joined next z u) ∨ Joined next v u) (w : V) :
    Visits.Reaches prev l.entered v w ↔ Joined next v w := by
  constructor
  · intro hreach
    have hback : w ∉ l.entered ∧ Leads next w v := by
      induction hreach with
      | refl => exact ⟨hv, .refl⟩
      | tail _ hstep ih => exact ⟨hstep.2, .head ((hprev _ _).mp hstep.1) ih.2⟩
    refine (hlast w hback.2).resolve_left fun hdone => hback.1 ((h.entered w).mpr hdone)
  · intro hjoined
    -- along a walk between vertices of one component, nothing was entered
    have hwalk : ∀ x, Leads next w x → Leads next x v → Visits.Reaches prev l.entered x w := by
      intro x hwx
      induction hwx with
      | refl => exact fun _ => .refl
      | @tail x y hwx hxy ih =>
        intro hyv
        have hxv : Leads next x v := .head hxy hyv
        have hx : x ∉ l.entered := by
          intro hmem
          obtain ⟨z, hz, hzx⟩ := (h.entered x).mp hmem
          have hvx : Joined next v x := ⟨hjoined.1.trans hwx, hxv⟩
          exact hv ((h.entered v).mpr ⟨z, hz, hzx.trans hvx.symm⟩)
        exact .head ⟨(hprev y x).mpr hxy, hx⟩ (ih hxv)
    exact hwalk v hjoined.2 .refl

/-- A new component gets the next number. -/
theorem visit (h : Numbered next done l number k) (hv : v ∉ l.entered)
    (hprev : ∀ x y, y ∈ prev x ↔ x ∈ next y)
    (hlast : ∀ u, Leads next u v → (∃ z ∈ done, Joined next z u) ∨ Joined next v u)
    (hvisits : Visits prev l [v] l') (hold : ∀ x ∈ l.entered, number' x = number x)
    (hnew : ∀ x ∈ l'.entered, x ∉ l.entered → number' x = k) :
    Numbered next (done ++ [v]) l' number' (k + 1) := by
  have hmem : ∀ x, x ∈ l'.entered ↔ x ∈ l.entered ∨ Joined next v x := by
    intro x
    rw [hvisits.mem_entered]
    refine or_congr_right ⟨?_, fun hx => ?_⟩
    · rintro ⟨u, hu, -, hreach⟩
      rw [List.mem_singleton] at hu
      exact (h.reaches_iff hv hprev hlast x).mp (hu ▸ hreach)
    · exact ⟨v, List.mem_singleton_self v, hv, (h.reaches_iff hv hprev hlast x).mpr hx⟩
  -- what was entered before belongs to another component
  have hapart : ∀ x ∈ l.entered, ¬ Joined next v x := by
    intro x hx hjoined
    obtain ⟨z, hz, hzx⟩ := (h.entered x).mp hx
    exact hv ((h.entered v).mpr ⟨z, hz, hzx.trans hjoined.symm⟩)
  have hnumber : ∀ x, Joined next v x → number' x = k := fun x hx =>
    hnew x ((hmem x).mpr (.inr hx)) fun hold => hapart x hold hx
  have hvv : v ∈ l'.entered := (hmem v).mpr (.inr (.refl v))
  refine ⟨fun x => ?_, fun x hx => ?_, fun i hi => ?_, fun x hx y hy => ?_, fun y hy x hxy => ?_⟩
  · rw [hmem, h.entered]
    constructor
    · rintro (⟨z, hz, hzx⟩ | hx)
      · exact ⟨z, List.mem_append_left _ hz, hzx⟩
      · exact ⟨v, List.mem_append_right _ (List.mem_singleton_self v), hx⟩
    · rintro ⟨z, hz, hzx⟩
      rcases List.mem_append.mp hz with hz | hz
      · exact .inl ⟨z, hz, hzx⟩
      · rw [List.mem_singleton] at hz
        exact .inr (hz ▸ hzx)
  · rcases (hmem x).mp hx with hx | hx
    · rw [hold x hx]
      exact (h.lt x hx).trans (Nat.lt_succ_self k)
    · rw [hnumber x hx]
      exact Nat.lt_succ_self k
  · rcases Nat.lt_succ_iff_lt_or_eq.mp hi with hi | rfl
    · obtain ⟨x, hx, hxi⟩ := h.onto i hi
      exact ⟨x, (hmem x).mpr (.inl hx), (hold x hx).trans hxi⟩
    · exact ⟨v, hvv, hnumber v (.refl v)⟩
  · rcases (hmem x).mp hx with hx | hx <;> rcases (hmem y).mp hy with hy | hy
    · rw [hold x hx, hold y hy]
      exact h.joined x hx y hy
    · rw [hold x hx, hnumber y hy]
      exact iff_of_false (h.lt x hx).ne fun hxy => hapart x hx (hy.trans hxy.symm)
    · rw [hnumber x hx, hold y hy]
      exact iff_of_false (h.lt y hy).ne' fun hxy => hapart y hy (hx.trans hxy)
    · rw [hnumber x hx, hnumber y hy]
      exact iff_of_true rfl (hx.symm.trans hy)
  · rcases (hmem y).mp hy with hy | hy
    · obtain ⟨hx, hle⟩ := h.sorted y hy x hxy
      exact ⟨(hmem x).mpr (.inl hx), by rw [hold x hx, hold y hy]; exact hle⟩
    · rw [hnumber y hy]
      -- an edge into the new component comes from it or from an earlier one
      rcases hlast x (hxy.trans hy.2) with hx | hx
      · have hx := (h.entered x).mpr hx
        exact ⟨(hmem x).mpr (.inl hx), by rw [hold x hx]; exact (h.lt x hx).le⟩
      · exact ⟨(hmem x).mpr (.inr hx), (hnumber x hx).le⟩

theorem nil (number : V → ℕ) : Numbered next [] ⟨[], []⟩ number 0 where
  entered x := by simp
  lt _ hx := absurd hx List.not_mem_nil
  onto _ hi := absurd hi (Nat.not_lt_zero _)
  joined _ hx := absurd hx List.not_mem_nil
  sorted _ hy := absurd hy List.not_mem_nil

end Numbered

/-! ## The executable search -/

section Explore

variable (next) (visited : σ → V → Bool) (enter leave : V → σ → σ)

/-- Search from a vertex that was not visited. Each nested search visits a vertex more, so `n` counts
those left. -/
def explore : ℕ → σ → V → σ
  | 0, s, _ => s
  | n + 1, s, v =>
    leave v ((next v).foldl (fun s w => if visited s w then s else explore n s w) (enter v s))

/-- Search from those of the vertices that were not visited, one after the other. -/
def exploreAll (n : ℕ) (s : σ) (vs : List V) : σ :=
  vs.foldl (fun s v => if visited s v then s else explore next visited enter leave n s v) s

end Explore

variable {visited : σ → V → Bool} {enter leave : V → σ → σ} {nodes : List V} {R : Log V → σ → Prop}

/-- The state records the log, for the vertices `nodes`. -/
structure Records (visited : σ → V → Bool) (enter leave : V → σ → σ) (nodes : List V)
    (R : Log V → σ → Prop) : Prop where
  visited : ∀ l s, R l s → ∀ v ∈ nodes, visited s v = true ↔ v ∈ l.entered
  enter : ∀ l s, R l s → ∀ v ∈ nodes, v ∉ l.entered → R (l.enter v) (enter v s)
  leave : ∀ l s, R l s → ∀ v ∈ nodes, R (l.leave v) (leave v s)

/-- **The executable search is a search**, with fuel for every vertex that was not entered. -/
theorem exploreAll_visits [DecidableEq V] (hR : Records visited enter leave nodes R)
    (hnext : ∀ v ∈ nodes, next v ⊆ nodes) {n : ℕ} {l : Log V} {s : σ} {vs : List V}
    (hvs : vs ⊆ nodes) (hn : (nodes.filter (· ∉ l.entered)).length ≤ n) (hl : R l s) :
    ∃ l', Visits next l vs l' ∧ R l' (exploreAll next visited enter leave n s vs) := by
  induction n generalizing l s vs with
  | zero =>
    have hall : ∀ v ∈ nodes, v ∈ l.entered := by
      intro v hv
      by_contra hnew
      have hmem : v ∈ nodes.filter (· ∉ l.entered) := List.mem_filter.mpr ⟨hv, by simpa using hnew⟩
      have hpos := List.length_pos_of_mem hmem
      omega
    refine ⟨l, ?_⟩
    induction vs with
    | nil => exact ⟨.nil, hl⟩
    | cons v vs ih =>
      have hv := hvs List.mem_cons_self
      obtain ⟨hvisits, hrec⟩ := ih fun x hx => hvs (List.mem_cons_of_mem v hx)
      refine ⟨.skip (hall v hv) hvisits, ?_⟩
      unfold exploreAll at hrec ⊢
      rw [List.foldl_cons, if_pos ((hR.visited l s hl v hv).mpr (hall v hv))]
      exact hrec
  | succ n ihn =>
    induction vs generalizing l s with
    | nil => exact ⟨l, .nil, hl⟩
    | cons v vs ih =>
      have hv := hvs List.mem_cons_self
      have hvs' : vs ⊆ nodes := fun x hx => hvs (List.mem_cons_of_mem v hx)
      by_cases hentered : v ∈ l.entered
      · obtain ⟨l', hvisits, hrec⟩ := ih hvs' hn hl
        refine ⟨l', .skip hentered hvisits, ?_⟩
        unfold exploreAll at hrec ⊢
        rw [List.foldl_cons, if_pos ((hR.visited l s hl v hv).mpr hentered)]
        exact hrec
      · have hnot : visited s v = false := by
          rw [Bool.eq_false_iff]
          exact fun h => hentered ((hR.visited l s hl v hv).mp h)
        -- the vertex that is entered pays for the searches from its successors
        have hlt : (nodes.filter (· ∉ (l.enter v).entered)).length ≤ n := by
          have hsub : (nodes.filter (· ∉ (l.enter v).entered)).Sublist
              ((nodes.filter (· ∉ l.entered)).filter (· ≠ v)) := by
            rw [List.filter_filter]
            refine List.monotone_filter_right nodes fun x hx => ?_
            simpa [Log.enter, not_or] using hx
          have hmem : v ∈ nodes.filter (· ∉ l.entered) :=
            List.mem_filter.mpr ⟨hv, by simpa using hentered⟩
          have hdrop := List.length_filter_lt_length_iff_exists (p := (· ≠ v)).mpr
            ⟨v, hmem, by simp⟩
          have hle := hsub.length_le
          omega
        obtain ⟨l₁, hvisits₁, hrec₁⟩ := ihn (hnext v hv) hlt (hR.enter l s hl v hv hentered)
        have hmore : (nodes.filter (· ∉ (l₁.leave v).entered)).length ≤ n + 1 := by
          have hsub : (nodes.filter (· ∉ (l₁.leave v).entered)).Sublist
              (nodes.filter (· ∉ l.entered)) := by
            refine List.monotone_filter_right nodes fun x hx => ?_
            have hmono : x ∈ l.entered → x ∈ l₁.entered := fun hmem =>
              hvisits₁.entered_subset (List.mem_cons_of_mem v hmem)
            have hnot : x ∉ l₁.entered := of_decide_eq_true hx
            exact decide_eq_true fun hmem => hnot (hmono hmem)
          exact hsub.length_le.trans hn
        obtain ⟨l', hvisits, hrec⟩ := ih hvs' hmore (hR.leave _ _ hrec₁ v hv)
        refine ⟨l', .visit hentered hvisits₁ hvisits, ?_⟩
        unfold exploreAll at hrec ⊢
        rw [List.foldl_cons, if_neg (by simp [hnot])]
        exact hrec

end DepthFirst
