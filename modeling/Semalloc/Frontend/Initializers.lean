import Semalloc.Frontend.Notes

/-!
# What is noted of an initializer

An initializer is searched for functions, each value before the values it is made of. A function is
noted in the value that it is an operand of and, going outwards, in the containers of that value. A
value that is in several places is taken to be where it was met last.

## Main definitions

* `initOrder`: the values of an initializer in the order of the search
* `OnlyIn`: a value that is in one place of the initializer

## Main results

* `confineContainers_adds`: a function is noted in all containers, also if they lie in a cycle
* `typeConfineInInitializer_adds`: each function of an initializer is noted
-/

set_option autoImplicit false

namespace Semalloc

namespace MLTA

variable {p : Program} {s : MLTA} {F U O : Value} {info : FunctionInfo} {h : Hash}

/-! ## Containers -/

section Containers

variable {C : Containers} {fuel i : ℕ} {CV v w : Value} {Visited users : List Value} {Ini : Value}

/-- The next value that the search for containers goes to. -/
def Climbs (C : Containers) (v w : Value) : Prop := ∃ i, C.lookup v = some (w, i)

/-- The containers that a search has not passed. -/
def unpassed (C : Containers) (Visited : List Value) : ℕ :=
  ((C.map Prod.fst).dedup.filter (· ∉ Visited)).length

theorem unpassed_cons (hlookup : ∃ c, C.lookup CV = some c) (hnew : CV ∉ Visited) :
    unpassed C (CV :: Visited) < unpassed C Visited := by
  obtain ⟨c, hlookup⟩ := hlookup
  unfold unpassed
  have hsub : ((C.map Prod.fst).dedup.filter (· ∉ CV :: Visited)).Sublist
      ((C.map Prod.fst).dedup.filter (· ∉ Visited)) := by
    refine List.monotone_filter_right _ fun v hv => ?_
    simp only [decide_eq_true_eq, List.mem_cons, not_or] at hv ⊢
    exact hv.2
  refine lt_of_le_of_ne hsub.length_le fun heq => ?_
  -- the value that is passed is in the second list only
  have hmem : CV ∈ (C.map Prod.fst).dedup.filter (· ∉ Visited) :=
    List.mem_filter.mpr ⟨List.mem_dedup.mpr (List.mem_map.mpr ⟨_, Association.mem_of_lookup hlookup, rfl⟩),
      decide_eq_true hnew⟩
  rw [← hsub.eq_of_length heq] at hmem
  simp at hmem

/-- The function is noted in the container of `v`. -/
def NotedIn (p : Program) (C : Containers) (F : Value) (s : MLTA) (v : Value) : Prop :=
  ∀ U i, C.lookup v = some (U, i) → ∀ h ∈ containerHashes p U,
    ((h, (i : ℤ)), F) ∈ s.typeIdxFuncsMap

/-- **The search for containers** notes the function in all containers from the inside out, also
where they lie in each other in a cycle. -/
theorem confineContainers_adds (hfuel : unpassed C Visited < fuel) (hnew : CV ∉ Visited)
    (hvisited : ∀ v ∈ Visited, NotedIn p C F s v ∧ ∀ w, Climbs C v w → w ∈ Visited ∨ w = CV)
    (hw : Relation.ReflTransGen (Climbs C) CV w) :
    NotedIn p C F (confineContainers p F C fuel CV Visited s) w := by
  induction fuel generalizing CV Visited s with
  | zero => exact absurd hfuel (Nat.not_lt_zero _)
  | succ fuel ih =>
    unfold confineContainers
    cases hlookup : C.lookup CV with
    | none =>
      rcases Relation.ReflTransGen.cases_head hw with rfl | ⟨v, ⟨i, hv⟩, -⟩
      · intro U i hU
        simp [hlookup] at hU
      · simp [hlookup] at hv
    | some c =>
      obtain ⟨U, i⟩ := c
      dsimp only
      have hhashes : ∀ (s : MLTA) (TyH : Hash), Noted s (s.insertFunc (TyH, (i : ℤ)) F) :=
        fun _ _ => insertFunc_noted
      have hstep : Noted s ((containerHashes p U).foldl
          (fun s TyH => s.insertFunc (TyH, (i : ℤ)) F) s) := Noted.foldl fun s TyH _ => hhashes s TyH
      have hown : NotedIn p C F ((containerHashes p U).foldl
          (fun s TyH => s.insertFunc (TyH, (i : ℤ)) F) s) CV := by
        intro U' i' hU' h hh
        obtain ⟨rfl, rfl⟩ := Prod.mk.inj (Option.some.inj (hlookup.symm.trans hU'))
        obtain ⟨t, -, hafter⟩ := Noted.foldl_at (s := s) (fun s TyH _ => hhashes s TyH) hh
        exact hafter.funcs mem_insertFunc
      have hnext : ∀ w, Climbs C CV w → w = U := by
        rintro w ⟨j, hj⟩
        exact (Prod.mk.inj (Option.some.inj (hj.symm.trans hlookup))).1
      -- what was passed, with the value that is passed now
      have hpassed : ∀ v ∈ CV :: Visited, NotedIn p C F ((containerHashes p U).foldl
          (fun s TyH => s.insertFunc (TyH, (i : ℤ)) F) s) v ∧
            ∀ w, Climbs C v w → w ∈ CV :: Visited ∨ w = U := by
        intro v hv
        rcases List.mem_cons.mp hv with rfl | hv
        · exact ⟨hown, fun w hw => .inr (hnext w hw)⟩
        · refine ⟨fun U' i' hU' h hh => hstep.funcs ((hvisited v hv).1 U' i' hU' h hh), ?_⟩
          intro w hw
          rcases (hvisited v hv).2 w hw with hw | rfl
          · exact .inl (List.mem_cons_of_mem _ hw)
          · exact .inl List.mem_cons_self
      split
      · rename_i hcycle
        -- the containers lie in a cycle, and all of it was passed
        have hall : w ∈ CV :: Visited := by
          clear ih
          induction hw with
          | refl => exact List.mem_cons_self
          | tail _ hlast ihw =>
            rcases (hpassed _ ihw).2 _ hlast with hmem | rfl
            · exact hmem
            · exact hcycle
        exact (hpassed w hall).1
      · rename_i hgo
        rcases Relation.ReflTransGen.cases_head hw with rfl | ⟨v, hv, hw⟩
        · exact fun U' i' hU' h hh => confineContainers_noted.funcs (hown U' i' hU' h hh)
        · obtain rfl := hnext v hv
          have hless := unpassed_cons ⟨_, hlookup⟩ hnew
          exact ih (by omega) hgo hpassed hw

/-- The entries for the operands of a value. -/
def entriesOf (p : Program) (U : Value) : Containers :=
  (p.operands U).zipIdx.map fun o => (o.1, U, o.2)

theorem visitOperands_fst {x : Containers × MLTA} (os : List (Value × ℕ)) :
    (os.foldl (visitOperand p U) x).1 = (os.map fun o => (o.1, U, o.2)).reverse ++ x.1 := by
  induction os generalizing x with
  | nil => rfl
  | cons o os ih =>
    have hfirst : (visitOperand p U x o).1 = (o.1, U, o.2) :: x.1 := by
      unfold visitOperand
      dsimp only
      split
      · split <;> rfl
      · rfl
    rw [List.foldl_cons, ih, hfirst]
    simp

/-- The map has the entries of the values that were visited, the last one first. -/
theorem visitUsers_fst {x : Containers × MLTA} :
    (users.foldl (visitUser p) x).1 = (users.flatMap (entriesOf p)).reverse ++ x.1 := by
  induction users generalizing x with
  | nil => rfl
  | cons U users ih =>
    rw [List.foldl_cons, ih]
    unfold visitUser
    rw [visitOperands_fst]
    simp [entriesOf]

/-- In the initializer, `v` is operand `i` of `U` and of nothing else, and the search finds `v` at
nothing else. -/
structure OnlyIn (p : Program) (Ini v U : Value) (i : ℕ) : Prop where
  operand : (v, i) ∈ (p.operands U).zipIdx
  ne : v ≠ Ini
  only : ∀ X, Relation.ReflTransGen (fun a b => b ∈ initUsers p a) Ini X →
    (∀ j, (v, j) ∈ (p.operands X).zipIdx → X = U ∧ j = i) ∧ (v ∈ initUsers p X → X = U)

/-- The values that the search through an initializer visits, in order. -/
def initOrder (p : Program) (Ini : Value) : List Value :=
  Worklist.order (initUsers p)
    (Worklist.steps (initUsers p) (Ini :: (List.range p.values.length).flatMap (initUsers p)))
    [Ini] []

theorem mem_initOrder :
    U ∈ initOrder p Ini ↔ Relation.ReflTransGen (fun a b => b ∈ initUsers p a) Ini U := by
  refine Worklist.mem_order List.mem_cons_self fun u _ v hv => ?_
  refine List.mem_cons_of_mem _ (List.mem_flatMap.mpr ⟨u, List.mem_range.mpr ?_, hv⟩)
  -- a value outside the table has no operands
  refine Program.lt_of_kind fun hkind => ?_
  simp [initUsers, Program.operands, hkind, ValueKind.operands] at hv

theorem typeConfineInInitializer_eq (hIni : (p.kind Ini).isConstantAggregate = true) :
    s.typeConfineInInitializer p Ini = ((initOrder p Ini).foldl (visitUser p) ([], s)).2 := by
  unfold typeConfineInInitializer
  rw [if_pos hIni, Worklist.loop_eq]
  rfl

/-- **The state in which an operand is visited**: the map has the entries of the values before it,
and the last one is its own. -/
theorem initializer_at (hIni : (p.kind Ini).isConstantAggregate = true)
    {before after : List Value} (horder : initOrder p Ini = before ++ U :: after)
    (hO : (O, i) ∈ (p.operands U).zipIdx) :
    ∃ x : Containers × MLTA,
      Noted (visitOperand p U x (O, i)).2 (s.typeConfineInInitializer p Ini) ∧
      (∀ X ∈ before, ∀ e ∈ entriesOf p X, e ∈ x.1) ∧
      ∀ e ∈ x.1, ∃ X ∈ before ++ [U], e ∈ entriesOf p X := by
  obtain ⟨os, os', hoperands⟩ := List.append_of_mem hO
  let y := before.foldl (visitUser p) (([], s) : Containers × MLTA)
  refine ⟨os.foldl (visitOperand p U) y, ?_, ?_, ?_⟩
  · rw [typeConfineInInitializer_eq hIni, horder, List.foldl_append, List.foldl_cons]
    refine Noted.trans ?_ visitUsers_noted
    unfold visitUser
    rw [hoperands, List.foldl_append, List.foldl_cons]
    exact Folding.foldl_rel (r := fun x y : Containers × MLTA => Noted x.2 y.2) (fun x => .refl x.2)
      (fun h h' => h.trans h') fun _ _ _ => visitOperand_noted
  · intro X hX e he
    rw [visitOperands_fst]
    refine List.mem_append_right _ ?_
    have hy : y.1 = (before.flatMap (entriesOf p)).reverse ++ [] := visitUsers_fst
    rw [hy, List.append_nil, List.mem_reverse]
    exact List.mem_flatMap.mpr ⟨X, hX, he⟩
  · intro e he
    rw [visitOperands_fst] at he
    have hy : y.1 = (before.flatMap (entriesOf p)).reverse ++ [] := visitUsers_fst
    rcases List.mem_append.mp he with he | he
    · refine ⟨U, List.mem_append_right _ (List.mem_singleton_self U), ?_⟩
      unfold entriesOf
      rw [hoperands, List.map_append]
      exact List.mem_append_left _ (List.mem_reverse.mp he)
    · rw [hy, List.append_nil, List.mem_reverse] at he
      obtain ⟨X, hX, he⟩ := List.mem_flatMap.mp he
      exact ⟨X, List.mem_append_left _ hX, he⟩

/-- A value with one container is visited after it, and the map has that container. -/
theorem onlyIn_lookup {before after : List Value}
    (horder : initOrder p Ini = before ++ U :: after)
    (hentries : ∀ X ∈ before, ∀ e ∈ entriesOf p X, e ∈ C)
    (hC : ∀ e ∈ C, ∃ X ∈ before ++ [U], e ∈ entriesOf p X) (hv : v ∈ before ++ [U])
    (hin : OnlyIn p Ini v w i) : w ∈ before ∧ C.lookup v = some (w, i) := by
  have hreach : ∀ X ∈ before ++ [U], Relation.ReflTransGen (fun a b => b ∈ initUsers p a) Ini X := by
    intro X hX
    refine mem_initOrder.mp ?_
    rw [horder]
    rcases List.mem_append.mp hX with hX | hX
    · exact List.mem_append_left _ hX
    · exact List.mem_append_right _ (List.mem_singleton.mp hX ▸ List.mem_cons_self)
  have hsplit : ∃ before' after', initOrder p Ini = before' ++ v :: after' ∧ before' ⊆ before := by
    rcases List.mem_append.mp hv with hv | hv
    · obtain ⟨before', after', hbefore⟩ := List.append_of_mem hv
      refine ⟨before', after' ++ U :: after, by simp [horder, hbefore], ?_⟩
      exact hbefore ▸ List.subset_append_left _ _
    · exact ⟨before, after, List.mem_singleton.mp hv ▸ horder, List.Subset.refl _⟩
  obtain ⟨before', after', horder', hsub⟩ := hsplit
  have hw : w ∈ before := by
    rcases Worklist.order_before horder' with hroot | ⟨X, hX, hfound⟩
    · exact absurd (List.mem_singleton.mp hroot) hin.ne
    · have hX' := hsub hX
      exact (hin.only X (hreach X (List.mem_append_left _ hX'))).2 hfound ▸ hX'
  refine ⟨hw, ?_⟩
  have hmem : (v, w, i) ∈ C := by
    refine hentries w hw _ ?_
    exact List.mem_map.mpr ⟨(v, i), hin.operand, rfl⟩
  obtain ⟨⟨X, j⟩, hlookup, hmem'⟩ := Association.exists_lookup hmem
  obtain ⟨X', hX', hentry⟩ := hC _ hmem'
  obtain ⟨⟨v', j'⟩, hoperand, heq⟩ := List.mem_map.mp hentry
  obtain ⟨rfl, rfl, rfl⟩ : v' = v ∧ X' = X ∧ j' = j := by simpa using heq
  obtain ⟨rfl, rfl⟩ := (hin.only X' (hreach X' hX')).1 j' hoperand
  exact hlookup

/-- **Each function of an initializer** is noted in the value it is an operand of, and in the
containers of that value that hold it at one place only. -/
theorem typeConfineInInitializer_adds (hIni : (p.kind Ini).isConstantAggregate = true)
    (hU : Relation.ReflTransGen (fun a b => b ∈ initUsers p a) Ini U)
    (hO : (O, i) ∈ (p.operands U).zipIdx) (hF : foundFunction p O = some F)
    (hinfo : p.asFunction F = some info) (hintrinsic : info.isIntrinsic = false) :
    (∀ h ∈ containerHashes p U, ((h, (i : ℤ)), F) ∈
        (s.typeConfineInInitializer p Ini).typeIdxFuncsMap) ∧
      ∀ V W j, Relation.ReflTransGen (fun a b => ∃ k, OnlyIn p Ini a b k) U V →
        OnlyIn p Ini V W j → ∀ h ∈ containerHashes p W, ((h, (j : ℤ)), F) ∈
          (s.typeConfineInInitializer p Ini).typeIdxFuncsMap := by
  obtain ⟨before, after, horder⟩ := List.append_of_mem (mem_initOrder.mpr hU)
  obtain ⟨x, hnoted, hentries, hx⟩ := initializer_at (s := s) hIni horder hO
  let C : Containers := (O, U, i) :: x.1
  have hvisit : (visitOperand p U x (O, i)).2 =
      confineContainers p F C (C.length + 1) O [] (capGlobal p O x.2) := by
    unfold visitOperand
    dsimp only
    rw [hF]
    dsimp only
    rw [if_neg (by simp [hinfo, hintrinsic])]
  have hfuel : unpassed C [] < C.length + 1 := by
    have hle := (List.filter_sublist (p := fun v => v ∉ ([] : List Value))
      (l := (C.map Prod.fst).dedup)).length_le
    have hdedup := (List.dedup_sublist (C.map Prod.fst)).length_le
    rw [List.length_map] at hdedup
    exact Nat.lt_succ_of_le (hle.trans hdedup)
  have hall : ∀ w, Relation.ReflTransGen (Climbs C) O w →
      NotedIn p C F (s.typeConfineInInitializer p Ini) w := by
    intro w hw U' i' hU' h hh
    refine hnoted.funcs ?_
    rw [hvisit]
    exact confineContainers_adds hfuel List.not_mem_nil (fun v hv => absurd hv List.not_mem_nil) hw
      U' i' hU' h hh
  have hown : C.lookup O = some (U, i) := List.lookup_cons_self
  refine ⟨hall O .refl U i hown, fun V W j hpath hlast => ?_⟩
  have hentriesC : ∀ X ∈ before, ∀ e ∈ entriesOf p X, e ∈ C := fun X hX e he =>
    List.mem_cons_of_mem _ (hentries X hX e he)
  have hC : ∀ e ∈ C, ∃ X ∈ before ++ [U], e ∈ entriesOf p X := by
    intro e he
    rcases List.mem_cons.mp he with rfl | he
    · exact ⟨U, List.mem_append_right _ (List.mem_singleton_self U),
        List.mem_map.mpr ⟨(O, i), hO, rfl⟩⟩
    · exact hx e he
  -- the search for containers goes along the path
  have hclimb : V ∈ before ++ [U] ∧ Relation.ReflTransGen (Climbs C) O V := by
    clear hlast
    induction hpath with
    | refl => exact ⟨List.mem_append_right _ (List.mem_singleton_self U), .single ⟨i, hown⟩⟩
    | tail _ hstep ih =>
      obtain ⟨k, hin⟩ := hstep
      obtain ⟨hmem, hlookup⟩ := onlyIn_lookup horder hentriesC hC ih.1 hin
      exact ⟨List.mem_append_left _ hmem, ih.2.tail ⟨k, hlookup⟩⟩
  obtain ⟨-, hlookup⟩ := onlyIn_lookup horder hentriesC hC hclimb.1 hlast
  exact hall V hclimb.2 W j hlookup

end Containers

end MLTA

end Semalloc
