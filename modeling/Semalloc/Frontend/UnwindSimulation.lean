import Semalloc.Frontend.LandingPads

/-!
# The code behind duplicated landing pads

Executions of a function whose landing pad was duplicated go on like those of the old function. An
exception that came to the split block goes to the landing pad of its call first, and one step later
to the code behind it; there the φ-nodes have the values that the old φ-nodes and the old landing
pad would have.

## Main results

* `Duplicated.enter_exception`, `Duplicated.enter_kept`: the ways into the blocks
* `Duplicated.simulates`: the new function behaves like the old one
-/

set_option autoImplicit false

namespace Semalloc

namespace PostMLTAPass

open SSA

section Simulation

variable {f f' : Func} {d : ℕ} {pad : LandingPad}

/-! ## What splitting leaves -/

namespace Duplicated

variable (h : Duplicated f d pad f')
include h

theorem mem_moved {b : ℕ} (hb : b ∈ f.blocks) : moved f d b ∈ f'.blocks := by
  rw [h.blocks]
  exact List.mem_append_left _ (List.mem_map_of_mem hb)

/-- The code of a block is renamed, and its exceptions unwind elsewhere. -/
theorem code {b : ℕ} (hb : b ∈ f.blocks) :
    (f'.block (moved f d b)).body = (f.block b).body.map (Instr.rename (renamed f d pad)) ∧
      (f'.block (moved f d b)).terminator =
        ((f.block b).terminator.mapUnwindDest (redirected f d b)).rename (renamed f d pad) := by
  by_cases hbd : b = d
  · subst hbd
    rw [moved_self, h.merge]
    exact ⟨rfl, rfl⟩
  · rw [moved_of_ne hbd, h.kept b hb hbd]
    exact ⟨rfl, rfl⟩

/-- The block that a predecessor unwinds to has a landing pad, and jumps to the code behind it. -/
theorem padBlock_target (p : ℕ) :
    f'.block (target f d p) = padBlock f.nextBlock pad (padResult f d pad p) := by
  by_cases hmem : p ∈ (f.predecessors d).tail
  · have hlt := List.idxOf_lt_length_of_mem hmem
    have htarget : target f d p = f.nextBlock + 1 + (f.predecessors d).tail.idxOf p :=
      numbered_of_mem hmem
    have hresult : padResult f d pad p = f.nextReg + 1 + (f.predecessors d).tail.idxOf p :=
      numbered_of_mem hmem
    rw [htarget, hresult]
    exact h.copies _ hlt
  · rw [target_of_not_mem hmem, h.first, padResult, numbered_of_not_mem hmem]

end Duplicated

/-! ## Renamed registers -/

theorem renamed_pad : renamed f d pad pad.result = f.nextReg := if_pos rfl

theorem renamed_phi {r : ℕ} (hr : r ≠ pad.result) (hmem : r ∈ (f.block d).phis.map Phi.result) :
    f.nextReg + 1 + (f.predecessors d).tail.length ≤ renamed f d pad r ∧
      renamed f d pad r <
        f.nextReg + 1 + (f.predecessors d).tail.length + (f.block d).phis.length := by
  have hbounds := numbered_bounds (f.nextReg + 1 + (f.predecessors d).tail.length) id hmem
  rw [List.length_map] at hbounds
  unfold renamed
  rw [if_neg hr]
  exact hbounds

theorem renamed_of_ne {r : ℕ} (hr : r ≠ pad.result)
    (hmem : r ∉ (f.block d).phis.map Phi.result) : renamed f d pad r = r := by
  unfold renamed
  rw [if_neg hr, numbered_of_not_mem hmem]
  rfl

variable (f d pad) in
/-- A register keeps its name, or is the landing pad's, or gets a name behind those of the copies. -/
theorem renamed_cases (r : ℕ) :
    renamed f d pad r = r ∧ r ≠ pad.result ∨
      renamed f d pad r = f.nextReg ∧ r = pad.result ∨
      f.nextReg + 1 + (f.predecessors d).tail.length ≤ renamed f d pad r ∧
        renamed f d pad r < f.nextReg + 1 + (f.predecessors d).tail.length +
          (f.block d).phis.length ∧
        r ≠ pad.result ∧ r ∈ (f.block d).phis.map Phi.result := by
  by_cases hr : r = pad.result
  · rw [hr]
    exact .inr (.inl ⟨renamed_pad, rfl⟩)
  · by_cases hmem : r ∈ (f.block d).phis.map Phi.result
    · obtain ⟨hle, hlt⟩ := renamed_phi hr hmem
      exact .inr (.inr ⟨hle, hlt, hr, hmem⟩)
    · exact .inl ⟨renamed_of_ne hr hmem, hr⟩

theorem renamed_lt {r : ℕ} (hr : r < f.nextReg) : renamed f d pad r <
    f.nextReg + 1 + (f.predecessors d).tail.length + (f.block d).phis.length := by
  rcases renamed_cases f d pad r with ⟨h, -⟩ | ⟨h, -⟩ | ⟨-, h, -⟩ <;> omega

/-- No two registers get the same name. -/
theorem renamed_inj : Renaming f.nextReg (renamed f d pad) := by
  intro r hr r' hr' h
  rcases renamed_cases f d pad r with
    ⟨hsame, -⟩ | ⟨hsame, hpad⟩ | ⟨hle, -, hne, hmem⟩ <;>
  rcases renamed_cases f d pad r' with
    ⟨hsame', -⟩ | ⟨hsame', hpad'⟩ | ⟨hle', -, hne', hmem'⟩ <;>
  try omega
  unfold renamed at h
  rw [if_neg hne, if_neg hne'] at h
  exact numbered_inj hmem hmem' h

variable (hf : f.WellFormed) (hpad : (f.block d).landingPad = some pad) (hd : d ∈ f.blocks)
include hf hd

/-- Different predecessors unwind to different blocks. -/
theorem target_inj {p p' : ℕ} (hp : p ∈ f.predecessors d) (hp' : p' ∈ f.predecessors d)
    (h : target f d p = target f d p') : p = p' := by
  have hlt := hf.blocksLt d hd
  by_cases hmem : p ∈ (f.predecessors d).tail
  · by_cases hmem' : p' ∈ (f.predecessors d).tail
    · exact numbered_inj hmem hmem' h
    · have hbounds := target_bounds hmem
      rw [target_of_not_mem hmem'] at h
      omega
  · by_cases hmem' : p' ∈ (f.predecessors d).tail
    · have hbounds := target_bounds hmem'
      rw [target_of_not_mem hmem] at h
      omega
    · cases hpreds : f.predecessors d with
      | nil =>
        rw [hpreds] at hp
        cases hp
      | cons a l =>
        rw [hpreds] at hp hp' hmem hmem'
        rw [(List.mem_cons.mp hp).resolve_right hmem, (List.mem_cons.mp hp').resolve_right hmem']

include hpad

/-- The names of the landing pad and its copies are given to no other register. -/
theorem renamed_ne_padResult {p r : ℕ} (hr : r < f.nextReg) :
    renamed f d pad r ≠ padResult f d pad p := by
  have hpadlt := hf.resultsLt d hd _ (Func.mem_results_pad hpad)
  have hresult : padResult f d pad p = pad.result ∨
      f.nextReg + 1 ≤ padResult f d pad p ∧
        padResult f d pad p < f.nextReg + 1 + (f.predecessors d).tail.length := by
    by_cases hp : p ∈ (f.predecessors d).tail
    · exact .inr (numbered_bounds _ _ hp)
    · exact .inl (numbered_of_not_mem hp)
  rcases renamed_cases f d pad r with
    ⟨h, hne⟩ | ⟨h, -⟩ | ⟨h, -⟩ <;> omega

/-- What the code of a block defines keeps its name. -/
theorem renamed_of_mem_code {b r : ℕ} (hb : b ∈ f.blocks)
    (hr : r ∈ (f.block b).body.map Instr.result ++ (f.block b).terminator.results) :
    renamed f d pad r = r := by
  by_cases hbd : b = d
  · subst hbd
    have hnodup := hf.resultsNodup b hb
    unfold CodeBlock.results at hnodup
    obtain ⟨-, hrest, hphis⟩ := List.nodup_append.mp hnodup
    obtain ⟨-, -, hpads⟩ := List.nodup_append.mp hrest
    refine renamed_of_ne (fun h => ?_) fun hmem => ?_
    · exact hpads pad.result (List.mem_map_of_mem (Option.mem_toList.mpr hpad)) r hr h.symm
    · exact hphis r hmem r (List.mem_append_right _ hr) rfl
  · exact renamed_of_mem hf hpad hd hb hbd
      (List.mem_append_right _ (List.mem_append_right _ hr))

/-- Parameters keep their names. -/
theorem renamed_param {r : ℕ} (hr : r ∈ f.params) : renamed f d pad r = r := by
  refine renamed_of_ne (fun heq => ?_) fun hmem => ?_
  · exact hf.params d hd _ (Func.mem_results_pad hpad) (heq ▸ hr)
  · obtain ⟨q, hq, rfl⟩ := List.mem_map.mp hmem
    exact hf.params d hd _ (Func.mem_results_phi hq) hr

variable (pad) in
omit hpad in
/-- The φ-node for the landing pad has the value of the landing pad that control comes from. -/
theorem padPhi_valueFor {b : ℕ} (hb : b ∈ f.predecessors d) :
    (Phi.mk f.nextReg ((f.predecessors d).map fun p =>
      (target f d p, .reg (padResult f d pad p)))).valueFor (target f d b) =
        some (.reg (padResult f d pad b)) := by
  unfold Phi.valueFor
  dsimp only
  rw [List.find?_map]
  cases hfind : (f.predecessors d).find? ((fun e : ℕ × Operand => e.1 = target f d b) ∘
      fun p => (target f d p, .reg (padResult f d pad p))) with
  | none =>
    have hnot := List.find?_eq_none.mp hfind b hb
    exact absurd (decide_eq_true rfl) hnot
  | some p =>
    have hp := List.mem_of_find?_eq_some hfind
    have heq := List.find?_some hfind
    obtain rfl := target_inj hf hd hp hb (of_decide_eq_true heq)
    rfl

/-- The φ-nodes behind the landing pad have different registers. -/
theorem movedPhis_nodup : (f.nextReg ::
    ((f.block d).phis.map Phi.result).map (renamed f d pad)).Nodup := by
  have hpadlt := hf.resultsLt d hd _ (Func.mem_results_pad hpad)
  have hphislt : ∀ r ∈ (f.block d).phis.map Phi.result, r < f.nextReg := by
    intro r hr
    obtain ⟨q, hq, rfl⟩ := List.mem_map.mp hr
    exact hf.resultsLt d hd _ (Func.mem_results_phi hq)
  have hnodup := hf.resultsNodup d hd
  unfold CodeBlock.results at hnodup
  obtain ⟨hphis, -, hapart⟩ := List.nodup_append.mp hnodup
  refine List.nodup_cons.mpr ⟨fun hmem => ?_, ?_⟩
  · obtain ⟨r, hr, heq⟩ := List.mem_map.mp hmem
    have hrpad : r = pad.result :=
      renamed_inj r (hphislt r hr) pad.result hpadlt (heq.trans renamed_pad.symm)
    exact hapart r hr pad.result (List.mem_append_left _
      (List.mem_map_of_mem (Option.mem_toList.mpr hpad))) hrpad
  · exact hphis.map_on fun r hr r' hr' heq => renamed_inj r (hphislt r hr) r' (hphislt r' hr') heq

/-! ## The simulation -/

namespace Duplicated

variable (h : Duplicated f d pad f')
include h

/-- **An exception** goes by the landing pad of its call to the code behind the old one, and the
φ-nodes there have the old values. -/
theorem enter_exception {Val World : Type} {M : Machine Val World} {b : ℕ}
    (hp : b ∈ f.predecessors d) {env env' : ℕ → Val}
    (hvalues : SameValues f.nextReg (renamed f d pad) env env') (e : Val) (w : World) :
    ∃ st mid st', M.enter f b (some e) d env w = some st ∧
      M.enter f' (moved f d b) (some e) (target f d b) env' w = some mid ∧
      M.step f' mid = some st' ∧ Related f (renamed f d pad) (moved f d) st st' := by
  obtain ⟨hb, hunwind⟩ := (mem_predecessors hf hpad).mp hp
  have hsucc := (mem_successors_pad hf hpad hb).mpr hunwind
  have hpadlt := hf.resultsLt d hd _ (Func.mem_results_pad hpad)
  have hphislt : ∀ q ∈ (f.block d).phis, q.result < f.nextReg := fun q hq =>
    hf.resultsLt d hd _ (Func.mem_results_phi hq)
  -- the φ-nodes of the old block
  have hread : M.readPhis (f.block d).phis b env = some _ :=
    if_pos fun q hq => hf.valueFor_isSome hb hsucc hq
  generalize hread₁ : M.readPhis (f.block d).phis b env = read at hread
  obtain ⟨env₁, rfl⟩ : ∃ env₁, read = some env₁ := ⟨_, hread⟩
  let v := M.landingPad pad.clauses e
  have hst : M.enter f b (some e) d env w = some ⟨d, Function.update env₁ pad.result v, w⟩ := by
    unfold Machine.enter
    rw [hread₁, hpad]
    rfl
  -- the copy of the landing pad
  let env₂ := Function.update env' (padResult f d pad b) v
  have hblock := h.padBlock_target b
  have hmid : M.enter f' (moved f d b) (some e) (target f d b) env' w =
      some ⟨target f d b, env₂, w⟩ := by
    unfold Machine.enter
    rw [hblock]
    rfl
  have hvalues₂ : SameValues f.nextReg (renamed f d pad) env env₂ :=
    hvalues.update_new (fun r hr => renamed_ne_padResult hf hpad hd hr) v
  -- the φ-nodes that were moved
  have hmap := readPhis_map (M := M) (β := target f d) renamed_inj hphislt
    (fun r hr => hf.usesLt d hd r (List.mem_append_left _ hr))
    (fun q hq l hl heq => by
      obtain ⟨hlmem, hlsucc⟩ := (hf.phis d hd q hq l).mp hl
      have hlpred := (mem_predecessors hf hpad).mpr
        ⟨hlmem, (mem_successors_pad hf hpad hlmem).mp hlsucc⟩
      exact target_inj hf hd hlpred hp heq) hvalues₂
  rw [hread₁] at hmap
  generalize hread₂ : M.readPhis ((f.block d).phis.map (Phi.map (renamed f d pad) (target f d)))
    (target f d b) env₂ = read' at hmap
  obtain ⟨env₃, rfl, hvalues₃⟩ : ∃ env₃, read' = some env₃ ∧
      SameValues f.nextReg (renamed f d pad) env₁ env₃ := by
    cases hmap with
    | some hvalues => exact ⟨_, rfl, hvalues⟩
  -- the φ-node for the landing pad
  have hresults : ((f.block d).phis.map (Phi.map (renamed f d pad) (target f d))).map Phi.result =
      ((f.block d).phis.map Phi.result).map (renamed f d pad) := by
    rw [List.map_map, List.map_map]
    rfl
  obtain ⟨hnew, hnodup⟩ := List.nodup_cons.mp (movedPhis_nodup hf hpad hd)
  rw [← hresults] at hnew hnodup
  have hconcat := readPhis_reverse_concat (M := M) env₂ hnodup hnew
    (padPhi_valueFor pad hf hd hp)
  rw [hread₂, Option.map_some] at hconcat
  have hv : M.eval env₂ (.reg (padResult f d pad b)) = v := Function.update_self ..
  have hstep : M.step f' ⟨target f d b, env₂, w⟩ =
      some ⟨f.nextBlock, Function.update env₃ f.nextReg v, w⟩ := by
    unfold Machine.step
    dsimp only
    rw [hblock]
    change M.enter f' (target f d b) none f.nextBlock env₂ w = _
    unfold Machine.enter
    rw [h.merge]
    dsimp only
    rw [hconcat, hv]
    rfl
  refine ⟨_, _, _, hst, hmid, hstep, hd, moved_self.symm, rfl, ?_⟩
  have hnext := hvalues₃.update renamed_inj hpadlt v
  rw [renamed_pad] at hnext
  exact hnext

/-- The other blocks are entered as before. -/
theorem enter_kept {Val World : Type} {M : Machine Val World} {b e : ℕ} (hb : b ∈ f.blocks)
    (he : e ∈ f.blocks) (hed : e ≠ d) {env env' : ℕ → Val}
    (hvalues : SameValues f.nextReg (renamed f d pad) env env') (exception : Option Val)
    (w : World) :
    Option.Rel (Arrives M f f' (renamed f d pad) (moved f d)) (M.enter f b exception e env w)
      (M.enter f' (moved f d b) exception e env' w) := by
  have hkept := h.kept e he hed
  refine rel_imp (enter_map (β := moved f d) renamed_inj
    (fun q hq => hf.resultsLt e he _ (Func.mem_results_phi hq))
    (fun r hr => hf.usesLt e he r (List.mem_append_left _ hr))
    (fun p hp => ⟨hf.resultsLt e he _ (Func.mem_results_pad hp),
      renamed_of_mem hf hpad hd he hed (Func.mem_results_pad hp)⟩)
    (fun q hq l hl heq => moved_inj hf ((hf.phis e he q hq l).mp hl).1 hb heq)
    (by rw [hkept]) (by rw [hkept]) hvalues) ?_
  rintro st st' ⟨hblock, hblock', hworld, henv⟩
  refine ⟨st', .refl, ?_, ?_, hworld, henv⟩
  · rw [hblock]
    exact he
  · rw [hblock, hblock', moved_of_ne hed]

/-- **The split function behaves like the old one.** -/
theorem simulates : Simulates f f' (renamed f d pad) (moved f d) where
  entry := by
    have hne : f.entry ≠ d := by
      intro heq
      rw [← heq, hf.entryPad] at hpad
      cases hpad
    rw [h.entry, moved_of_ne hne]
  entryMem := hf.entry
  params := h.params
  renameLt r hr := by
    rw [h.nextReg]
    exact renamed_lt hr
  renameParams r _ := by
    rw [h.params]
    refine ⟨fun hmem => ?_, fun hmem => (renamed_param hf hpad hd hmem).symm ▸ hmem⟩
    have hlt := hf.paramsLt _ hmem
    rcases renamed_cases f d pad r with ⟨heq, -⟩ | ⟨heq, -⟩ | ⟨hle, -⟩
    · rwa [heq] at hmem
    · omega
    · omega
  renameParam r hr := renamed_param hf hpad hd hr
  mem b hb := h.mem_moved hb
  body b hb := (h.code hb).1
  operands b hb := by
    rw [(h.code hb).2]
    cases (f.block b).terminator <;> rfl
  respects M := by
    refine respects_of_enter (τ := redirected f d) renamed_inj hf.usesLt
      (fun b hb i hi => ⟨hf.resultsLt b hb _ (Func.mem_results_body hi),
        renamed_of_mem_code hf hpad hd hb (List.mem_append_left _ (List.mem_map_of_mem hi))⟩)
      (fun b hb r hr => ⟨hf.resultsLt b hb _ (Func.mem_results_terminator hr),
        renamed_of_mem_code hf hpad hd hb (List.mem_append_right _ hr)⟩)
      (fun b hb => (h.code hb).1) (fun b hb => (h.code hb).2) ?_
    intro b hb x x' hexit hbranch hunwind
    obtain ⟨exception, e, env, w⟩ := x
    obtain ⟨hsame, hdest, hworld, hvalues⟩ := hexit
    dsimp only at hsame hdest hworld hvalues hbranch hunwind ⊢
    rw [hsame, hdest, hworld]
    cases exception with
    | none =>
      have hmem := hbranch rfl
      have hed : e ≠ d := by
        rintro rfl
        rw [hf.branches b hb e hmem] at hpad
        cases hpad
      have he := hf.successors b hb e (Func.mem_successors.mpr (.inl hmem))
      exact h.enter_kept hf hpad hd hb he hed hvalues none w
    | some v =>
      have hcall := hunwind (Option.some_ne_none v)
      have he := hf.successors b hb e (Func.mem_successors.mpr (.inr hcall))
      rw [Option.isSome_some, if_pos rfl]
      by_cases hed : e = d
      · subst hed
        have hp := (mem_predecessors hf hpad).mpr ⟨hb, hcall⟩
        obtain ⟨st, mid, st', hst, hmid, hstep, hrel⟩ :=
          h.enter_exception hf hpad hd (M := M) hp hvalues v w
        rw [redirected, if_pos rfl, hst, hmid]
        exact .some ⟨st', .single hstep, hrel⟩
      · rw [redirected, if_neg hed]
        exact h.enter_kept hf hpad hd hb he hed hvalues (some v) w

end Duplicated

end Simulation

end PostMLTAPass

end Semalloc
