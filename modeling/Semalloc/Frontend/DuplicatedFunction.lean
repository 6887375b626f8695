import Semalloc.Frontend.UnwindSimulation

/-!
# Functions with duplicated landing pads

A function whose landing pad was duplicated is well-formed again, so that the next round can start
from it. Its blocks are the old ones, with the code of the split block moved, and a block with a
landing pad for each predecessor of the split block.

## Main results

* `Duplicated.wellFormed`: the new function is well-formed
* `Duplicated.predecessors_target`: a duplicated landing pad has one predecessor
* `Duplicated.predecessors_kept`: the other landing pads keep theirs
-/

set_option autoImplicit false

namespace Semalloc

namespace PostMLTAPass

open SSA

/-- The block that a call of the function unwinds to. -/
theorem getUnwindDest_eq {f : Func} (hf : f.WellFormed) {b invokeInst : ℕ} (hb : b ∈ f.blocks)
    (hcall : invokeInst ∈ (f.block b).terminator.results) :
    getUnwindDest f invokeInst = (f.block b).terminator.unwindDest := by
  obtain ⟨home, hhome⟩ := hf.resultsApart
  have hsome : (f.block b).terminator.unwindDest ≠ none := by
    cases hterm : (f.block b).terminator with
    | br dest =>
      rw [hterm] at hcall
      cases hcall
    | switch op operands dests =>
      rw [hterm] at hcall
      cases hcall
    | invoke result op operands normalDest unwindDest => exact Option.some_ne_none unwindDest
  cases hfind : getUnwindDest f invokeInst with
  | none =>
    have hnone := List.findSome?_eq_none_iff.mp hfind b hb
    rw [if_pos hcall] at hnone
    exact absurd hnone hsome
  | some u =>
    obtain ⟨b', hb', hcall', hu⟩ := getUnwindDest_mem hfind
    rw [← hu, ← hhome b hb _ (Func.mem_results_terminator hcall),
      hhome b' hb' _ (Func.mem_results_terminator hcall')]

namespace Duplicated

variable {f f' : Func} {d : ℕ} {pad : LandingPad}

section Blocks

variable (hf : f.WellFormed) (hpad : (f.block d).landingPad = some pad)
include hf hpad

/-- The first predecessor keeps the block, and the others get the new ones. -/
theorem exists_target (hpos : f.predecessors d ≠ []) {b : ℕ} (hb : b = d ∨
      f.nextBlock + 1 ≤ b ∧ b < f.nextBlock + 1 + (f.predecessors d).tail.length) :
    ∃ p ∈ f.predecessors d, b = target f d p := by
  have hnodup := predecessors_nodup hf hpad
  rcases hb with rfl | ⟨hle, hlt⟩
  · cases hpreds : f.predecessors b with
    | nil => exact absurd hpreds hpos
    | cons a l =>
      rw [hpreds] at hnodup
      refine ⟨a, List.mem_cons_self, (target_of_not_mem ?_).symm⟩
      rw [hpreds]
      exact (List.nodup_cons.mp hnodup).1
  · have hi : b - (f.nextBlock + 1) < (f.predecessors d).tail.length := by omega
    have hmem := List.getElem_mem hi
    refine ⟨_, List.mem_of_mem_tail hmem, ?_⟩
    rw [target, numbered_of_mem hmem, hnodup.tail.idxOf_getElem _ hi]
    omega

/-- The split block is not the first one. -/
theorem entry_ne : f.entry ≠ d := by
  rintro rfl
  rw [hf.entryPad] at hpad
  cases hpad

/-- A branch does not lead to the split block. -/
theorem branch_kept {b e : ℕ} (hb : b ∈ f.blocks) (he : e ∈ (f.block b).terminator.branches) :
    e ∈ f.blocks ∧ e ≠ d := by
  refine ⟨hf.successors b hb e (Func.mem_successors.mpr (.inl he)), ?_⟩
  rintro rfl
  rw [hf.branches b hb e he] at hpad
  cases hpad

/-- The block that a call unwinds to has a landing pad. -/
theorem redirected_kept {b u : ℕ} (hb : b ∈ f.blocks)
    (hu : (f.block b).terminator.unwindDest = some u) :
    (u = d ∧ b ∈ f.predecessors d ∧ redirected f d b u = target f d b) ∨
      (u ∈ f.blocks ∧ u ≠ d ∧ redirected f d b u = u) := by
  unfold redirected
  by_cases hud : u = d
  · rw [if_pos hud]
    exact .inl ⟨hud, (mem_predecessors hf hpad).mpr ⟨hb, hud ▸ hu⟩, rfl⟩
  · rw [if_neg hud]
    exact .inr ⟨hf.successors b hb u (Func.mem_successors.mpr (.inr hu)), hud, rfl⟩

omit hpad in
/-- The blocks with landing pads are no others. -/
theorem target_ne {b p : ℕ} (hb : b ∈ f.blocks) (hbd : b ≠ d) : target f d p ≠ b := by
  have hlt := hf.blocksLt b hb
  by_cases hp : p ∈ (f.predecessors d).tail
  · have hbounds := target_bounds hp
    omega
  · rw [target_of_not_mem hp]
    exact Ne.symm hbd

variable (hd : d ∈ f.blocks)
include hd

omit hpad in
theorem target_ne_merge {p : ℕ} : target f d p ≠ f.nextBlock := by
  have hlt := hf.blocksLt d hd
  by_cases hp : p ∈ (f.predecessors d).tail
  · have hbounds := target_bounds hp
    omega
  · rw [target_of_not_mem hp]
    omega

variable (h : Duplicated f d pad f')
include h

omit hd in
/-- The blocks are those with the old code, and one with a landing pad for each predecessor. -/
theorem mem_blocks (hpos : f.predecessors d ≠ []) (b' : ℕ) : b' ∈ f'.blocks ↔
    (∃ b ∈ f.blocks, b' = moved f d b) ∨ ∃ p ∈ f.predecessors d, b' = target f d p := by
  rw [h.blocks, List.mem_append, List.mem_map, List.mem_cons, List.mem_range'_1]
  refine or_congr ⟨?_, ?_⟩ ⟨exists_target hf hpad hpos, ?_⟩
  · rintro ⟨b, hb, rfl⟩
    exact ⟨b, hb, rfl⟩
  · rintro ⟨b, hb, rfl⟩
    exact ⟨b, hb, rfl⟩
  · rintro ⟨p, -, rfl⟩
    by_cases hp : p ∈ (f.predecessors d).tail
    · exact .inr (target_bounds hp)
    · exact .inl (target_of_not_mem hp)

omit hpad in
theorem blocks_nodup : f'.blocks.Nodup := by
  have hdlt := hf.blocksLt d hd
  rw [h.blocks]
  refine List.nodup_append.mpr ⟨?_, ?_, ?_⟩
  · exact hf.blocksNodup.map_on fun b hb b' hb' heq => moved_inj hf hb hb' heq
  · refine List.nodup_cons.mpr ⟨fun hmem => ?_, List.nodup_range'⟩
    have hle := (List.mem_range'_1.mp hmem).1
    omega
  · rintro b hb b' hb' rfl
    obtain ⟨b, hmem, rfl⟩ := List.mem_map.mp hb
    rcases List.mem_cons.mp hb' with heq | hnew
    · by_cases hbd : b = d
      · rw [hbd, moved_self] at heq
        omega
      · exact hbd ((moved_of_ne hbd).symm.trans heq)
    · have hle := (List.mem_range'_1.mp hnew).1
      have hlt := hf.blocksLt b hmem
      unfold moved at hle
      split_ifs at hle <;> omega

end Blocks

section WellFormed

variable (hf : f.WellFormed) (hpad : (f.block d).landingPad = some pad) (hd : d ∈ f.blocks)
  (h : Duplicated f d pad f') (hpos : f.predecessors d ≠ [])
include hf hpad hd h

omit hf hpad hd in
/-- The successors of a block are the old ones, up to the exceptions that came to the split block. -/
theorem mem_successors {b e : ℕ} (hb : b ∈ f.blocks) :
    e ∈ (f'.block (moved f d b)).terminator.successors ↔
      e ∈ (f.block b).terminator.branches ∨
        ∃ u, (f.block b).terminator.unwindDest = some u ∧ redirected f d b u = e := by
  rw [(h.code hb).2, Func.mem_successors, branches_redirect, unwindDest_redirect,
    Option.map_eq_some_iff]

omit hd in
/-- The other blocks are successors as before. -/
theorem mem_successors_kept {b e : ℕ} (hb : b ∈ f.blocks) (he : e ∈ f.blocks) (hed : e ≠ d) :
    e ∈ (f'.block (moved f d b)).terminator.successors ↔
      e ∈ (f.block b).terminator.successors := by
  rw [h.mem_successors hb, Func.mem_successors]
  refine or_congr Iff.rfl ⟨?_, fun hu => ⟨e, hu, if_neg hed⟩⟩
  rintro ⟨u, hu, heq⟩
  rcases redirected_kept hf hpad hb hu with ⟨-, -, hnew⟩ | ⟨-, -, hsame⟩
  · exact absurd (hnew.symm.trans heq) (target_ne hf he hed)
  · rwa [← heq, hsame]

/-- Only the landing pads lead to the code behind them. -/
theorem merge_not_mem_successors {b : ℕ} (hb : b ∈ f.blocks) :
    f.nextBlock ∉ (f'.block (moved f d b)).terminator.successors := by
  rw [h.mem_successors hb]
  rintro (he | ⟨u, hu, heq⟩)
  · exact lt_irrefl _ (hf.blocksLt _ (branch_kept hf hpad hb he).1)
  · rcases redirected_kept hf hpad hb hu with ⟨-, -, hnew⟩ | ⟨hmem, -, hsame⟩
    · exact target_ne_merge hf hd (hnew.symm.trans heq)
    · rw [hsame] at heq
      exact lt_irrefl _ (heq ▸ hf.blocksLt _ hmem)

omit hf hpad hd in
theorem successors_target (p : ℕ) :
    (f'.block (target f d p)).terminator.successors = [f.nextBlock] := by
  rw [h.padBlock_target p]
  rfl

omit hf hpad hd in
/-- What the other blocks define, and whether they have landing pads, stays. -/
theorem block_kept {b : ℕ} (hb : b ∈ f.blocks) (hbd : b ≠ d) :
    (f'.block b).phis = (f.block b).phis.map (Phi.map (renamed f d pad) (moved f d)) ∧
      (f'.block b).landingPad = (f.block b).landingPad := by
  rw [h.kept b hb hbd]
  exact ⟨rfl, rfl⟩

theorem results_kept {b : ℕ} (hb : b ∈ f.blocks) (hbd : b ≠ d) :
    (f'.block b).results = (f.block b).results := by
  have hphis : ((f.block b).phis.map (Phi.map (renamed f d pad) (moved f d))).map Phi.result =
      (f.block b).phis.map Phi.result := by
    rw [List.map_map]
    exact List.map_congr_left fun q hq =>
      renamed_of_mem hf hpad hd hb hbd (Func.mem_results_phi hq)
  rw [h.kept b hb hbd]
  unfold CodeBlock.results
  rw [hphis, List.map_map, results_redirect]
  rfl

omit hf hpad hd in
theorem results_merge : (f'.block f.nextBlock).results =
    (((f.block d).phis.map Phi.result).map (renamed f d pad)).reverse ++ [f.nextReg] ++
      ((f.block d).body.map Instr.result ++ (f.block d).terminator.results) := by
  rw [h.merge]
  unfold CodeBlock.results
  rw [results_redirect, List.map_append, List.map_reverse, List.map_map, List.map_map,
    List.map_map]
  rfl

omit hf hpad hd in
theorem results_target (p : ℕ) : (f'.block (target f d p)).results = [padResult f d pad p] := by
  rw [h.padBlock_target p]
  rfl

/-- The registers of a block are old ones, or behind the landing pad they are new. -/
theorem mem_results {b r : ℕ} (hb : b ∈ f.blocks) (hr : r ∈ (f'.block (moved f d b)).results) :
    (r ∈ (f.block b).results ∧ r ≠ pad.result) ∨
      b = d ∧ (r = f.nextReg ∨ f.nextReg + 1 + (f.predecessors d).tail.length ≤ r ∧
        r < f.nextReg + 1 + (f.predecessors d).tail.length + (f.block d).phis.length) := by
  by_cases hbd : b = d
  · subst hbd
    have hnodup := hf.resultsNodup b hb
    unfold CodeBlock.results at hnodup
    obtain ⟨-, hrest, hphis⟩ := List.nodup_append.mp hnodup
    obtain ⟨-, -, hpads⟩ := List.nodup_append.mp hrest
    have hmem := List.mem_map_of_mem (f := LandingPad.result) (Option.mem_toList.mpr hpad)
    rw [moved_self, h.results_merge] at hr
    rcases List.mem_append.mp hr with hr | hr
    · refine .inr ⟨rfl, ?_⟩
      rcases List.mem_append.mp hr with hr | hr
      · obtain ⟨q, hq, rfl⟩ := List.mem_map.mp (List.mem_reverse.mp hr)
        exact .inr (renamed_phi (hphis q hq pad.result (List.mem_append_left _ hmem)) hq)
      · exact .inl (List.mem_singleton.mp hr)
    · refine .inl ⟨?_, fun heq => hpads pad.result hmem r hr heq.symm⟩
      exact List.mem_append_right _ (List.mem_append_right _ hr)
  · rw [moved_of_ne hbd, results_kept hf hpad hd h hb hbd] at hr
    obtain ⟨home, hhome⟩ := hf.resultsApart
    refine .inl ⟨hr, fun heq => hbd ?_⟩
    rw [← hhome b hb r hr, heq, hhome d hd _ (Func.mem_results_pad hpad)]

variable (f d pad) in
omit hf hpad hd h in
/-- The register of a copied landing pad and its block have the same number. -/
theorem padResult_cases (p : ℕ) :
    padResult f d pad p = pad.result ∧ target f d p = d ∨
      ∃ i < (f.predecessors d).tail.length,
        padResult f d pad p = f.nextReg + 1 + i ∧ target f d p = f.nextBlock + 1 + i := by
  by_cases hp : p ∈ (f.predecessors d).tail
  · exact .inr ⟨_, List.idxOf_lt_length_of_mem hp, numbered_of_mem hp, numbered_of_mem hp⟩
  · exact .inl ⟨numbered_of_not_mem hp, target_of_not_mem hp⟩

/-- Each register is defined once. -/
theorem results_nodup {b : ℕ} (hb : b ∈ f.blocks) : (f'.block (moved f d b)).results.Nodup := by
  have hnodup := hf.resultsNodup b hb
  by_cases hbd : b = d
  · subst hbd
    unfold CodeBlock.results at hnodup
    obtain ⟨-, hrest, hapart⟩ := List.nodup_append.mp hnodup
    obtain ⟨-, hcode, -⟩ := List.nodup_append.mp hrest
    have hphis := movedPhis_nodup hf hpad hd
    rw [moved_self, h.results_merge]
    refine List.nodup_append.mpr ⟨?_, hcode, ?_⟩
    · rw [← List.reverse_cons]
      exact List.nodup_reverse.mpr hphis
    · rintro r hr s hs rfl
      have hlt := hf.resultsLt b hb r
        (List.mem_append_right _ (List.mem_append_right _ hs))
      rcases List.mem_append.mp hr with hr | hr
      · obtain ⟨q, hq, rfl⟩ := List.mem_map.mp (List.mem_reverse.mp hr)
        have hne : q ≠ pad.result := hapart q hq pad.result (List.mem_append_left _
          (List.mem_map_of_mem (Option.mem_toList.mpr hpad)))
        have hle := (renamed_phi hne hq).1
        omega
      · rw [List.mem_singleton.mp hr] at hlt
        exact lt_irrefl _ hlt
  · rwa [moved_of_ne hbd, results_kept hf hpad hd h hb hbd]

omit hf hpad hd in
/-- What a block uses is renamed; the φ-node for the landing pad uses its copies. -/
theorem mem_uses {b r : ℕ} (hb : b ∈ f.blocks) (hr : r ∈ (f'.block (moved f d b)).uses) :
    (∃ r' ∈ (f.block b).uses, r = renamed f d pad r') ∨ ∃ p, r = padResult f d pad p := by
  obtain ⟨hbody, hterm⟩ := h.code hb
  unfold CodeBlock.uses at hr ⊢
  rw [hbody, hterm, operands_redirect] at hr
  rcases List.mem_append.mp hr with hr | hr
  · -- the φ-nodes
    by_cases hbd : b = d
    · subst hbd
      rw [moved_self, h.merge, List.flatMap_append] at hr
      rcases List.mem_append.mp hr with hr | hr
      · obtain ⟨q, hq, hr⟩ := List.mem_flatMap.mp hr
        obtain ⟨r', hr', rfl⟩ := mem_uses_phis
          (List.mem_flatMap.mpr ⟨q, List.mem_reverse.mp hq, hr⟩)
        exact .inl ⟨r', List.mem_append_left _ hr', rfl⟩
      · rw [List.flatMap_singleton, List.flatMap_map] at hr
        obtain ⟨p, -, hr⟩ := List.mem_flatMap.mp hr
        exact .inr ⟨p, List.mem_singleton.mp hr⟩
    · rw [moved_of_ne hbd, (h.block_kept hb hbd).1] at hr
      obtain ⟨r', hr', rfl⟩ := mem_uses_phis hr
      exact .inl ⟨r', List.mem_append_left _ hr', rfl⟩
  · -- the code
    rcases List.mem_append.mp hr with hr | hr
    · obtain ⟨r', hr', rfl⟩ := mem_uses_body hr
      exact .inl ⟨r', List.mem_append_right _ (List.mem_append_left _ hr'), rfl⟩
    · obtain ⟨r', hr', rfl⟩ := mem_regs_rename hr
      exact .inl ⟨r', List.mem_append_right _ (List.mem_append_right _ hr'), rfl⟩

include hpos

theorem successors_mem : ∀ b ∈ f'.blocks, ∀ e ∈ (f'.block b).terminator.successors,
    e ∈ f'.blocks := by
  intro b' hb' e he
  rcases (mem_blocks hf hpad h hpos _).mp hb' with ⟨b, hb, rfl⟩ | ⟨p, hp, rfl⟩
  · refine (mem_blocks hf hpad h hpos _).mpr ?_
    rcases (h.mem_successors hb).mp he with he | ⟨u, hu, rfl⟩
    · obtain ⟨hmem, hed⟩ := branch_kept hf hpad hb he
      exact .inl ⟨e, hmem, (moved_of_ne hed).symm⟩
    · rcases redirected_kept hf hpad hb hu with ⟨-, hp, hnew⟩ | ⟨hmem, hud, hsame⟩
      · exact .inr ⟨b, hp, hnew⟩
      · exact .inl ⟨u, hmem, hsame.trans (moved_of_ne hud).symm⟩
  · rw [h.successors_target p] at he
    rw [List.mem_singleton.mp he]
    exact moved_self (f := f) (d := d) ▸ h.mem_moved hd

/-- The φ-nodes have a value for each predecessor. -/
theorem phis_labels : ∀ b ∈ f'.blocks, ∀ p ∈ (f'.block b).phis, ∀ l,
    l ∈ p.incoming.map Prod.fst ↔ l ∈ f'.blocks ∧ b ∈ (f'.block l).terminator.successors := by
  intro b' hb' q' hq' l
  have hmem := mem_blocks hf hpad h hpos
  rcases (hmem b').mp hb' with ⟨b, hb, rfl⟩ | ⟨p, hp, rfl⟩
  · by_cases hbd : b = d
    · -- the code behind the landing pad
      subst hbd
      have hlabels : l ∈ q'.incoming.map Prod.fst ↔ ∃ p ∈ f.predecessors b, l = target f b p := by
        rw [moved_self, h.merge] at hq'
        rcases List.mem_append.mp hq' with hq' | hq'
        · obtain ⟨q, hq, rfl⟩ := List.mem_map.mp (List.mem_reverse.mp hq')
          have hold := hf.phis b hb q hq
          unfold Phi.map
          rw [List.map_map]
          constructor
          · intro hl
            obtain ⟨e, he, rfl⟩ := List.mem_map.mp hl
            obtain ⟨hmem, hsucc⟩ := (hold e.1).mp (List.mem_map_of_mem he)
            exact ⟨e.1, (mem_predecessors hf hpad).mpr
              ⟨hmem, (mem_successors_pad hf hpad hmem).mp hsucc⟩, rfl⟩
          · rintro ⟨p, hp, rfl⟩
            obtain ⟨hmem, hcall⟩ := (mem_predecessors hf hpad).mp hp
            obtain ⟨e, he, rfl⟩ := List.mem_map.mp
              ((hold p).mpr ⟨hmem, (mem_successors_pad hf hpad hmem).mpr hcall⟩)
            exact List.mem_map.mpr ⟨e, he, rfl⟩
        · rw [List.mem_singleton.mp hq', List.map_map]
          constructor
          · intro hl
            obtain ⟨p, hp, rfl⟩ := List.mem_map.mp hl
            exact ⟨p, hp, rfl⟩
          · rintro ⟨p, hp, rfl⟩
            exact List.mem_map.mpr ⟨p, hp, rfl⟩
      rw [hlabels, hmem, moved_self]
      constructor
      · rintro ⟨p, hp, rfl⟩
        rw [h.successors_target p]
        exact ⟨.inr ⟨p, hp, rfl⟩, List.mem_singleton_self _⟩
      · rintro ⟨⟨l₀, hl₀, rfl⟩ | htarget, hsucc⟩
        · exact absurd hsucc (merge_not_mem_successors hf hpad hd h hl₀)
        · exact htarget
    · rw [moved_of_ne hbd, (h.block_kept hb hbd).1] at hq'
      obtain ⟨q, hq, rfl⟩ := List.mem_map.mp hq'
      have hold := hf.phis b hb q hq
      rw [hmem, moved_of_ne hbd]
      unfold Phi.map
      rw [List.map_map]
      constructor
      · intro hl
        obtain ⟨e, he, rfl⟩ := List.mem_map.mp hl
        obtain ⟨hl₀, hsucc⟩ := (hold e.1).mp (List.mem_map_of_mem he)
        exact ⟨.inl ⟨e.1, hl₀, rfl⟩, (mem_successors_kept hf hpad h hl₀ hb hbd).mpr hsucc⟩
      · rintro ⟨⟨l₀, hl₀, rfl⟩ | ⟨p, -, rfl⟩, hsucc⟩
        · obtain ⟨e, he, rfl⟩ := List.mem_map.mp ((hold l₀).mpr
            ⟨hl₀, (mem_successors_kept hf hpad h hl₀ hb hbd).mp hsucc⟩)
          exact List.mem_map.mpr ⟨e, he, rfl⟩
        · rw [h.successors_target p] at hsucc
          exact absurd (List.mem_singleton.mp hsucc) (Nat.ne_of_lt (hf.blocksLt b hb))
  · rw [h.padBlock_target p] at hq'
    cases hq'

/-- **The split function is well-formed.** -/
theorem wellFormed : f'.WellFormed where
  blocksNodup := blocks_nodup hf hd h
  blocksLt b' hb' := by
    rw [h.nextBlock]
    rcases (mem_blocks hf hpad h hpos _).mp hb' with ⟨b, hb, rfl⟩ | ⟨p, -, rfl⟩
    · have hlt := hf.blocksLt b hb
      unfold moved
      split_ifs <;> omega
    · have hdlt := hf.blocksLt d hd
      rcases padResult_cases f d pad p with ⟨-, heq⟩ | ⟨i, hi, -, heq⟩ <;>
        omega
  entry := by
    have hne := entry_ne hf hpad
    rw [h.entry, ← moved_of_ne (f := f) hne]
    exact h.mem_moved hf.entry
  entryPad := by
    rw [h.entry, (h.block_kept hf.entry (entry_ne hf hpad)).2]
    exact hf.entryPad
  successors := successors_mem hf hpad hd h hpos
  branches b' hb' e he := by
    rcases (mem_blocks hf hpad h hpos _).mp hb' with ⟨b, hb, rfl⟩ | ⟨p, -, rfl⟩
    · rw [(h.code hb).2, branches_redirect] at he
      obtain ⟨hmem, hed⟩ := branch_kept hf hpad hb he
      rw [(h.block_kept hmem hed).2]
      exact hf.branches b hb e he
    · rw [h.padBlock_target p] at he
      rw [List.mem_singleton.mp he, h.merge]
  unwinds b' hb' e he := by
    rcases (mem_blocks hf hpad h hpos _).mp hb' with ⟨b, hb, rfl⟩ | ⟨p, -, rfl⟩
    · rw [(h.code hb).2, unwindDest_redirect] at he
      obtain ⟨u, hu, rfl⟩ := Option.map_eq_some_iff.mp he
      rcases redirected_kept hf hpad hb hu with ⟨-, -, hnew⟩ | ⟨hmem, hud, hsame⟩
      · rw [hnew, h.padBlock_target b]
        exact Option.some_ne_none _
      · rw [hsame, (h.block_kept hmem hud).2]
        exact hf.unwinds b hb u hu
    · rw [h.padBlock_target p] at he
      cases he
  phis := phis_labels hf hpad hd h hpos
  resultsNodup b' hb' := by
    rcases (mem_blocks hf hpad h hpos _).mp hb' with ⟨b, hb, rfl⟩ | ⟨p, -, rfl⟩
    · exact results_nodup hf hpad hd h hb
    · rw [h.results_target p]
      exact List.nodup_singleton _
  resultsApart := by
    obtain ⟨home, hhome⟩ := hf.resultsApart
    have hpadlt := hf.resultsLt d hd _ (Func.mem_results_pad hpad)
    refine ⟨fun r => if r = pad.result then d
      else if r < f.nextReg then moved f d (home r)
      else if r ≤ f.nextReg + (f.predecessors d).tail.length then f.nextBlock + (r - f.nextReg)
      else f.nextBlock, fun b' hb' r hr => ?_⟩
    dsimp only
    rcases (mem_blocks hf hpad h hpos _).mp hb' with ⟨b, hb, rfl⟩ | ⟨p, -, rfl⟩
    · rcases mem_results hf hpad hd h hb hr with ⟨hmem, hne⟩ | ⟨rfl, hnew⟩
      · rw [if_neg hne, if_pos (hf.resultsLt b hb r hmem), hhome b hb r hmem]
      · rw [moved_self]
        split_ifs <;> omega
    · rw [h.results_target p] at hr
      rw [List.mem_singleton.mp hr]
      rcases padResult_cases f d pad p with
        ⟨heq, htarget⟩ | ⟨i, hi, heq, htarget⟩
      · rw [heq, htarget, if_pos rfl]
      · rw [heq, htarget]
        split_ifs <;> omega
  resultsLt b' hb' r hr := by
    rw [h.nextReg]
    rcases (mem_blocks hf hpad h hpos _).mp hb' with ⟨b, hb, rfl⟩ | ⟨p, -, rfl⟩
    · rcases mem_results hf hpad hd h hb hr with ⟨hmem, -⟩ | ⟨-, hnew⟩
      · have hlt := hf.resultsLt b hb r hmem
        omega
      · omega
    · have hpadlt := hf.resultsLt d hd _ (Func.mem_results_pad hpad)
      rw [h.results_target p] at hr
      rw [List.mem_singleton.mp hr]
      rcases padResult_cases f d pad p with ⟨heq, -⟩ | ⟨i, hi, heq, -⟩ <;>
        omega
  usesLt b' hb' r hr := by
    have hpadlt := hf.resultsLt d hd _ (Func.mem_results_pad hpad)
    rw [h.nextReg]
    rcases (mem_blocks hf hpad h hpos _).mp hb' with ⟨b, hb, rfl⟩ | ⟨p, -, rfl⟩
    · rcases h.mem_uses hb hr with ⟨r', hr', rfl⟩ | ⟨p, rfl⟩
      · exact renamed_lt (hf.usesLt b hb r' hr')
      · rcases padResult_cases f d pad p with ⟨heq, -⟩ | ⟨i, hi, heq, -⟩ <;>
          omega
    · rw [h.padBlock_target p] at hr
      cases hr
  paramsLt r hr := by
    rw [h.params] at hr
    have hlt := hf.paramsLt r hr
    rw [h.nextReg]
    omega
  params b' hb' r hr := by
    rw [h.params]
    rcases (mem_blocks hf hpad h hpos _).mp hb' with ⟨b, hb, rfl⟩ | ⟨p, -, rfl⟩
    · rcases mem_results hf hpad hd h hb hr with ⟨hmem, -⟩ | ⟨-, hnew⟩
      · exact hf.params b hb r hmem
      · intro hparam
        have hlt := hf.paramsLt r hparam
        omega
    · rw [h.results_target p] at hr
      rw [List.mem_singleton.mp hr]
      rcases padResult_cases f d pad p with ⟨heq, -⟩ | ⟨i, hi, heq, -⟩
      · rw [heq]
        exact hf.params d hd _ (Func.mem_results_pad hpad)
      · intro hparam
        have hlt := hf.paramsLt _ hparam
        omega

end WellFormed

/-! ## Predecessors -/

section Predecessors

variable (hf : f.WellFormed) (hpad : (f.block d).landingPad = some pad) (hd : d ∈ f.blocks)
  (h : Duplicated f d pad f') (hpos : f.predecessors d ≠ [])
include hf hpad hd h hpos

/-- Only its own call leads to a landing pad. -/
theorem predecessors_target {b : ℕ} (hb : b ∈ f.predecessors d) :
    f'.predecessors (target f d b) = [moved f d b] := by
  have hf' := wellFormed hf hpad hd h hpos
  obtain ⟨hbmem, hcall⟩ := (mem_predecessors hf hpad).mp hb
  have hland : (f'.block (target f d b)).landingPad =
      some { pad with result := padResult f d pad b } := by
    rw [h.padBlock_target b]
    rfl
  have hmem : ∀ l, l ∈ f'.predecessors (target f d b) ↔ l ∈ [moved f d b] := by
    intro l
    rw [mem_predecessors hf' hland, List.mem_singleton, mem_blocks hf hpad h hpos]
    constructor
    · rintro ⟨⟨l₀, hl₀, rfl⟩ | ⟨p, -, rfl⟩, hl⟩
      · rw [(h.code hl₀).2, unwindDest_redirect] at hl
        obtain ⟨u, hu, heq⟩ := Option.map_eq_some_iff.mp hl
        rcases redirected_kept hf hpad hl₀ hu with ⟨-, hp, hnew⟩ | ⟨hmem, hud, hsame⟩
        · rw [target_inj hf hd hp hb (hnew.symm.trans heq)]
        · exact absurd (heq.symm.trans hsame) (target_ne hf hmem hud)
      · rw [h.padBlock_target p] at hl
        cases hl
    · rintro rfl
      refine ⟨.inl ⟨b, hbmem, rfl⟩, ?_⟩
      rw [(h.code hbmem).2, unwindDest_redirect, hcall, Option.map_some, redirected, if_pos rfl]
  exact List.perm_singleton.mp ((List.perm_ext_iff_of_nodup (predecessors_nodup hf' hland)
    (List.nodup_singleton _)).mpr hmem)

/-- The other landing pads keep their predecessors. -/
theorem predecessors_kept {e : ℕ} {pad' : LandingPad} (he : e ∈ f.blocks) (hed : e ≠ d)
    (hpad' : (f.block e).landingPad = some pad') :
    f'.predecessors e = (f.predecessors e).map (moved f d) := by
  have hf' := wellFormed hf hpad hd h hpos
  have hland : (f'.block e).landingPad = some pad' := (h.block_kept he hed).2.trans hpad'
  rw [predecessors_eq hf' hland, predecessors_eq hf hpad', h.blocks, List.filter_append]
  have hnone : (d :: List.range' (f.nextBlock + 1) (f.predecessors d).tail.length).filter
      (fun b => (f'.block b).terminator.unwindDest = some e) = [] := by
    refine List.filter_eq_nil_iff.mpr fun b hb hcall => ?_
    obtain ⟨p, -, rfl⟩ := exists_target hf hpad hpos ((List.mem_cons.mp hb).imp_right
      fun hb => List.mem_range'_1.mp hb)
    rw [h.padBlock_target p] at hcall
    cases of_decide_eq_true hcall
  rw [hnone, List.append_nil, List.filter_map]
  congr 1
  refine List.filter_congr fun b hb => decide_eq_decide.mpr ?_
  rw [(h.code hb).2, unwindDest_redirect, Option.map_eq_some_iff]
  constructor
  · rintro ⟨u, hu, heq⟩
    rcases redirected_kept hf hpad hb hu with ⟨-, -, hnew⟩ | ⟨-, -, hsame⟩
    · exact absurd (hnew.symm.trans heq) (target_ne hf he hed)
    · rw [hu, ← heq, hsame]
  · intro hu
    exact ⟨e, hu, if_neg hed⟩

end Predecessors

end Duplicated

end PostMLTAPass

end Semalloc
