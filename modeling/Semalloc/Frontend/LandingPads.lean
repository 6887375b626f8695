import Semalloc.Frontend.PostMLTA

/-!
# Duplicated landing pads

What one round of `DuplicateInvokeUnwinds` leaves. The block is split, its landing pad gets a copy
for each predecessor but the first, and the φ-nodes move behind the landing pads one by one. Each of
these loops has a description of its own; together they describe the whole function, block by block.

## Main definitions

* `numbered`: the new names, in the order of a list
* `PadsCopied`, `PhisMoved`: what the two loops leave
* `moved`, `target`, `renamed`: where code, exceptions and registers go
* `Duplicated`: what the round leaves

## Main results

* `duplicateUnwind_spec`: the round, when the block is no later predecessor of itself
* `duplicateUnwind_none`: otherwise the pass follows a null pointer
-/

set_option autoImplicit false

namespace Semalloc

namespace PostMLTAPass

open SSA

variable {f g : Func} {d merge phi : ℕ} {pad : LandingPad}

/-! ## New names -/

/-- Number the entries of a list from `start` on; the rest is mapped by `other`. -/
def numbered (l : List ℕ) (start : ℕ) (other : ℕ → ℕ) (x : ℕ) : ℕ :=
  if x ∈ l then start + l.idxOf x else other x

section Numbered

variable {l : List ℕ} {a start x y : ℕ} {other : ℕ → ℕ}

theorem numbered_of_not_mem (hx : x ∉ l) : numbered l start other x = other x := if_neg hx

theorem numbered_of_mem (hx : x ∈ l) : numbered l start other x = start + l.idxOf x := if_pos hx

theorem numbered_cons_self : numbered (a :: l) start other a = start := by
  rw [numbered_of_mem List.mem_cons_self, List.idxOf_cons_self, Nat.add_zero]

theorem numbered_cons_of_ne (hx : x ≠ a) :
    numbered (a :: l) start other x = numbered l (start + 1) other x := by
  unfold numbered
  by_cases hmem : x ∈ l
  · rw [if_pos (List.mem_cons_of_mem a hmem), if_pos hmem, List.idxOf_cons_ne _ (Ne.symm hx)]
    omega
  · rw [if_neg hmem, if_neg fun h => hmem ((List.mem_cons.mp h).resolve_left hx)]

variable (start other) in
theorem numbered_bounds (hx : x ∈ l) : start ≤ numbered l start other x ∧
    numbered l start other x < start + l.length := by
  have hlt := List.idxOf_lt_length_of_mem hx
  rw [numbered_of_mem hx]
  omega

theorem numbered_inj (hx : x ∈ l) (hy : y ∈ l)
    (h : numbered l start other x = numbered l start other y) : x = y := by
  rw [numbered_of_mem hx, numbered_of_mem hy] at h
  exact (List.idxOf_inj hx).mp (by omega)

end Numbered

/-! ## Copies of the landing pad -/

/-- A block with a copy of the landing pad that jumps to the code behind it. -/
def padBlock (merge : ℕ) (pad : LandingPad) (result : ℕ) : CodeBlock where
  phis := []
  landingPad := some { pad with result := result }
  body := []
  terminator := .br merge

/-- What copying the landing pad for the predecessors `ps` leaves. -/
structure PadsCopied (merge phi : ℕ) (pad : LandingPad) (ps : List ℕ) (g g' : Func) : Prop where
  entry : g'.entry = g.entry
  params : g'.params = g.params
  blocks : g'.blocks = g.blocks ++ List.range' g.nextBlock ps.length
  nextBlock : g'.nextBlock = g.nextBlock + ps.length
  nextReg : g'.nextReg = g.nextReg + ps.length
  kept : ∀ b < g.nextBlock, b ≠ merge → g'.block b = { g.block b with
    terminator := (g.block b).terminator.mapUnwindDest fun u =>
      numbered ps g.nextBlock (fun _ => u) b }
  copies : ∀ i < ps.length, g'.block (g.nextBlock + i) = padBlock merge pad (g.nextReg + i)
  merge : g'.block merge = { g.block merge with
    phis := (g.block merge).phis.map fun q =>
      if q.result = phi then
        { q with incoming := q.incoming ++ ps.map fun p =>
            (numbered ps g.nextBlock id p, .reg (numbered ps g.nextReg id p)) }
      else q }

theorem mapUnwindDest_id (t : Terminator) : (t.mapUnwindDest fun u => u) = t := by cases t <;> rfl

variable (merge phi pad) in
/-- **Copies of the landing pad** for predecessors that end with calls. -/
theorem copyLandingPads_spec {ps : List ℕ} (hps : ps.Nodup)
    (hcalls : ∀ p ∈ ps, p < g.nextBlock ∧ p ≠ merge ∧ (g.block p).terminator.unwindDest ≠ none)
    (hmerge : merge < g.nextBlock) :
    ∃ g', ps.foldlM (copyLandingPad merge phi pad) g = some g' ∧
      PadsCopied merge phi pad ps g g' := by
  induction ps generalizing g with
  | nil =>
    refine ⟨g, rfl, rfl, rfl, (List.append_nil _).symm, rfl, rfl, fun b _ _ => ?_, ?_, ?_⟩
    · have hnone : (fun u => numbered [] g.nextBlock (fun _ => u) b) = fun u => u := rfl
      rw [hnone, mapUnwindDest_id]
    · exact fun i hi => absurd hi (Nat.not_lt_zero i)
    · simp
  | cons p ps ih =>
    obtain ⟨hp, hps⟩ := List.nodup_cons.mp hps
    obtain ⟨hplt, hpmerge, hpcall⟩ := hcalls p List.mem_cons_self
    obtain ⟨g₁, hstep⟩ : ∃ g₁, copyLandingPad merge phi pad g p = some g₁ :=
      ⟨_, if_neg hpcall⟩
    have heq : g₁ = _ := (Option.some.inj ((if_neg hpcall).symm.trans hstep)).symm
    have hnextBlock : g₁.nextBlock = g.nextBlock + 1 := by rw [heq]
    have hnextReg : g₁.nextReg = g.nextReg + 1 := by rw [heq]
    have hself : g₁.block p = { g.block p with
        terminator := (g.block p).terminator.mapUnwindDest fun _ => g.nextBlock } := by
      rw [heq]
      dsimp only
      rw [Function.update_of_ne hpmerge, Function.update_of_ne (Nat.ne_of_lt hplt),
        Function.update_self]
    have hnew : g₁.block g.nextBlock = padBlock merge pad g.nextReg := by
      rw [heq]
      dsimp only
      rw [Function.update_of_ne (Nat.ne_of_gt hmerge), Function.update_self]
      rfl
    have hmergeBlock : g₁.block merge =
        addIncoming phi (g.nextBlock, .reg g.nextReg) (g.block merge) := by
      rw [heq]
      dsimp only
      rw [Function.update_self, Function.update_of_ne (Nat.ne_of_lt hmerge),
        Function.update_of_ne (Ne.symm hpmerge)]
    have hother : ∀ b < g.nextBlock, b ≠ p → b ≠ merge → g₁.block b = g.block b := by
      intro b hb hbp hbmerge
      rw [heq]
      dsimp only
      rw [Function.update_of_ne hbmerge, Function.update_of_ne (Nat.ne_of_lt hb),
        Function.update_of_ne hbp]
    obtain ⟨g', hrest, h⟩ := ih (g := g₁) hps (fun q hq => by
      obtain ⟨hqlt, hqmerge, hqcall⟩ := hcalls q (List.mem_cons_of_mem p hq)
      rw [hnextBlock, hother q hqlt (fun hqp => hp (hqp ▸ hq)) hqmerge]
      exact ⟨Nat.lt_succ_of_lt hqlt, hqmerge, hqcall⟩) (by rw [hnextBlock]; omega)
    have hkept := h.kept
    have hcopies := h.copies
    have hmergePhis := h.merge
    rw [hnextBlock] at hkept hcopies hmergePhis
    rw [hnextReg] at hcopies hmergePhis
    refine ⟨g', by rw [List.foldlM_cons, hstep]; exact hrest, ?_, ?_, ?_, ?_, ?_, ?_, ?_, ?_⟩
    · rw [h.entry, heq]
    · rw [h.params, heq]
    · rw [h.blocks, hnextBlock, heq, List.append_assoc]
      rfl
    · rw [h.nextBlock, hnextBlock, List.length_cons]
      omega
    · rw [h.nextReg, hnextReg, List.length_cons]
      omega
    · intro b hb hbmerge
      rw [hkept b (Nat.lt_succ_of_lt hb) hbmerge]
      by_cases hbp : b = p
      · subst hbp
        rw [hself]
        simp only [numbered_cons_self, numbered_of_not_mem hp, mapUnwindDest_id]
      · rw [hother b hb hbp hbmerge]
        simp only [numbered_cons_of_ne hbp]
    · intro i hi
      cases i with
      | zero =>
        rw [Nat.add_zero, hkept _ (Nat.lt_succ_self _) (Nat.ne_of_gt hmerge), hnew]
        rfl
      | succ i =>
        have hcopy := hcopies i (by rw [List.length_cons] at hi; omega)
        rw [Nat.add_assoc, Nat.add_comm 1 i] at hcopy
        rw [hcopy, Nat.add_assoc, Nat.add_comm 1 i]
    · rw [hmergePhis, hmergeBlock]
      unfold addIncoming
      dsimp only
      rw [List.map_map]
      congr 1
      refine List.map_congr_left fun q _ => ?_
      by_cases hq : q.result = phi
      · simp only [Function.comp_apply, hq, if_true, List.map_cons, numbered_cons_self,
          List.append_assoc, List.singleton_append]
        congr 3
        refine List.map_congr_left fun x hx => ?_
        have hne : x ≠ p := fun hxp => hp (hxp ▸ hx)
        rw [numbered_cons_of_ne hne, numbered_cons_of_ne hne]
      · simp only [Function.comp_apply, hq, if_false]

variable (merge phi pad) in
/-- A predecessor without a call makes the pass follow a null pointer. -/
theorem copyLandingPads_none {ps : List ℕ} {p : ℕ} (hp : p ∈ ps) (hplt : p < g.nextBlock)
    (hpmerge : p ≠ merge) (hcall : (g.block p).terminator.unwindDest = none) :
    ps.foldlM (copyLandingPad merge phi pad) g = none := by
  induction ps generalizing g with
  | nil => cases hp
  | cons q ps ih =>
    rw [List.foldlM_cons]
    by_cases hq : (g.block q).terminator.unwindDest = none
    · rw [show copyLandingPad merge phi pad g q = none from if_pos hq]
      rfl
    · have hqp : p ≠ q := fun h => hq (h ▸ hcall)
      rw [show copyLandingPad merge phi pad g q = some _ from if_neg hq]
      refine ih ((List.mem_cons.mp hp).resolve_left hqp) (Nat.lt_succ_of_lt hplt) ?_
      dsimp only
      rw [Function.update_of_ne hpmerge, Function.update_of_ne (Nat.ne_of_lt hplt),
        Function.update_of_ne hqp]
      exact hcall

/-! ## Moved φ-nodes -/

/-- What moving the φ-nodes `qs` leaves: new registers for them, and their values come from the blocks
that `target` gives. -/
structure PhisMoved (d merge : ℕ) (target : ℕ → ℕ) (qs : List Phi) (g g' : Func) : Prop where
  entry : g'.entry = g.entry
  params : g'.params = g.params
  blocks : g'.blocks = g.blocks
  nextBlock : g'.nextBlock = g.nextBlock
  nextReg : g'.nextReg = g.nextReg + qs.length
  kept : ∀ b, b ≠ d → b ≠ merge →
    g'.block b = (g.block b).rename (numbered (qs.map Phi.result) g.nextReg id)
  merge : g'.block merge =
    { (g.block merge).rename (numbered (qs.map Phi.result) g.nextReg id) with
      phis := (qs.map (Phi.map (numbered (qs.map Phi.result) g.nextReg id) target)).reverse ++
        ((g.block merge).rename (numbered (qs.map Phi.result) g.nextReg id)).phis }
  old : { g'.block d with phis := [] } =
    { (g.block d).rename (numbered (qs.map Phi.result) g.nextReg id) with phis := [] }

/-- New registers one at a time are new registers all at once. -/
theorem numbered_comp {l : List ℕ} {a start : ℕ} (ha : a ∉ l) (hlt : ∀ x ∈ l, x < start) :
    (numbered l (start + 1) id ∘ fun r => if r = a then start else r) =
      numbered (a :: l) start id := by
  funext x
  by_cases hx : x = a
  · subst hx
    rw [Function.comp_apply, if_pos rfl, numbered_cons_self,
      numbered_of_not_mem fun hmem => lt_irrefl _ (hlt _ hmem)]
    rfl
  · rw [Function.comp_apply, if_neg hx, numbered_cons_of_ne hx]

theorem rename_comp_numbered {l : List ℕ} {a start : ℕ} (ha : a ∉ l) (hlt : ∀ x ∈ l, x < start)
    (b : CodeBlock) : (b.rename fun r => if r = a then start else r).rename
      (numbered l (start + 1) id) = b.rename (numbered (a :: l) start id) := by
  rw [block_rename_comp, numbered_comp ha hlt]

/-- **All φ-nodes are moved** behind the landing pad. -/
theorem movePhis_spec (target : ℕ → ℕ) (qs : List Phi) (hd : d ≠ merge)
    (hqs : (qs.map Phi.result).Nodup) (hlt : ∀ q ∈ qs, q.result < g.nextReg)
    (hfind : ∀ q ∈ qs, (g.block d).phis.find? (fun p => p.result = q.result) = some q)
    (hcalls : ∀ q ∈ qs, ∀ l ∈ q.incoming.map Prod.fst,
      (g.block l).terminator.unwindDest = some (target l)) :
    ∃ g', (qs.map Phi.result).foldlM (movePhi d merge) g = some g' ∧
      PhisMoved d merge target qs g g' := by
  induction hlen : qs.length generalizing g qs with
  | zero =>
    obtain rfl := List.length_eq_zero_iff.mp hlen
    have hid : ∀ b : CodeBlock, b.rename (numbered [] g.nextReg id) = b := by
      intro b
      have hnone : numbered [] g.nextReg id = id := rfl
      unfold CodeBlock.rename
      rw [hnone, terminator_rename_id, List.map_congr_left fun i _ => instr_rename_id i,
        List.map_id', List.map_congr_left (g := id), List.map_id]
      intro q _
      unfold Phi.rename
      simp only [operand_rename_id, List.map_id', id]
    refine ⟨g, rfl, rfl, rfl, rfl, rfl, rfl, fun b _ _ => (hid _).symm, ?_, ?_⟩
    · rw [List.map_nil, hid]
      rfl
    · rw [List.map_nil, hid]
  | succ n ih =>
    obtain ⟨q, qs, rfl⟩ := List.exists_cons_of_length_eq_add_one hlen
    rw [List.map_cons] at hqs
    obtain ⟨hq, hqs⟩ := List.nodup_cons.mp hqs
    have hresults : ∀ x ∈ qs.map Phi.result, x < g.nextReg := by
      intro x hx
      obtain ⟨p, hp, rfl⟩ := List.mem_map.mp hx
      exact hlt p (List.mem_cons_of_mem q hp)
    -- the φ-node that is moved now
    have hincoming : q.incoming.mapM (fun e =>
        (g.block e.1).terminator.unwindDest.map fun newBB => (newBB, e.2)) =
        some (q.incoming.map fun e => (target e.1, e.2)) := by
      have hall : ∀ e ∈ q.incoming, (g.block e.1).terminator.unwindDest = some (target e.1) :=
        fun e he => hcalls q List.mem_cons_self e.1 (List.mem_map_of_mem he)
      generalize q.incoming = es at hall ⊢
      induction es with
      | nil => rfl
      | cons e es ihes =>
        rw [List.mapM_cons, hall e List.mem_cons_self,
          ihes fun e he => hall e (List.mem_cons_of_mem _ he)]
        rfl
    let incoming := q.incoming.map fun e => (target e.1, e.2)
    let single : ℕ → ℕ := fun r => if r = q.result then g.nextReg else r
    let stub : CodeBlock := { g.block d with
      phis := (g.block d).phis.map fun p =>
        if p.result = q.result then { p with incoming := incoming } else p }
    let front : CodeBlock := { g.block merge with
      phis := ⟨g.nextReg, incoming⟩ :: (g.block merge).phis }
    obtain ⟨g₁, hstep, hg₁⟩ : ∃ g₁, movePhi d merge g q.result = some g₁ ∧
        g₁ = replaceAllUsesWith q.result g.nextReg { g with
          block := Function.update (Function.update g.block d stub) merge front
          nextReg := g.nextReg + 1 } := by
      refine ⟨_, ?_, rfl⟩
      unfold movePhi
      rw [hfind q List.mem_cons_self, Option.bind_eq_bind, Option.bind_some, hincoming,
        Option.bind_eq_bind, Option.bind_some]
      dsimp only
      rw [Function.update_of_ne (Ne.symm hd)]
    have hnextReg : g₁.nextReg = g.nextReg + 1 := by rw [hg₁]; rfl
    have hkept : ∀ b, b ≠ d → b ≠ merge → g₁.block b = (g.block b).rename single := by
      intro b hbd hbmerge
      rw [hg₁]
      unfold replaceAllUsesWith
      dsimp only
      rw [Function.update_of_ne hbmerge, Function.update_of_ne hbd]
    have hold : g₁.block d = stub.rename single := by
      rw [hg₁]
      unfold replaceAllUsesWith
      dsimp only
      rw [Function.update_of_ne hd, Function.update_self]
    have hfront : g₁.block merge = front.rename single := by
      rw [hg₁]
      unfold replaceAllUsesWith
      dsimp only
      rw [Function.update_self]
    have hterm : ∀ b, (g₁.block b).terminator.unwindDest = (g.block b).terminator.unwindDest := by
      intro b
      by_cases hbmerge : b = merge
      · rw [hbmerge, hfront]
        exact unwindDest_rename _
      · by_cases hbd : b = d
        · rw [hbd, hold]
          exact unwindDest_rename _
        · rw [hkept b hbd hbmerge]
          exact unwindDest_rename _
    have hmap : (qs.map (Phi.rename single)).map Phi.result = qs.map Phi.result := by
      rw [List.map_map]
      rfl
    obtain ⟨g', hrest, h⟩ := ih (g := g₁) (qs.map (Phi.rename single)) (by rwa [hmap])
      (by
        intro p hp
        obtain ⟨p', hp', rfl⟩ := List.mem_map.mp hp
        rw [hnextReg]
        exact Nat.lt_succ_of_lt (hlt p' (List.mem_cons_of_mem q hp')))
      (by
        intro p hp
        obtain ⟨p', hp', rfl⟩ := List.mem_map.mp hp
        have hpq : p'.result ≠ q.result := fun heq => hq (heq ▸ List.mem_map_of_mem hp')
        let moved : Phi → Phi := fun p =>
          (if p.result = q.result then { p with incoming := incoming } else p).rename single
        have hmoved : ∀ p, (moved p).result = p.result := by
          intro p
          unfold moved
          split <;> rfl
        have hphis : (g₁.block d).phis = (g.block d).phis.map moved := by
          rw [hold]
          exact List.map_map
        have hself : moved p' = p'.rename single := congrArg (Phi.rename single) (if_neg hpq)
        rw [hphis, List.find?_map, ← hself]
        have hsame : ((fun x : Phi => decide (x.result = (moved p').result)) ∘ moved) =
            fun x => decide (x.result = p'.result) := by
          funext x
          simp only [Function.comp_apply, hmoved]
        rw [hsame, hfind p' (List.mem_cons_of_mem q hp'), Option.map_some])
      (by
        intro p hp l hl
        obtain ⟨p', hp', rfl⟩ := List.mem_map.mp hp
        rw [hterm]
        refine hcalls p' (List.mem_cons_of_mem q hp') l ?_
        unfold Phi.rename at hl
        rwa [List.map_map] at hl)
      (by rw [List.length_map]; exact Nat.succ.inj hlen)
    -- one register after the other, or all at once
    have hboth : ∀ b : CodeBlock, (b.rename single).rename
        (numbered ((qs.map (Phi.rename single)).map Phi.result) g₁.nextReg id) =
          b.rename (numbered ((q :: qs).map Phi.result) g.nextReg id) := by
      intro b
      rw [hmap, hnextReg]
      exact rename_comp_numbered hq hresults b
    refine ⟨g', by rw [List.map_cons, List.foldlM_cons, hstep, ← hmap]; exact hrest, ?_, ?_, ?_, ?_,
      ?_, ?_, ?_, ?_⟩
    · rw [h.entry, hg₁]
      rfl
    · rw [h.params, hg₁]
      rfl
    · rw [h.blocks, hg₁]
      rfl
    · rw [h.nextBlock, hg₁]
      rfl
    · rw [h.nextReg, hnextReg, List.length_map, List.length_cons]
      omega
    · intro b hbd hbmerge
      rw [h.kept b hbd hbmerge, hkept b hbd hbmerge, hboth]
    · have hfirst : Phi.rename (numbered ((q :: qs).map Phi.result) g.nextReg id)
          ⟨g.nextReg, incoming⟩ =
            q.map (numbered ((q :: qs).map Phi.result) g.nextReg id) target := by
        unfold Phi.rename Phi.map
        rw [List.map_cons, numbered_cons_self]
        exact congrArg (Phi.mk _) List.map_map
      have hrest' : (qs.map (Phi.rename single)).map (Phi.map
          (numbered ((qs.map (Phi.rename single)).map Phi.result) g₁.nextReg id) target) =
            qs.map (Phi.map (numbered ((q :: qs).map Phi.result) g.nextReg id) target) := by
        rw [hmap, hnextReg, List.map_map]
        refine List.map_congr_left fun p hp => ?_
        have hpq : p.result ≠ q.result := fun heq => hq (heq ▸ List.mem_map_of_mem hp)
        unfold Function.comp Phi.map Phi.rename
        rw [List.map_cons, numbered_cons_of_ne hpq, ← numbered_comp hq hresults, List.map_map]
        simp only [Function.comp_def, operand_rename_comp, single]
      rw [h.merge, hfront, hboth, hrest']
      generalize numbered ((q :: qs).map Phi.result) g.nextReg id = s at hfirst ⊢
      rw [List.map_cons, List.reverse_cons, List.append_assoc, List.singleton_append, ← hfirst]
      rfl
    · rw [h.old, hold, hboth]
      rfl

/-! ## One block is split -/

/-- Where the code of a block is moved to when `d` is split. -/
def moved (f : Func) (d b : ℕ) : ℕ := if b = d then f.nextBlock else b

/-- The block that a predecessor of `d` unwinds to. -/
def target (f : Func) (d : ℕ) : ℕ → ℕ :=
  numbered (f.predecessors d).tail (f.nextBlock + 1) fun _ => d

/-- The register of the landing pad that a predecessor of `d` unwinds to. -/
def padResult (f : Func) (d : ℕ) (pad : LandingPad) : ℕ → ℕ :=
  numbered (f.predecessors d).tail (f.nextReg + 1) fun _ => pad.result

/-- The register for the landing pad, and those for the φ-nodes. -/
def renamed (f : Func) (d : ℕ) (pad : LandingPad) (r : ℕ) : ℕ :=
  if r = pad.result then f.nextReg
  else numbered ((f.block d).phis.map Phi.result)
    (f.nextReg + 1 + (f.predecessors d).tail.length) id r

/-- Where the exceptions of a block unwind to. -/
def redirected (f : Func) (d b u : ℕ) : ℕ := if u = d then target f d b else u

/-- **What splitting the block `d` leaves.** -/
structure Duplicated (f : Func) (d : ℕ) (pad : LandingPad) (f' : Func) : Prop where
  entry : f'.entry = f.entry
  params : f'.params = f.params
  blocks : f'.blocks = f.blocks.map (moved f d) ++
    d :: List.range' (f.nextBlock + 1) (f.predecessors d).tail.length
  nextBlock : f'.nextBlock = f.nextBlock + 1 + (f.predecessors d).tail.length
  nextReg : f'.nextReg =
    f.nextReg + 1 + (f.predecessors d).tail.length + (f.block d).phis.length
  kept : ∀ b ∈ f.blocks, b ≠ d → f'.block b =
    { phis := (f.block b).phis.map (Phi.map (renamed f d pad) (moved f d))
      landingPad := (f.block b).landingPad
      body := (f.block b).body.map (Instr.rename (renamed f d pad))
      terminator := ((f.block b).terminator.mapUnwindDest (redirected f d b)).rename
        (renamed f d pad) }
  merge : f'.block f.nextBlock =
    { phis := ((f.block d).phis.map (Phi.map (renamed f d pad) (target f d))).reverse ++
        [⟨f.nextReg, (f.predecessors d).map fun p => (target f d p, .reg (padResult f d pad p))⟩]
      landingPad := none
      body := (f.block d).body.map (Instr.rename (renamed f d pad))
      terminator := ((f.block d).terminator.mapUnwindDest (redirected f d d)).rename
        (renamed f d pad) }
  first : f'.block d = padBlock f.nextBlock pad pad.result
  copies : ∀ i < (f.predecessors d).tail.length,
    f'.block (f.nextBlock + 1 + i) = padBlock f.nextBlock pad (f.nextReg + 1 + i)

theorem moved_self : moved f d d = f.nextBlock := if_pos rfl

theorem moved_of_ne {b : ℕ} (hb : b ≠ d) : moved f d b = b := if_neg hb

/-- A predecessor that is not the first one has a copy of the landing pad. -/
theorem target_bounds {p : ℕ} (hp : p ∈ (f.predecessors d).tail) : f.nextBlock < target f d p ∧
    target f d p < f.nextBlock + 1 + (f.predecessors d).tail.length :=
  numbered_bounds _ _ hp

theorem target_of_not_mem {p : ℕ} (hp : p ∉ (f.predecessors d).tail) : target f d p = d :=
  numbered_of_not_mem hp

theorem unwindDest_mapUnwindDest {τ : ℕ → ℕ} (t : Terminator) :
    (t.mapUnwindDest τ).unwindDest = t.unwindDest.map τ := by cases t <;> rfl

theorem mapUnwindDest_congr {τ τ' : ℕ → ℕ} {t : Terminator}
    (h : ∀ u, t.unwindDest = some u → τ u = τ' u) : t.mapUnwindDest τ = t.mapUnwindDest τ' := by
  cases t with
  | br dest => rfl
  | switch op operands dests => rfl
  | invoke result op operands normalDest unwindDest =>
    exact congrArg (Terminator.invoke result op operands normalDest) (h unwindDest rfl)

/-- The block that a recorded call unwinds to has the block of the call for a predecessor. -/
theorem getUnwindDest_mem {invokeInst : ℕ} (h : getUnwindDest f invokeInst = some d) :
    ∃ b ∈ f.blocks, invokeInst ∈ (f.block b).terminator.results ∧
      (f.block b).terminator.unwindDest = some d := by
  obtain ⟨b, hb, hcall⟩ := List.exists_of_findSome?_eq_some h
  split at hcall
  · rename_i hresult
    exact ⟨b, hb, hresult, hcall⟩
  · cases hcall

section Split

variable (hf : f.WellFormed) (hpad : (f.block d).landingPad = some pad)
include hf hpad

/-- Only exceptions lead to a landing pad. -/
theorem mem_successors_pad {b : ℕ} (hb : b ∈ f.blocks) :
    d ∈ (f.block b).terminator.successors ↔ (f.block b).terminator.unwindDest = some d := by
  rw [Func.mem_successors]
  refine ⟨fun h => h.resolve_left fun hbranch => ?_, .inr⟩
  rw [hf.branches b hb d hbranch] at hpad
  cases hpad

/-- The predecessors of a block with a landing pad are the blocks with calls that unwind to it. -/
theorem predecessors_eq :
    f.predecessors d = f.blocks.filter fun b => (f.block b).terminator.unwindDest = some d := by
  have hcount : ∀ b ∈ f.blocks, (f.block b).terminator.successors.count d =
      if (f.block b).terminator.unwindDest = some d then 1 else 0 := by
    intro b hb
    have hbranch : d ∉ (f.block b).terminator.branches := by
      intro hmem
      rw [hf.branches b hb d hmem] at hpad
      cases hpad
    cases ht : (f.block b).terminator with
    | br dest =>
      rw [ht] at hbranch
      simp only [Terminator.unwindDest, reduceCtorEq, if_false]
      exact List.count_eq_zero.mpr hbranch
    | switch op operands dests =>
      rw [ht] at hbranch
      simp only [Terminator.unwindDest, reduceCtorEq, if_false]
      exact List.count_eq_zero.mpr hbranch
    | invoke result op operands normalDest unwindDest =>
      rw [ht] at hbranch
      have hnormal : normalDest ≠ d := fun h => hbranch (h ▸ List.mem_singleton_self _)
      simp only [Terminator.unwindDest, Option.some.injEq, Terminator.successors]
      rw [List.count_cons_of_ne hnormal, List.count_singleton]
      simp
  unfold Func.predecessors
  have hflat : ∀ bs : List ℕ, (∀ b ∈ bs, b ∈ f.blocks) →
      (bs.flatMap fun b => List.replicate ((f.block b).terminator.successors.count d) b) =
        bs.filter fun b => (f.block b).terminator.unwindDest = some d := by
    intro bs hbs
    induction bs with
    | nil => rfl
    | cons b bs ih =>
      rw [List.flatMap_cons, hcount b (hbs b List.mem_cons_self),
        ih fun b hb => hbs b (List.mem_cons_of_mem _ hb), List.filter_cons]
      split <;> simp_all
  exact hflat f.blocks fun _ hb => hb

theorem mem_predecessors {b : ℕ} :
    b ∈ f.predecessors d ↔ b ∈ f.blocks ∧ (f.block b).terminator.unwindDest = some d := by
  rw [predecessors_eq hf hpad, List.mem_filter, decide_eq_true_eq]

theorem predecessors_nodup : (f.predecessors d).Nodup := by
  rw [predecessors_eq hf hpad]
  exact hf.blocksNodup.filter _

omit hpad in
/-- The code of different blocks is moved to different blocks. -/
theorem moved_inj {b b' : ℕ} (hb : b ∈ f.blocks) (hb' : b' ∈ f.blocks)
    (h : moved f d b = moved f d b') : b = b' := by
  have hlt := hf.blocksLt b hb
  have hlt' := hf.blocksLt b' hb'
  unfold moved at h
  split_ifs at h <;> omega

/-- The first step: the block is split, and the φ-node for the landing pad is made. -/
theorem split_spec (hd : d ∈ f.blocks) :
    let g := createPHI (splitBasicBlock f d) d f.nextBlock pad
    (∀ b ∈ f.blocks, b ≠ d → g.block b =
        { f.block b with phis := (f.block b).phis.map (Phi.retarget (moved f d)) }) ∧
      g.block d = { padBlock f.nextBlock pad pad.result with
        phis := (f.block d).phis.map (Phi.retarget (moved f d)) } ∧
      g.block f.nextBlock = { f.block d with
        phis := [⟨f.nextReg, [(d, .reg pad.result)]⟩], landingPad := none } := by
  have hdlt := hf.blocksLt d hd
  have hmerge : f.nextBlock ∉ (f.block d).terminator.successors := fun hmem =>
    lt_irrefl _ (hf.blocksLt _ (hf.successors d hd _ hmem))
  -- a block that is no successor has no φ-node with a value for `d`
  have hretarget : ∀ b ∈ f.blocks, b ∉ (f.block d).terminator.successors →
      (f.block b).phis.map (Phi.retarget (moved f d)) = (f.block b).phis := by
    intro b hb hnot
    refine (List.map_congr_left (g := id) fun p hp => ?_).trans (List.map_id _)
    have hlabels : ∀ e ∈ p.incoming, (moved f d e.1, e.2) = e := by
      intro e he
      have hl := (hf.phis b hb p hp e.1).mp (List.mem_map_of_mem he)
      have hne : e.1 ≠ d := fun heq => hnot (heq ▸ hl.2)
      rw [moved, if_neg hne]
    unfold Phi.retarget
    rw [List.map_congr_left (g := id) hlabels, List.map_id]
    rfl
  have hsplit : ∀ b ∈ f.blocks, (splitBasicBlock f d).block b =
      { (if b = d then { f.block d with body := [], terminator := .br f.nextBlock } else f.block b)
        with phis := (f.block b).phis.map (Phi.retarget (moved f d)) } := by
    intro b hb
    have hbmerge : b ≠ f.nextBlock := Nat.ne_of_lt (hf.blocksLt b hb)
    unfold splitBasicBlock
    dsimp only
    rw [Function.update_of_ne hbmerge]
    by_cases hbd : b = d
    · subst hbd
      rw [Function.update_self, if_pos rfl]
      split
      · rfl
      · rename_i hnot
        rw [hretarget b hb hnot]
    · rw [Function.update_of_ne hbd, if_neg hbd]
      split
      · rfl
      · rename_i hnot
        rw [hretarget b hb hnot]
  have hcreate : ∀ b, b ≠ f.nextBlock →
      (createPHI (splitBasicBlock f d) d f.nextBlock pad).block b = (splitBasicBlock f d).block b :=
    fun b hb => Function.update_of_ne hb ..
  dsimp only
  refine ⟨fun b hb hbd => ?_, ?_, ?_⟩
  · rw [hcreate b (Nat.ne_of_lt (hf.blocksLt b hb)), hsplit b hb, if_neg hbd]
  · rw [hcreate d (Nat.ne_of_lt hdlt), hsplit d hd, if_pos rfl]
    dsimp only
    rw [hpad]
    rfl
  · unfold createPHI
    dsimp only
    rw [Function.update_self]
    unfold splitBasicBlock
    dsimp only
    rw [if_neg hmerge, Function.update_self]

variable (pad) in
omit hpad in
/-- Renaming first the landing pad and then the φ-nodes. -/
theorem renamed_eq (hd : d ∈ f.blocks) : renamed f d pad =
    numbered ((f.block d).phis.map Phi.result)
      (f.nextReg + 1 + (f.predecessors d).tail.length) id ∘
        fun r => if r = pad.result then f.nextReg else r := by
  funext r
  unfold renamed
  by_cases hr : r = pad.result
  · rw [if_pos hr, Function.comp_apply, if_pos hr, numbered_of_not_mem]
    · rfl
    · intro hmem
      obtain ⟨p, hp, hresult⟩ := List.mem_map.mp hmem
      have hlt := hf.resultsLt d hd _ (Func.mem_results_phi hp)
      omega
  · rw [if_neg hr, Function.comp_apply, if_neg hr]

/-- What other blocks define keeps its name. -/
theorem renamed_of_mem (hd : d ∈ f.blocks) {b r : ℕ} (hb : b ∈ f.blocks) (hbd : b ≠ d)
    (hr : r ∈ (f.block b).results) : renamed f d pad r = r := by
  obtain ⟨home, hhome⟩ := hf.resultsApart
  have hnot : r ∉ (f.block d).results := fun hmem =>
    hbd ((hhome b hb r hr).symm.trans (hhome d hd r hmem))
  unfold renamed
  rw [if_neg, numbered_of_not_mem]
  · rfl
  · intro hmem
    obtain ⟨p, hp, rfl⟩ := List.mem_map.mp hmem
    exact hnot (Func.mem_results_phi hp)
  · rintro rfl
    exact hnot (Func.mem_results_pad hpad)

/-- The call at the end of a block unwinds where the copies of the landing pad say. -/
theorem numbered_eq_redirected {b u : ℕ} (hu : (f.block b).terminator.unwindDest = some u) :
    numbered (f.predecessors d).tail (f.nextBlock + 1) (fun _ => u) b = redirected f d b u := by
  unfold redirected
  by_cases hb : b ∈ (f.predecessors d).tail
  · have hud : u = d := by
      have hcall := ((mem_predecessors hf hpad).mp (List.mem_of_mem_tail hb)).2
      exact Option.some.inj (hu.symm.trans hcall)
    rw [if_pos hud, numbered_of_mem hb]
    exact (numbered_of_mem hb).symm
  · rw [numbered_of_not_mem hb, target_of_not_mem hb]
    split
    · assumption
    · rfl

omit hf hpad in
/-- A block that does not unwind to itself as a later predecessor keeps where it unwinds to. -/
theorem mapUnwindDest_redirected_self (hself : d ∉ (f.predecessors d).tail) (t : Terminator) :
    t.mapUnwindDest (redirected f d d) = t := by
  have hstay : redirected f d d = fun u => u := by
    funext u
    unfold redirected
    rw [target_of_not_mem hself]
    split
    · rename_i hud
      exact hud.symm
    · rfl
  rw [hstay, mapUnwindDest_id]

/-- The φ-node for the landing pad has an entry for the old landing pad and one for each copy. -/
theorem padPhi_incoming (hpos : f.predecessors d ≠ []) :
    ((d, .reg pad.result) :: (f.predecessors d).tail.map fun p =>
        (target f d p, .reg (padResult f d pad p)) : List (ℕ × Operand)) =
      (f.predecessors d).map fun p => (target f d p, .reg (padResult f d pad p)) := by
  obtain ⟨a, hhead⟩ : ∃ a, f.predecessors d = a :: (f.predecessors d).tail := by
    cases hpreds : f.predecessors d with
    | nil => exact absurd hpreds hpos
    | cons a l => exact ⟨a, rfl⟩
  have ha : a ∉ (f.predecessors d).tail :=
    (List.nodup_cons.mp (hhead ▸ predecessors_nodup hf hpad)).1
  conv_rhs => rw [hhead]
  rw [List.map_cons, target_of_not_mem ha,
    show padResult f d pad a = pad.result from numbered_of_not_mem ha]

/-! ### The landing pads -/

omit hf hpad in
/-- The register of the new φ-node for that of the landing pad. -/
def padReplaced (f : Func) (pad : LandingPad) (r : ℕ) : ℕ :=
  if r = pad.result then f.nextReg else r

/-- What is left before the φ-nodes of the block are moved. -/
structure PadsDuplicated (f : Func) (d : ℕ) (pad : LandingPad) (g : Func) : Prop where
  entry : g.entry = f.entry
  params : g.params = f.params
  blocks : g.blocks = f.blocks.map (moved f d) ++
    d :: List.range' (f.nextBlock + 1) (f.predecessors d).tail.length
  nextBlock : g.nextBlock = f.nextBlock + 1 + (f.predecessors d).tail.length
  nextReg : g.nextReg = f.nextReg + 1 + (f.predecessors d).tail.length
  kept : ∀ b ∈ f.blocks, b ≠ d → g.block b = { f.block b with
      phis := (f.block b).phis.map (Phi.retarget (moved f d))
      terminator := (f.block b).terminator.mapUnwindDest (redirected f d b) }.rename
    (padReplaced f pad)
  merge : g.block f.nextBlock =
    { phis := [⟨f.nextReg, (f.predecessors d).map fun p =>
        (target f d p, .reg (padResult f d pad p))⟩]
      landingPad := none
      body := (f.block d).body.map (Instr.rename (padReplaced f pad))
      terminator := (f.block d).terminator.rename (padReplaced f pad) }
  first : g.block d = { padBlock f.nextBlock pad pad.result with
    phis := ((f.block d).phis.map (Phi.retarget (moved f d))).map (Phi.rename (padReplaced f pad)) }
  copies : ∀ i < (f.predecessors d).tail.length,
    g.block (f.nextBlock + 1 + i) = padBlock f.nextBlock pad (f.nextReg + 1 + i)

/-- **All landing pads** are copied, and the φ-node takes the place of the old one. -/
theorem landingPads_spec (hd : d ∈ f.blocks) (hpos : f.predecessors d ≠ [])
    (hself : d ∉ (f.predecessors d).tail) :
    ∃ g, (f.predecessors d).tail.foldlM (copyLandingPad f.nextBlock f.nextReg pad)
        (createPHI (splitBasicBlock f d) d f.nextBlock pad) = some g ∧
      PadsDuplicated f d pad (setFirstIncomingValue f.nextBlock f.nextReg (.reg pad.result)
        (replaceAllUsesWith pad.result f.nextReg g)) := by
  obtain ⟨hkept₀, hfirst₀, hmerge₀⟩ := split_spec hf hpad hd
  have hdlt := hf.blocksLt d hd
  have hpadlt := hf.resultsLt d hd _ (Func.mem_results_pad hpad)
  have hnextBlock₀ : (createPHI (splitBasicBlock f d) d f.nextBlock pad).nextBlock =
      f.nextBlock + 1 := rfl
  have hnextReg₀ : (createPHI (splitBasicBlock f d) d f.nextBlock pad).nextReg =
      f.nextReg + 1 := rfl
  have hblocks₀ : (createPHI (splitBasicBlock f d) d f.nextBlock pad).blocks =
      f.blocks.map (moved f d) ++ [d] := rfl
  have hentry₀ : (createPHI (splitBasicBlock f d) d f.nextBlock pad).entry = f.entry := rfl
  have hparams₀ : (createPHI (splitBasicBlock f d) d f.nextBlock pad).params = f.params := rfl
  generalize createPHI (splitBasicBlock f d) d f.nextBlock pad = g₀ at *
  obtain ⟨g₁, hcopy, h₁⟩ := copyLandingPads_spec (g := g₀) f.nextBlock f.nextReg pad
    (predecessors_nodup hf hpad).tail (by
      intro p hp
      obtain ⟨hb, hcall⟩ := (mem_predecessors hf hpad).mp (List.mem_of_mem_tail hp)
      have hlt := hf.blocksLt p hb
      refine ⟨by omega, by omega, ?_⟩
      rw [hkept₀ p hb fun h => hself (h ▸ hp)]
      dsimp only
      rw [hcall]
      exact Option.some_ne_none d) (by omega)
  have hkept₁ := h₁.kept
  have hcopies₁ := h₁.copies
  have hmerge₁ := h₁.merge
  rw [hnextBlock₀] at hkept₁ hcopies₁ hmerge₁
  rw [hnextReg₀] at hcopies₁ hmerge₁
  have hother : ∀ b, b ≠ f.nextBlock →
      (setFirstIncomingValue f.nextBlock f.nextReg (.reg pad.result)
        (replaceAllUsesWith pad.result f.nextReg g₁)).block b =
          (g₁.block b).rename (padReplaced f pad) := fun b hb => Function.update_of_ne hb ..
  refine ⟨g₁, hcopy, ?_, ?_, ?_, ?_, ?_, fun b hb hbd => ?_, ?_, ?_, fun i hi => ?_⟩
  · exact h₁.entry.trans hentry₀
  · exact h₁.params.trans hparams₀
  · refine h₁.blocks.trans ?_
    rw [hblocks₀, hnextBlock₀, List.append_assoc]
    rfl
  · exact h₁.nextBlock.trans (by rw [hnextBlock₀])
  · exact h₁.nextReg.trans (by rw [hnextReg₀])
  · have hlt := hf.blocksLt b hb
    rw [hother b (Nat.ne_of_lt hlt), hkept₁ b (by omega) (Nat.ne_of_lt hlt), hkept₀ b hb hbd,
      mapUnwindDest_congr fun u hu => numbered_eq_redirected hf hpad hu]
  · have hself : (setFirstIncomingValue f.nextBlock f.nextReg (.reg pad.result)
        (replaceAllUsesWith pad.result f.nextReg g₁)).block f.nextBlock =
        { (g₁.block f.nextBlock).rename (padReplaced f pad) with
          phis := ((g₁.block f.nextBlock).rename (padReplaced f pad)).phis.map fun q =>
            if q.result = f.nextReg then
              { q with incoming := q.incoming.modifyHead fun e => (e.1, .reg pad.result) }
            else q } := Function.update_self ..
    have hnames : ∀ p ∈ (f.predecessors d).tail,
        ((numbered (f.predecessors d).tail (f.nextBlock + 1) id p,
          (Operand.reg (numbered (f.predecessors d).tail (f.nextReg + 1) id p)).rename
            (padReplaced f pad)) : ℕ × Operand) =
              (target f d p, .reg (padResult f d pad p)) := by
      intro p hp
      have hne : numbered (f.predecessors d).tail (f.nextReg + 1) id p ≠ pad.result := by
        have hle := (numbered_bounds (f.nextReg + 1) id hp).1
        omega
      have hkeep : (Operand.reg (numbered (f.predecessors d).tail (f.nextReg + 1) id p)).rename
          (padReplaced f pad) = .reg (numbered (f.predecessors d).tail (f.nextReg + 1) id p) :=
        congrArg Operand.reg (if_neg hne)
      rw [hkeep]
      unfold target padResult
      rw [numbered_of_mem hp, numbered_of_mem hp, numbered_of_mem hp, numbered_of_mem hp]
    rw [hself, hmerge₁, hmerge₀, ← padPhi_incoming hf hpad hpos, ← List.map_congr_left hnames]
    simp only [CodeBlock.rename, List.map_cons, List.map_nil, if_true, Phi.rename,
      List.cons_append, List.nil_append, List.map_map, List.modifyHead_cons]
    rfl
  · rw [hother d (Nat.ne_of_lt hdlt), hkept₁ d (by omega) (Nat.ne_of_lt hdlt), hfirst₀]
    rfl
  · rw [hother _ (by omega), hcopies₁ i hi]
    rfl

/-! ### The φ-nodes -/

/-- The blocks that the values of the φ-nodes come from after the split, and their new ones. -/
def movedTarget (f : Func) (d l : ℕ) : ℕ := target f d (if l = f.nextBlock then d else l)

omit hpad in
theorem movedTarget_moved {l : ℕ} (hl : l ∈ f.blocks) :
    movedTarget f d (moved f d l) = target f d l := by
  have hlt := hf.blocksLt l hl
  unfold movedTarget moved
  by_cases hld : l = d
  · rw [if_pos hld, if_pos rfl, hld]
  · rw [if_neg hld, if_neg (Nat.ne_of_lt hlt)]

/-- Only predecessors have values in the φ-nodes of the block. -/
theorem labels_unwind (hd : d ∈ f.blocks) {q : Phi} (hq : q ∈ (f.block d).phis)
    {e : ℕ × Operand} (he : e ∈ q.incoming) :
    e.1 ∈ f.blocks ∧ (f.block e.1).terminator.unwindDest = some d := by
  obtain ⟨hl, hsucc⟩ := (hf.phis d hd q hq e.1).mp (List.mem_map_of_mem he)
  exact ⟨hl, (mem_successors_pad hf hpad hl).mp hsucc⟩

/-- **All φ-nodes** of the block are moved. -/
theorem PadsDuplicated.movePhis {g : Func} (h : PadsDuplicated f d pad g) (hd : d ∈ f.blocks)
    (hself : d ∉ (f.predecessors d).tail) :
    ∃ g', ((g.block d).phis.map Phi.result).foldlM (movePhi d f.nextBlock) g = some g' ∧
      Duplicated f d pad (removePhis d g') := by
  have hdlt := hf.blocksLt d hd
  have hnodup := hf.resultsNodup d hd
  unfold CodeBlock.results at hnodup
  obtain ⟨hphisNodup, -, hapart⟩ := List.nodup_append.mp hnodup
  have hpadApart : ∀ q ∈ (f.block d).phis, q.result ≠ pad.result := fun q hq =>
    hapart _ (List.mem_map_of_mem hq) _
      (List.mem_append_left _ (List.mem_map_of_mem (Option.mem_toList.mpr hpad)))
  -- the φ-nodes that are moved
  have hphis : (g.block d).phis = ((f.block d).phis.map (Phi.retarget (moved f d))).map
      (Phi.rename (padReplaced f pad)) := by rw [h.first]
  have hresults : (g.block d).phis.map Phi.result = (f.block d).phis.map Phi.result := by
    rw [hphis, List.map_map, List.map_map]
    rfl
  have hmem : ∀ q ∈ (g.block d).phis, ∃ q' ∈ (f.block d).phis,
      q = (q'.retarget (moved f d)).rename (padReplaced f pad) := by
    intro q hq
    rw [hphis, List.map_map] at hq
    obtain ⟨q', hq', rfl⟩ := List.mem_map.mp hq
    exact ⟨q', hq', rfl⟩
  obtain ⟨g', hmove, h'⟩ := movePhis_spec (g := g) (movedTarget f d) (g.block d).phis
    (Nat.ne_of_lt hdlt) (by rw [hresults]; exact hphisNodup)
    (by
      intro q hq
      obtain ⟨q', hq', rfl⟩ := hmem q hq
      have hlt := hf.resultsLt d hd _ (Func.mem_results_phi hq')
      rw [h.nextReg]
      exact Nat.lt_of_lt_of_le hlt (by omega))
    (fun q hq => Phi.find_result (by rw [hresults]; exact hphisNodup) hq)
    (by
      intro q hq l hl
      obtain ⟨q', hq', rfl⟩ := hmem q hq
      obtain ⟨e, he, rfl⟩ := List.mem_map.mp hl
      obtain ⟨e₁, he₁, rfl⟩ := List.mem_map.mp he
      obtain ⟨e₀, he₀, rfl⟩ := List.mem_map.mp he₁
      obtain ⟨hl₀, hcall⟩ := labels_unwind hf hpad hd hq' he₀
      dsimp only
      rw [movedTarget_moved hf hl₀]
      by_cases hld : e₀.1 = d
      · rw [hld] at hcall ⊢
        rw [moved_self, h.merge, target_of_not_mem hself]
        exact (unwindDest_rename _).trans hcall
      · rw [moved_of_ne hld, h.kept _ hl₀ hld]
        refine (unwindDest_rename _).trans ?_
        dsimp only
        rw [unwindDest_mapUnwindDest, hcall, Option.map_some, redirected, if_pos rfl])
  -- the names of the registers
  have hkept := h'.kept
  have hmerge := h'.merge
  have hold := h'.old
  rw [hresults, h.nextReg] at hkept hmerge hold
  have hnames := renamed_eq pad hf hd
  have hlast : ∀ r, (∀ q ∈ (f.block d).phis, q.result ≠ r) →
      numbered ((f.block d).phis.map Phi.result)
        (f.nextReg + 1 + (f.predecessors d).tail.length) id r = r := by
    intro r hr
    refine numbered_of_not_mem fun hmem => ?_
    obtain ⟨q, hq, hresult⟩ := List.mem_map.mp hmem
    exact hr q hq hresult
  generalize numbered ((f.block d).phis.map Phi.result)
    (f.nextReg + 1 + (f.predecessors d).tail.length) id = last at hkept hmerge hold hnames hlast
  have hnames : renamed f d pad = last ∘ padReplaced f pad := hnames
  have hremoved : ∀ b, b ≠ d → (removePhis d g').block b = g'.block b :=
    fun b hb => Function.update_of_ne hb ..
  refine ⟨g', hmove, h'.entry.trans h.entry, h'.params.trans h.params,
    h'.blocks.trans h.blocks, h'.nextBlock.trans h.nextBlock, ?_, fun b hb hbd => ?_, ?_, ?_,
    fun i hi => ?_⟩
  · refine h'.nextReg.trans ?_
    rw [h.nextReg, hphis, List.length_map, List.length_map]
  · rw [hremoved b hbd, hkept b hbd (Nat.ne_of_lt (hf.blocksLt b hb)), h.kept b hb hbd,
      block_rename_comp, ← hnames]
    unfold CodeBlock.rename
    dsimp only
    have hphis : ((f.block b).phis.map (Phi.retarget (moved f d))).map
        (Phi.rename (renamed f d pad)) =
          (f.block b).phis.map (Phi.map (renamed f d pad) (moved f d)) := by
      rw [List.map_map]
      refine List.map_congr_left fun q hq => ?_
      have hresult := renamed_of_mem hf hpad hd hb hbd (Func.mem_results_phi hq)
      unfold Function.comp Phi.rename Phi.retarget Phi.map
      rw [hresult, List.map_map]
      rfl
    rw [hphis]
  · have hfront : (g.block d).phis.map (Phi.map last (movedTarget f d)) =
        (f.block d).phis.map (Phi.map (renamed f d pad) (target f d)) := by
      rw [hphis, List.map_map, List.map_map]
      refine List.map_congr_left fun q hq => ?_
      have hresult : last q.result = renamed f d pad q.result := by
        rw [hnames, Function.comp_apply]
        exact congrArg last (if_neg (hpadApart q hq)).symm
      have hincoming : ((q.retarget (moved f d)).rename (padReplaced f pad)).incoming.map
          (fun e => (movedTarget f d e.1, e.2.rename last)) =
            q.incoming.map fun e => (target f d e.1, e.2.rename (renamed f d pad)) := by
        unfold Phi.rename Phi.retarget
        rw [List.map_map, List.map_map]
        refine List.map_congr_left fun e he => ?_
        simp only [Function.comp_apply, operand_rename_comp, ← hnames,
          movedTarget_moved hf (labels_unwind hf hpad hd hq he).1]
      exact congrArg₂ Phi.mk hresult hincoming
    -- the copies of the landing pad keep their names
    have hkeep : ∀ p, last (padResult f d pad p) = padResult f d pad p := by
      intro p
      refine hlast _ fun q hq heq => ?_
      by_cases hmem : p ∈ (f.predecessors d).tail
      · have hlt := hf.resultsLt d hd _ (Func.mem_results_phi hq)
        have hle : f.nextReg + 1 ≤ padResult f d pad p := (numbered_bounds _ _ hmem).1
        omega
      · exact hpadApart q hq (heq.trans (numbered_of_not_mem hmem))
    have hnode : (Phi.mk f.nextReg ((f.predecessors d).map fun p =>
          (target f d p, .reg (padResult f d pad p)))).rename last =
        ⟨f.nextReg, (f.predecessors d).map fun p => (target f d p, .reg (padResult f d pad p))⟩ := by
      unfold Phi.rename
      dsimp only
      rw [List.map_map]
      refine congrArg (Phi.mk _) (List.map_congr_left fun p _ => ?_)
      exact congrArg (fun r => (target f d p, Operand.reg r)) (hkeep p)
    rw [hremoved _ (Nat.ne_of_gt hdlt), hmerge, h.merge, hfront,
      mapUnwindDest_redirected_self hself, hnames]
    unfold CodeBlock.rename
    dsimp only
    rw [List.map_cons, List.map_nil, hnode, List.map_map, terminator_rename_comp]
    simp only [Function.comp_def, instr_rename_comp]
  · rw [show (removePhis d g').block d = { g'.block d with phis := [] } from
      Function.update_self .., hold, h.first]
    rfl
  · have hne : f.nextBlock + 1 + i ≠ d := by omega
    rw [hremoved _ hne, hkept _ hne (by omega), h.copies i hi]
    rfl

/-- **The block is split.** -/
theorem duplicateUnwind_spec (hd : d ∈ f.blocks) {invokeInst : ℕ}
    (hunwind : getUnwindDest f invokeInst = some d) (hlen : (f.predecessors d).length ≠ 1)
    (hself : d ∉ (f.predecessors d).tail) :
    ∃ f', duplicateUnwind f invokeInst = some f' ∧ Duplicated f d pad f' := by
  have hpos : f.predecessors d ≠ [] := by
    obtain ⟨b, hb, -, hcall⟩ := getUnwindDest_mem hunwind
    exact List.ne_nil_of_mem ((mem_predecessors hf hpad).mpr ⟨hb, hcall⟩)
  obtain ⟨g, hcopy, hg⟩ := landingPads_spec hf hpad hd hpos hself
  obtain ⟨g', hmove, hg'⟩ := hg.movePhis hf hpad hd hself
  refine ⟨removePhis d g', ?_, hg'⟩
  unfold duplicateUnwind
  rw [hunwind, Option.bind_eq_bind, Option.bind_some]
  dsimp only
  rw [if_neg hlen, hpad, Option.bind_eq_bind, Option.bind_some, hcopy, Option.bind_eq_bind,
    Option.bind_some, hmove]
  rfl

/-- A block that unwinds to itself, not as the first predecessor, makes the pass follow a null
pointer. -/
theorem duplicateUnwind_none (hd : d ∈ f.blocks) {invokeInst : ℕ}
    (hunwind : getUnwindDest f invokeInst = some d) (hself : d ∈ (f.predecessors d).tail) :
    duplicateUnwind f invokeInst = none := by
  obtain ⟨-, hfirst₀, -⟩ := split_spec hf hpad hd
  have hdlt := hf.blocksLt d hd
  have hlen : (f.predecessors d).length ≠ 1 := by
    have hpos := List.length_pos_of_mem hself
    rw [List.length_tail] at hpos
    omega
  have hcopies := copyLandingPads_none (g := createPHI (splitBasicBlock f d) d f.nextBlock pad)
    f.nextBlock f.nextReg pad hself (Nat.lt_succ_of_lt hdlt) (Nat.ne_of_lt hdlt) (by rw [hfirst₀]; rfl)
  unfold duplicateUnwind
  rw [hunwind, Option.bind_eq_bind, Option.bind_some]
  dsimp only
  rw [if_neg hlen, hpad, Option.bind_eq_bind, Option.bind_some, hcopies]
  rfl

end Split

end PostMLTAPass

end Semalloc
