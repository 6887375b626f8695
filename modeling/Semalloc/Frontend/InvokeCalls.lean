import Semalloc.Frontend.CallPath
import Semalloc.Frontend.InvokeUnwinds

/-!
# Calls in place of calls that may throw

The analyses between `PreMLTAPass` and `PostMLTAPass` look at plain calls only. So the first pass
puts a plain call before each call that may throw and lets the uses of its result be uses of the
plain one's, and the second pass takes all this back and lets the call paths found meanwhile be
about the calls that may throw.

## Main definitions

* `PreMLTAPass.lowerInvokeCalls`: the plain calls, and the map from them
* `PostMLTAPass.recoverInvokeCalls`, `PostMLTAPass.recoverCallPaths`: the way back
* `lowered`: the function with some of its plain calls in place

## Main results

* `lowerInvokeCalls_lowered`: what the first pass leaves
* `recoverInvoke_lowered`: one entry of the map is taken back
* `invoke_calls_recovered`: the round trip
-/

set_option autoImplicit false

namespace Semalloc

open SSA

/-! ## The passes -/

namespace PreMLTAPass

/-- Put a call before the call that ends a block, if one does, and let the uses of the old result be
uses of the new one. -/
def lowerInvoke (s : Func × List (ℕ × ℕ)) (b : ℕ) : Func × List (ℕ × ℕ) :=
  let f := s.1
  match (f.block b).terminator with
  | .invoke II op operands _ _ =>
    let NewCall := f.nextReg
    let f := { f with
      block := Function.update f.block b
        { f.block b with body := (f.block b).body ++ [⟨NewCall, op, operands⟩] }
      nextReg := NewCall + 1 }
    (PostMLTAPass.replaceAllUsesWith II NewCall f, s.2 ++ [(NewCall, II)])
  | _ => s

/-- The loop over the blocks, with `InvokeMap`. -/
def lowerInvokeCalls (f : Func) : Func × List (ℕ × ℕ) :=
  f.blocks.foldl lowerInvoke (f, [])

end PreMLTAPass

namespace PostMLTAPass

def removeFromParent (callInst : ℕ) (f : Func) : Func :=
  { f with block := fun b =>
      { f.block b with body := (f.block b).body.filter fun i => i.result ≠ callInst } }

/-- Let the uses of a call be uses of the call that may throw, and remove it. -/
def recoverInvoke (f : Func) (entry : ℕ × ℕ) : Func :=
  removeFromParent entry.1 (replaceAllUsesWith entry.1 entry.2 f)

/-- The loop over `_Call2InvokeMap`, which is ordered by addresses. -/
def recoverInvokeCalls (f : Func) (call2InvokeMap : List (ℕ × ℕ)) : Func :=
  call2InvokeMap.foldl recoverInvoke f

/-- Let a call path be about the call that may throw, if its call stands for one. -/
def recoverCallPath (call2InvokeMap : List (ℕ × ℕ)) (callPath : CallPath) : CallPath :=
  match call2InvokeMap.find? fun e => e.1 = callPath.callInst with
  | some entry => { callPath with callInst := entry.2 }
  | none => callPath

/-- The loops over the lists of call paths. -/
def recoverCallPaths (call2InvokeMap : List (ℕ × ℕ)) (functionMap : List (List ℕ))
    (callPaths : ℕ → CallPath) : ℕ → CallPath :=
  functionMap.flatten.foldl
    (fun callPaths p =>
      Function.update callPaths p (recoverCallPath call2InvokeMap (callPaths p))) callPaths

end PostMLTAPass

/-! ## Functions with some calls in place -/

namespace InvokeCalls

variable {f g : Func} {n : ℕ} {E E' : List (ℕ × ℕ)} {e : ℕ × ℕ} {r b : ℕ}

/-- The register that the uses of `r` read: that of the call which stands for it, if there is one. -/
def callFor (E : List (ℕ × ℕ)) (r : ℕ) : ℕ :=
  ((E.find? fun e => e.2 = r).map Prod.fst).getD r

/-- The call that stands before the end of a block. -/
def insertedCalls (E : List (ℕ × ℕ)) (t : Terminator) : List Instr :=
  match t with
  | .invoke II op operands _ _ => (E.filter fun e => e.2 = II).map fun e => ⟨e.1, op, operands⟩
  | _ => []

/-- The block with the calls of `E` in place. -/
def loweredBlock (E : List (ℕ × ℕ)) (b : CodeBlock) : CodeBlock :=
  { b with body := b.body ++ insertedCalls E b.terminator }.rename (callFor E)

/-- `g` is `f` with the calls of `E` in place. -/
structure Lowered (f : Func) (n : ℕ) (E : List (ℕ × ℕ)) (g : Func) : Prop where
  entry : g.entry = f.entry
  params : g.params = f.params
  blocks : g.blocks = f.blocks
  nextBlock : g.nextBlock = f.nextBlock
  nextReg : g.nextReg = n
  block : ∀ b ∈ f.blocks, g.block b = loweredBlock E (f.block b)

/-- The entries are about different calls of the function that may throw, and about different new
calls. -/
structure Entries (f : Func) (n : ℕ) (E : List (ℕ × ℕ)) : Prop where
  le : f.nextReg ≤ n
  call : ∀ e ∈ E, f.nextReg ≤ e.1 ∧ e.1 < n
  invoke : ∀ e ∈ E, ∃ b ∈ f.blocks, e.2 ∈ (f.block b).terminator.results
  callsNodup : (E.map Prod.fst).Nodup
  invokesNodup : (E.map Prod.snd).Nodup

theorem callFor_of_not_mem (hr : r ∉ E.map Prod.snd) : callFor E r = r := by
  have hnone : E.find? (fun e => e.2 = r) = none := by
    rw [List.find?_eq_none]
    intro e he h
    exact hr (List.mem_map.mpr ⟨e, he, of_decide_eq_true h⟩)
  rw [callFor, hnone]
  rfl

theorem callFor_of_mem (hE : (E.map Prod.snd).Nodup) (he : e ∈ E) : callFor E e.2 = e.1 := by
  obtain ⟨e', he'⟩ : ∃ e', E.find? (fun e' => e'.2 = e.2) = some e' := by
    rw [← Option.isSome_iff_exists, List.find?_isSome]
    exact ⟨e, he, decide_eq_true rfl⟩
  have hmem := List.mem_of_find?_eq_some he'
  have hsnd : e'.2 = e.2 := by simpa using List.find?_some he'
  rw [callFor, he', List.inj_on_of_nodup_map hE hmem he hsnd]
  rfl

namespace Entries

theorem invoke_lt (h : Entries f n E) (hf : f.WellFormed) (he : e ∈ E) : e.2 < f.nextReg := by
  obtain ⟨b, hb, hmem⟩ := h.invoke e he
  exact hf.resultsLt b hb _ (Func.mem_results_terminator hmem)

theorem perm (h : Entries f n E) (hperm : E'.Perm E) : Entries f n E' :=
  ⟨h.le, fun e he => h.call e (hperm.mem_iff.mp he), fun e he => h.invoke e (hperm.mem_iff.mp he),
    (hperm.map _).nodup_iff.mpr h.callsNodup, (hperm.map _).nodup_iff.mpr h.invokesNodup⟩

theorem tail (h : Entries f n (e :: E)) : Entries f n E :=
  ⟨h.le, fun e he => h.call e (List.mem_cons_of_mem _ he),
    fun e he => h.invoke e (List.mem_cons_of_mem _ he),
    (List.nodup_cons.mp h.callsNodup).2, (List.nodup_cons.mp h.invokesNodup).2⟩

end Entries

/-- At most one entry is about a given call. -/
theorem filter_invoke (hE : (E.map Prod.snd).Nodup) (he : e ∈ E) :
    E.filter (fun e' => e'.2 = e.2) = [e] := by
  induction E with
  | nil => cases he
  | cons e₁ E ih =>
    obtain ⟨hnot, hE⟩ := List.nodup_cons.mp hE
    rcases List.mem_cons.mp he with rfl | he
    · have hrest : E.filter (fun e' => e'.2 = e.2) = [] := by
        rw [List.filter_eq_nil_iff]
        intro e' he' h
        exact hnot (List.mem_map.mpr ⟨e', he', of_decide_eq_true h⟩)
      simp [hrest]
    · have hne : e₁.2 ≠ e.2 := fun h => hnot (List.mem_map.mpr ⟨e, he, h.symm⟩)
      rw [List.filter_cons_of_neg (by simpa using hne), ih hE he]

/-- The order of the entries does not matter. -/
theorem callFor_perm (hE : (E.map Prod.snd).Nodup) (hperm : E'.Perm E) :
    callFor E' = callFor E := by
  funext r
  by_cases hr : r ∈ E.map Prod.snd
  · obtain ⟨e, he, rfl⟩ := List.mem_map.mp hr
    rw [callFor_of_mem hE he,
      callFor_of_mem ((hperm.map _).nodup_iff.mpr hE) (hperm.mem_iff.mpr he)]
  · rw [callFor_of_not_mem hr, callFor_of_not_mem fun h => hr ((hperm.map _).mem_iff.mp h)]

theorem insertedCalls_perm (hE : (E.map Prod.snd).Nodup) (hperm : E'.Perm E) (t : Terminator) :
    insertedCalls E' t = insertedCalls E t := by
  cases t with
  | br _ | switch _ _ _ => rfl
  | invoke II op operands _ _ =>
    suffices hfilter : E'.filter (fun e => e.2 = II) = E.filter (fun e => e.2 = II) by
      simp only [insertedCalls, hfilter]
    have hfiltered := hperm.filter fun e => decide (e.2 = II)
    by_cases hII : II ∈ E.map Prod.snd
    · obtain ⟨e, he, rfl⟩ := List.mem_map.mp hII
      rw [filter_invoke hE he] at hfiltered ⊢
      exact List.perm_singleton.mp hfiltered
    · have hnone : E.filter (fun e => decide (e.2 = II)) = [] := by
        rw [List.filter_eq_nil_iff]
        exact fun e he h => hII (List.mem_map.mpr ⟨e, he, of_decide_eq_true h⟩)
      rw [hnone] at hfiltered ⊢
      exact hfiltered.eq_nil

theorem Lowered.perm (h : Lowered f n E g) (hE : Entries f n E) (hperm : E'.Perm E) :
    Lowered f n E' g := by
  refine { h with block := fun b hb => ?_ }
  rw [h.block b hb, loweredBlock, loweredBlock, callFor_perm hE.invokesNodup hperm,
    insertedCalls_perm hE.invokesNodup hperm]

/-! ## Blocks -/

/-- An inserted call stands for the call that ends the block. -/
theorem mem_insertedCalls {t : Terminator} {i : Instr} :
    i ∈ insertedCalls E t ↔ ∃ II op operands normalDest unwindDest,
      t = .invoke II op operands normalDest unwindDest ∧ (i.result, II) ∈ E ∧
        i.op = op ∧ i.operands = operands := by
  cases t with
  | br _ | switch _ _ _ => simp [insertedCalls]
  | invoke II op operands normalDest unwindDest =>
    simp only [insertedCalls, List.mem_map, List.mem_filter, decide_eq_true_eq]
    constructor
    · rintro ⟨⟨c, II'⟩, ⟨he, rfl⟩, rfl⟩
      exact ⟨II', op, operands, normalDest, unwindDest, rfl, he, rfl, rfl⟩
    · rintro ⟨II', op', operands', _, _, heq, he, rfl, rfl⟩
      cases heq
      exact ⟨_, ⟨he, rfl⟩, rfl⟩

/-- The inserted calls use what the block used before. -/
theorem uses_insertedCalls {blk : CodeBlock}
    (hr : r ∈ CodeBlock.uses { blk with body := blk.body ++ insertedCalls E blk.terminator }) :
    r ∈ blk.uses := by
  simp only [CodeBlock.uses, List.mem_append, List.flatMap_append] at hr ⊢
  rcases hr with hphi | (hbody | hcall) | hterm
  · exact .inl hphi
  · exact .inr (.inl hbody)
  · obtain ⟨i, hi, hmem⟩ := List.mem_flatMap.mp hcall
    obtain ⟨II, op, operands, _, _, ht, -, -, hoperands⟩ := mem_insertedCalls.mp hi
    refine .inr (.inr ?_)
    rw [ht]
    rw [hoperands] at hmem
    exact hmem
  · exact .inr (.inr hterm)

/-- The results of the calls that may throw are not renamed. -/
theorem terminator_lowered {blk : CodeBlock} :
    (loweredBlock E blk).terminator = blk.terminator.rename (callFor E) := rfl

/-- The code of a block renamed twice, after another register is replaced as well. -/
theorem rename_replace {blk : CodeBlock} {σ σ' : ℕ → ℕ} {old new m : ℕ}
    (huses : ∀ r ∈ blk.uses, r < m)
    (h : ∀ r < m, (if σ r = old then new else σ r) = σ' r) :
    (blk.rename σ).rename (fun r => if r = old then new else r) = blk.rename σ' := by
  rw [block_rename_comp]
  exact block_rename_congr fun r hr => h r (huses r hr)

/-! ## Lowering -/

/-- A call is put in place. -/
theorem callFor_concat (hE : Entries f n E) {II : ℕ}
    (hII : II ∉ E.map Prod.snd) (hlt : II < f.nextReg) (hr : r < f.nextReg) :
    (if callFor E r = II then n else callFor E r) = callFor (E ++ [(n, II)]) r := by
  have hnodup : ((E ++ [(n, II)]).map Prod.snd).Nodup := by
    rw [List.map_append, List.nodup_append]
    exact ⟨hE.invokesNodup, List.nodup_singleton _, by
      rintro a ha _ hb rfl
      obtain rfl : a = II := List.mem_singleton.mp hb
      exact hII ha⟩
  by_cases hmem : r ∈ E.map Prod.snd
  · obtain ⟨e, he, rfl⟩ := List.mem_map.mp hmem
    have hcall := (hE.call e he).1
    rw [callFor_of_mem hE.invokesNodup he, if_neg (by omega),
      callFor_of_mem hnodup (List.mem_append_left _ he)]
  · rw [callFor_of_not_mem hmem]
    by_cases hr' : r = II
    · subst hr'
      rw [if_pos rfl]
      exact (callFor_of_mem (e := (n, r)) hnodup (by simp)).symm
    · rw [if_neg hr', callFor_of_not_mem]
      rw [List.map_append, List.mem_append]
      rintro (h | h)
      · exact hmem h
      · exact hr' (List.mem_singleton.mp h)

/-- The entries after one more call was put in place. -/
theorem Entries.concat (hE : Entries f n E) {II : ℕ} (hb : b ∈ f.blocks)
    (hres : II ∈ (f.block b).terminator.results) (hII : II ∉ E.map Prod.snd) :
    Entries f (n + 1) (E ++ [(n, II)]) := by
  have hle := hE.le
  refine ⟨by omega, fun e he => ?_, fun e he => ?_, ?_, ?_⟩
  · rcases List.mem_append.mp he with he | he
    · have := hE.call e he
      omega
    · obtain rfl := List.mem_singleton.mp he
      exact ⟨hle, Nat.lt_succ_self n⟩
  · rcases List.mem_append.mp he with he | he
    · exact hE.invoke e he
    · obtain rfl := List.mem_singleton.mp he
      exact ⟨b, hb, hres⟩
  · rw [List.map_append, List.nodup_append]
    refine ⟨hE.callsNodup, List.nodup_singleton _, ?_⟩
    rintro a ha _ hmem rfl
    obtain rfl : a = n := List.mem_singleton.mp hmem
    obtain ⟨e, he, rfl⟩ := List.mem_map.mp ha
    exact absurd (hE.call e he).2 (Nat.lt_irrefl _)
  · rw [List.map_append, List.nodup_append]
    refine ⟨hE.invokesNodup, List.nodup_singleton _, ?_⟩
    rintro a ha _ hmem rfl
    obtain rfl : a = II := List.mem_singleton.mp hmem
    exact hII ha

/-- The calls of one more entry come last. -/
theorem insertedCalls_concat {t : Terminator} {c II : ℕ} :
    insertedCalls (E ++ [(c, II)]) t = insertedCalls E t ++ insertedCalls [(c, II)] t := by
  cases t <;> simp [insertedCalls]

/-- A block that does not end with the call gets none. -/
theorem insertedCalls_of_not_mem {t : Terminator} {c II : ℕ} (h : II ∉ t.results) :
    insertedCalls [(c, II)] t = [] := by
  cases t with
  | br _ | switch _ _ _ => rfl
  | invoke II' op operands normalDest unwindDest =>
    have hne : II ≠ II' := fun he => h (List.mem_singleton.mpr he)
    simp [insertedCalls, hne]

/-- **One block**: the call that ends it, if one does, gets its entry. -/
theorem lowerInvoke_lowered (hf : f.WellFormed) (hE : Entries f n E) (hg : Lowered f n E g)
    (hb : b ∈ f.blocks) (hnew : ∀ II ∈ (f.block b).terminator.results, II ∉ E.map Prod.snd) :
    let s := PreMLTAPass.lowerInvoke (g, E) b
    ∃ n', Entries f n' s.2 ∧ Lowered f n' s.2 s.1 ∧
      s.2.map Prod.snd = E.map Prod.snd ++ (f.block b).terminator.results := by
  have hterm : (g.block b).terminator = (f.block b).terminator.rename (callFor E) := by
    rw [hg.block b hb, terminator_lowered]
  cases ht : (f.block b).terminator with
  | br dest =>
    have hs : PreMLTAPass.lowerInvoke (g, E) b = (g, E) := by
      simp [PreMLTAPass.lowerInvoke, hterm, ht, Terminator.rename]
    rw [hs]
    exact ⟨n, hE, hg, by simp [Terminator.results]⟩
  | switch op operands dests =>
    have hs : PreMLTAPass.lowerInvoke (g, E) b = (g, E) := by
      simp [PreMLTAPass.lowerInvoke, hterm, ht, Terminator.rename]
    rw [hs]
    exact ⟨n, hE, hg, by simp [Terminator.results]⟩
  | invoke II op operands normalDest unwindDest =>
    have hres : II ∈ (f.block b).terminator.results := by simp [ht, Terminator.results]
    have hlt : II < f.nextReg := hf.resultsLt b hb _ (Func.mem_results_terminator hres)
    have hII := hnew II hres
    have hs : PreMLTAPass.lowerInvoke (g, E) b =
        (PostMLTAPass.replaceAllUsesWith II n { g with
          block := Function.update g.block b { g.block b with
            body := (g.block b).body ++ [⟨n, op, operands.map (Operand.rename (callFor E))⟩] }
          nextReg := n + 1 }, E ++ [(n, II)]) := by
      simp [PreMLTAPass.lowerInvoke, hterm, ht, Terminator.rename, hg.nextReg]
    rw [hs]
    refine ⟨n + 1, hE.concat hb hres hII, ⟨hg.entry, hg.params, hg.blocks, hg.nextBlock, rfl,
      fun b' hb' => ?_⟩, by simp [Terminator.results]⟩
    -- the block after the calls were put in place, before the registers are renamed
    have hblock : Function.update g.block b { g.block b with
        body := (g.block b).body ++ [⟨n, op, operands.map (Operand.rename (callFor E))⟩] } b' =
        CodeBlock.rename (callFor E) { f.block b' with
          body := (f.block b').body ++ insertedCalls (E ++ [(n, II)]) (f.block b').terminator } := by
      rw [insertedCalls_concat]
      by_cases hbb : b' = b
      · subst hbb
        rw [Function.update_self, hg.block b' hb, loweredBlock, ht]
        simp [CodeBlock.rename, insertedCalls, Instr.rename, ht]
      · have hother : II ∉ (f.block b').terminator.results := fun h => by
          obtain ⟨home, hhome⟩ := hf.resultsApart
          exact hbb ((hhome b' hb' II (Func.mem_results_terminator h)).symm.trans
            (hhome b hb II (Func.mem_results_terminator hres)))
        rw [Function.update_of_ne hbb, hg.block b' hb', loweredBlock,
          insertedCalls_of_not_mem hother, List.append_nil]
    show CodeBlock.rename _ _ = _
    dsimp only
    rw [hblock, loweredBlock]
    refine rename_replace (m := f.nextReg) (fun r hr => ?_) fun r hr =>
      callFor_concat hE hII hlt hr
    exact hf.usesLt b' hb' r (uses_insertedCalls hr)

/-- A block without calls in place is the block. -/
theorem loweredBlock_nil (blk : CodeBlock) : loweredBlock [] blk = blk := by
  have hcall : insertedCalls [] blk.terminator = [] := by
    cases blk.terminator <;> rfl
  have hid : callFor [] = id := rfl
  rw [loweredBlock, hcall, hid, List.append_nil, block_rename_id]

/-- **The first pass** puts a call in place for each call that may throw. -/
theorem lowerInvokeCalls_lowered (hf : f.WellFormed) :
    let s := PreMLTAPass.lowerInvokeCalls f
    ∃ n, Entries f n s.2 ∧ Lowered f n s.2 s.1 ∧
      ∀ b ∈ f.blocks, ∀ II ∈ (f.block b).terminator.results, II ∈ s.2.map Prod.snd := by
  obtain ⟨home, hhome⟩ := hf.resultsApart
  -- the blocks before have their calls in place, and no other block has one
  have hloop : ∀ bs done n E g, done ++ bs = f.blocks → Entries f n E → Lowered f n E g →
      E.map Prod.snd = done.flatMap (fun b => (f.block b).terminator.results) →
      ∃ n', Entries f n' (bs.foldl PreMLTAPass.lowerInvoke (g, E)).2 ∧
        Lowered f n' (bs.foldl PreMLTAPass.lowerInvoke (g, E)).2
          (bs.foldl PreMLTAPass.lowerInvoke (g, E)).1 ∧
        (bs.foldl PreMLTAPass.lowerInvoke (g, E)).2.map Prod.snd =
          f.blocks.flatMap fun b => (f.block b).terminator.results := by
    intro bs
    induction bs with
    | nil =>
      intro done n E g hsplit hE hg hsnd
      rw [List.append_nil] at hsplit
      exact ⟨n, hE, hg, hsplit ▸ hsnd⟩
    | cons b bs ih =>
      intro done n E g hsplit hE hg hsnd
      have hb : b ∈ f.blocks := hsplit ▸ List.mem_append_right _ List.mem_cons_self
      have hnew : ∀ II ∈ (f.block b).terminator.results, II ∉ E.map Prod.snd := by
        intro II hII hmem
        rw [hsnd] at hmem
        obtain ⟨b', hb', hII'⟩ := List.mem_flatMap.mp hmem
        have hmem' : b' ∈ f.blocks := hsplit ▸ List.mem_append_left _ hb'
        have hsame : b' = b := (hhome b' hmem' II (Func.mem_results_terminator hII')).symm.trans
          (hhome b hb II (Func.mem_results_terminator hII))
        have hnodup := hf.blocksNodup
        rw [← hsplit, List.nodup_append] at hnodup
        exact hnodup.2.2 b' hb' b List.mem_cons_self hsame
      obtain ⟨n', hE', hg', hsnd'⟩ := lowerInvoke_lowered hf hE hg hb hnew
      rw [List.foldl_cons]
      generalize PreMLTAPass.lowerInvoke (g, E) b = s at hE' hg' hsnd'
      refine ih (done ++ [b]) n' s.2 s.1 (by rw [← hsplit]; simp) hE' hg' ?_
      rw [hsnd', hsnd, List.flatMap_append, List.flatMap_singleton]
  obtain ⟨n, hE, hg, hsnd⟩ := hloop f.blocks [] f.nextReg [] f rfl
    ⟨le_rfl, by simp, by simp, List.nodup_nil, List.nodup_nil⟩
    ⟨rfl, rfl, rfl, rfl, rfl, fun b _ => (loweredBlock_nil _).symm⟩ rfl
  refine ⟨n, hE, hg, fun b hb II hII => ?_⟩
  show II ∈ (f.blocks.foldl PreMLTAPass.lowerInvoke (f, [])).2.map Prod.snd
  rw [hsnd]
  exact List.mem_flatMap.mpr ⟨b, hb, hII⟩

/-! ## Recovery -/

/-- A call is taken back. -/
theorem callFor_tail (hE : Entries f n (e :: E)) (hr : r < f.nextReg) :
    (if callFor (e :: E) r = e.1 then e.2 else callFor (e :: E) r) = callFor E r := by
  have hnot := (List.nodup_cons.mp hE.invokesNodup).1
  by_cases hre : r = e.2
  · rw [hre, callFor_of_mem hE.invokesNodup List.mem_cons_self, if_pos rfl,
      callFor_of_not_mem hnot]
  by_cases hmem : r ∈ E.map Prod.snd
  · obtain ⟨e', he', rfl⟩ := List.mem_map.mp hmem
    have hcall : e'.1 ≠ e.1 := fun h =>
      (List.nodup_cons.mp hE.callsNodup).1 (List.mem_map.mpr ⟨e', he', h⟩)
    rw [callFor_of_mem hE.invokesNodup (List.mem_cons_of_mem _ he'), if_neg hcall,
      callFor_of_mem hE.tail.invokesNodup he']
  · have hcall := (hE.call e List.mem_cons_self).1
    have hmem' : r ∉ (e :: E).map Prod.snd := by
      rw [List.map_cons, List.mem_cons]
      rintro (h | h)
      · exact hre h
      · exact hmem h
    rw [callFor_of_not_mem hmem', if_neg (by omega), callFor_of_not_mem hmem]

/-- Of the code of a block, only the call that is taken back goes. -/
theorem filter_insertedCalls (hE : Entries f n (e :: E)) (hf : f.WellFormed) (hb : b ∈ f.blocks) :
    ((f.block b).body ++ insertedCalls (e :: E) (f.block b).terminator).filter
      (fun i => i.result ≠ e.1) = (f.block b).body ++ insertedCalls E (f.block b).terminator := by
  have hcall := (hE.call e List.mem_cons_self).1
  have hbody : (f.block b).body.filter (fun i => i.result ≠ e.1) = (f.block b).body := by
    rw [List.filter_eq_self]
    intro i hi
    have := hf.resultsLt b hb _ (Func.mem_results_body hi)
    exact decide_eq_true (by omega)
  have hrest : (insertedCalls E (f.block b).terminator).filter (fun i => i.result ≠ e.1) =
      insertedCalls E (f.block b).terminator := by
    rw [List.filter_eq_self]
    intro i hi
    obtain ⟨II, -, -, -, -, -, hmem, -⟩ := mem_insertedCalls.mp hi
    refine decide_eq_true fun h => (List.nodup_cons.mp hE.callsNodup).1 ?_
    exact List.mem_map.mpr ⟨_, hmem, h⟩
  have hcons : insertedCalls (e :: E) (f.block b).terminator =
      insertedCalls [e] (f.block b).terminator ++ insertedCalls E (f.block b).terminator := by
    cases (f.block b).terminator with
    | br _ | switch _ _ _ => rfl
    | invoke II op operands _ _ =>
      by_cases h : e.2 = II <;> simp [insertedCalls, h]
  have hfirst : (insertedCalls [e] (f.block b).terminator).filter (fun i => i.result ≠ e.1) =
      [] := by
    rw [List.filter_eq_nil_iff]
    intro i hi
    obtain ⟨II, -, -, -, -, -, hmem, -⟩ := mem_insertedCalls.mp hi
    have hi' : i.result = e.1 := congrArg Prod.fst (List.mem_singleton.mp hmem)
    simp [hi']
  rw [List.filter_append, hbody, hcons, List.filter_append, hfirst, hrest, List.nil_append]

/-- **One entry** of the map is taken back. -/
theorem recoverInvoke_lowered (hf : f.WellFormed) (hE : Entries f n (e :: E))
    (hg : Lowered f n (e :: E) g) : Lowered f n E (PostMLTAPass.recoverInvoke g e) := by
  refine ⟨hg.entry, hg.params, hg.blocks, hg.nextBlock, hg.nextReg, fun b hb => ?_⟩
  have hrenamed : (g.block b).rename (fun r => if r = e.1 then e.2 else r) =
      CodeBlock.rename (callFor E) { f.block b with
        body := (f.block b).body ++ insertedCalls (e :: E) (f.block b).terminator } := by
    rw [hg.block b hb, loweredBlock]
    refine rename_replace (m := f.nextReg) (fun r hr => ?_) fun r hr => callFor_tail hE hr
    exact hf.usesLt b hb r (uses_insertedCalls hr)
  show CodeBlock.mk _ _ _ _ = _
  dsimp only [PostMLTAPass.replaceAllUsesWith]
  rw [hrenamed, loweredBlock]
  simp only [CodeBlock.rename]
  congr 1
  rw [List.filter_map, ← filter_insertedCalls hE hf hb]
  rfl

/-- **The way back**, in whatever order the map is gone through. -/
theorem recoverInvokeCalls_lowered (hf : f.WellFormed) (hE : Entries f n E)
    (hg : Lowered f n E g) : Lowered f n [] (PostMLTAPass.recoverInvokeCalls g E) := by
  unfold PostMLTAPass.recoverInvokeCalls
  induction E generalizing g with
  | nil => exact hg
  | cons e E ih =>
    rw [List.foldl_cons]
    exact ih hE.tail (recoverInvoke_lowered hf hE hg)

/-! ## While the calls are in place -/

/-- What a renamed block uses. -/
theorem mem_uses_rename {blk : CodeBlock} {σ : ℕ → ℕ} (hr : r ∈ (blk.rename σ).uses) :
    ∃ r' ∈ blk.uses, r = σ r' := by
  simp only [CodeBlock.uses, CodeBlock.rename, List.mem_append] at hr
  rcases hr with hphi | hbody | hterm
  · rw [List.flatMap_map] at hphi
    obtain ⟨p, hp, hmem⟩ := List.mem_flatMap.mp hphi
    rw [Phi.rename] at hmem
    dsimp only at hmem
    rw [List.flatMap_map] at hmem
    obtain ⟨e, he, hmem⟩ := List.mem_flatMap.mp hmem
    cases hv : e.2 with
    | reg r' =>
      rw [hv] at hmem
      refine ⟨r', List.mem_append_left _ (List.mem_flatMap.mpr ⟨p, hp,
        List.mem_flatMap.mpr ⟨e, he, by simp [hv, Operand.regs]⟩⟩), ?_⟩
      exact List.mem_singleton.mp hmem
    | const c =>
      rw [hv] at hmem
      cases hmem
  · rw [List.flatMap_map] at hbody
    obtain ⟨i, hi, hmem⟩ := List.mem_flatMap.mp hbody
    obtain ⟨r', hr', rfl⟩ := mem_regs_rename hmem
    exact ⟨r', List.mem_append_right _ (List.mem_append_left _
      (List.mem_flatMap.mpr ⟨i, hi, hr'⟩)), rfl⟩
  · have hops : (blk.terminator.rename σ).operands =
        blk.terminator.operands.map (Operand.rename σ) := by cases blk.terminator <;> rfl
    rw [hops] at hterm
    obtain ⟨r', hr', rfl⟩ := mem_regs_rename hterm
    exact ⟨r', List.mem_append_right _ (List.mem_append_right _ hr'), rfl⟩

/-- Nothing uses the result of a call that a new one stands for. -/
theorem Lowered.not_mem_uses (hg : Lowered f n E g) (hf : f.WellFormed) (hE : Entries f n E)
    (he : e ∈ E) (hb : b ∈ f.blocks) : e.2 ∉ (g.block b).uses := by
  rw [hg.block b hb]
  intro hmem
  obtain ⟨r, -, heq⟩ := mem_uses_rename hmem
  by_cases hr : r ∈ E.map Prod.snd
  · obtain ⟨e', he', rfl⟩ := List.mem_map.mp hr
    rw [callFor_of_mem hE.invokesNodup he'] at heq
    have hlt := hE.invoke_lt hf he
    have hle := (hE.call e' he').1
    omega
  · rw [callFor_of_not_mem hr] at heq
    exact hr (heq ▸ List.mem_map_of_mem he)

/-- The call in place for one that may throw is the last one before it, with its operands. -/
theorem Lowered.last_call (hg : Lowered f n E g) (hE : Entries f n E) (he : e ∈ E)
    (hb : b ∈ f.blocks) {op normalDest unwindDest : ℕ} {operands : List Operand}
    (ht : (f.block b).terminator = .invoke e.2 op operands normalDest unwindDest) :
    ∃ operands', (g.block b).terminator = .invoke e.2 op operands' normalDest unwindDest ∧
      (g.block b).body.getLast? = some ⟨e.1, op, operands'⟩ := by
  refine ⟨operands.map (Operand.rename (callFor E)), ?_, ?_⟩
  · rw [hg.block b hb, terminator_lowered, ht]
    rfl
  · rw [hg.block b hb, loweredBlock, ht]
    simp [CodeBlock.rename, insertedCalls, filter_invoke hE.invokesNodup he, Instr.rename]

/-! ## Call paths -/

open PostMLTAPass in
/-- A call path is about the call that may throw, if its call stands for one. -/
theorem recoverCallPath_of_mem (hE : Entries f n E) {callPath : CallPath} {II : ℕ}
    (hmem : (callPath.callInst, II) ∈ E) :
    recoverCallPath E callPath = { callPath with callInst := II } := by
  obtain ⟨e, he⟩ : ∃ e, E.find? (fun e => e.1 = callPath.callInst) = some e := by
    rw [← Option.isSome_iff_exists, List.find?_isSome]
    exact ⟨_, hmem, decide_eq_true rfl⟩
  have hfst : e.1 = callPath.callInst := by simpa using List.find?_some he
  have hsame := List.inj_on_of_nodup_map hE.callsNodup (List.mem_of_find?_eq_some he) hmem hfst
  unfold recoverCallPath
  rw [he, hsame]

open PostMLTAPass in
theorem recoverCallPath_of_not_mem {callPath : CallPath}
    (hmem : callPath.callInst ∉ E.map Prod.fst) : recoverCallPath E callPath = callPath := by
  have hnone : E.find? (fun e => e.1 = callPath.callInst) = none := by
    rw [List.find?_eq_none]
    intro e he h
    exact hmem (List.mem_map.mpr ⟨e, he, of_decide_eq_true h⟩)
  unfold recoverCallPath
  rw [hnone]

open PostMLTAPass in
/-- A call path that is in several lists is recovered once. -/
theorem recoverCallPath_idem (hf : f.WellFormed) (hE : Entries f n E) (callPath : CallPath) :
    recoverCallPath E (recoverCallPath E callPath) = recoverCallPath E callPath := by
  by_cases hmem : callPath.callInst ∈ E.map Prod.fst
  · obtain ⟨e, he, hfst⟩ := List.mem_map.mp hmem
    have he' : (callPath.callInst, e.2) ∈ E := by rw [← hfst]; exact he
    rw [recoverCallPath_of_mem hE he']
    refine recoverCallPath_of_not_mem fun h => ?_
    obtain ⟨e', hmem', hcall⟩ := List.mem_map.mp h
    have hlt := hE.invoke_lt hf he
    have hle := (hE.call e' hmem').1
    dsimp only at hcall
    omega
  · rw [recoverCallPath_of_not_mem hmem, recoverCallPath_of_not_mem hmem]

open PostMLTAPass in
/-- **All call paths** that are in a list are recovered. -/
theorem recoverCallPaths_eq (hf : f.WellFormed) (hE : Entries f n E) (functionMap : List (List ℕ))
    (callPaths : ℕ → CallPath) (p : ℕ) :
    recoverCallPaths E functionMap callPaths p =
      if p ∈ functionMap.flatten then recoverCallPath E (callPaths p) else callPaths p := by
  unfold recoverCallPaths
  induction functionMap.flatten generalizing callPaths with
  | nil => rfl
  | cons q ptrs ih =>
    rw [List.foldl_cons, ih]
    by_cases hpq : p = q
    · subst hpq
      rw [Function.update_self, if_pos List.mem_cons_self, recoverCallPath_idem hf hE]
      exact ite_self _
    · rw [Function.update_of_ne hpq]
      simp [hpq]

end InvokeCalls

namespace PostMLTAPass

open InvokeCalls PreMLTAPass

/-- **The round trip.** In between, each call that may throw has a plain call with its operands right
before it, and nothing uses its own result. Afterwards, in whatever order the map is gone through,
the code is what it was, and each call path is about the call that may throw where it was about a
call that stands for one. -/
theorem invoke_calls_recovered {f : Func} (hf : f.WellFormed) {call2InvokeMap : List (ℕ × ℕ)}
    (hmap : call2InvokeMap.Perm (lowerInvokeCalls f).2) :
    let f' := (lowerInvokeCalls f).1
    let g := recoverInvokeCalls f' call2InvokeMap
    (∀ b ∈ f.blocks, ∀ II op operands normalDest unwindDest,
      (f.block b).terminator = .invoke II op operands normalDest unwindDest →
        (∃ NewCall operands', (NewCall, II) ∈ call2InvokeMap ∧
          (f'.block b).terminator = .invoke II op operands' normalDest unwindDest ∧
          (f'.block b).body.getLast? = some ⟨NewCall, op, operands'⟩) ∧
        ∀ b' ∈ f.blocks, II ∉ (f'.block b').uses) ∧
    (g.entry = f.entry ∧ g.params = f.params ∧ g.blocks = f.blocks ∧
      ∀ b ∈ f.blocks, g.block b = f.block b) ∧
    ∀ functionMap callPaths, ∀ p ∈ functionMap.flatten,
      let callPath := recoverCallPaths call2InvokeMap functionMap callPaths p
      (∀ II, ((callPaths p).callInst, II) ∈ call2InvokeMap →
        callPath = { callPaths p with callInst := II }) ∧
      ((callPaths p).callInst ∉ call2InvokeMap.map Prod.fst → callPath = callPaths p) := by
  obtain ⟨n, hE, hg, hall⟩ := lowerInvokeCalls_lowered hf
  have hE' := hE.perm hmap
  have hg' := hg.perm hE hmap
  refine ⟨fun b hb II op operands normalDest unwindDest ht => ?_, ?_, fun functionMap callPaths p
    hp => ?_⟩
  · have hII := hall b hb II (by simp [ht, Terminator.results])
    obtain ⟨e, he, rfl⟩ := List.mem_map.mp hII
    obtain ⟨operands', hterm, hlast⟩ := hg.last_call hE he hb ht
    exact ⟨⟨e.1, operands', hmap.mem_iff.mpr he, hterm, hlast⟩,
      fun b' hb' => hg.not_mem_uses hf hE he hb'⟩
  · have hback := recoverInvokeCalls_lowered hf hE' hg'
    exact ⟨hback.entry, hback.params, hback.blocks, fun b hb =>
      (hback.block b hb).trans (loweredBlock_nil _)⟩
  · intro callPath
    have heq : callPath = recoverCallPath call2InvokeMap (callPaths p) := by
      have h := recoverCallPaths_eq hf hE' functionMap callPaths p
      rwa [if_pos hp] at h
    rw [heq]
    exact ⟨fun II hmem => recoverCallPath_of_mem hE' hmem, recoverCallPath_of_not_mem⟩

/-- Two calls that unwind to the same block, the second with the result of the first. -/
theorem invoke_calls_recovered_sharedPad :
    (lowerInvokeCalls sharedPad).2 = [(6, 0), (7, 1)] ∧
      ∀ b ∈ sharedPad.blocks,
        (recoverInvokeCalls (lowerInvokeCalls sharedPad).1 [(7, 1), (6, 0)]).block b =
          sharedPad.block b := by
  have hmap : (lowerInvokeCalls sharedPad).2 = [(6, 0), (7, 1)] := by decide
  refine ⟨hmap, ?_⟩
  have hperm : [(7, 1), (6, 0)].Perm (lowerInvokeCalls sharedPad).2 := by
    rw [hmap]
    exact List.Perm.swap _ _ _
  exact (invoke_calls_recovered sharedPad_wellFormed hperm).2.1.2.2.2

end PostMLTAPass

end Semalloc
