import Mathlib.Computability.StateTransition
import Mathlib.Tactic

/-!
# Functions in static single assignment form

A function is a graph of blocks. A block starts with φ-nodes, which are read all at once when control
comes in; a block that exceptions unwind to has a landing pad behind them. Then come instructions,
and a terminator that branches, or calls a function that may unwind. What instructions compute and
what calls do is a parameter of the semantics.

A transformation may rename registers and move the code of a block to another one. It preserves the
behavior when the renamed registers have the same values whenever the code of a block starts.

## Main definitions

* `Func`: a function, with counters for new blocks and registers
* `WellFormed`: each register is defined once, and φ-nodes have a value for each predecessor
* `Machine.leave`, `Machine.enter`: the code of a block, and the way into the next
* `Machine.step`: from the code of one block to the code of the next
* `Simulates`: a renaming of the registers and the blocks that preserves the behavior

## Main results

* `Simulates.refl`, `Simulates.trans`: such renamings compose
* `Simulates.reaches`, `Simulates.reaches_rev`: what they mean for whole executions
-/

set_option autoImplicit false

namespace SSA

/-! ## Syntax -/

inductive Operand
  | reg (r : ℕ)
  | const (c : ℕ)
  deriving DecidableEq

/-- A φ-node: a value for each block that control may come from. -/
structure Phi where
  result : ℕ
  incoming : List (ℕ × Operand)
  deriving DecidableEq

structure LandingPad where
  result : ℕ
  clauses : ℕ
  deriving DecidableEq

structure Instr where
  result : ℕ
  op : ℕ
  operands : List Operand
  deriving DecidableEq

/-- A jump, an instruction that selects a successor or leaves the function, or a call that may
unwind. -/
inductive Terminator
  | br (dest : ℕ)
  | switch (op : ℕ) (operands : List Operand) (dests : List ℕ)
  | invoke (result op : ℕ) (operands : List Operand) (normalDest unwindDest : ℕ)
  deriving DecidableEq

structure CodeBlock where
  phis : List Phi
  landingPad : Option LandingPad
  body : List Instr
  terminator : Terminator
  deriving DecidableEq

/-- A function. `blocks` lists its blocks in an order that agrees with the order of the uses of each
block; the registers and blocks from `nextReg` and `nextBlock` on are new. -/
structure Func where
  entry : ℕ
  params : List ℕ
  blocks : List ℕ
  block : ℕ → CodeBlock
  nextBlock : ℕ
  nextReg : ℕ

namespace Operand

def rename (σ : ℕ → ℕ) : Operand → Operand
  | reg r => reg (σ r)
  | const c => const c

def regs : Operand → List ℕ
  | reg r => [r]
  | const _ => []

end Operand

namespace Phi

def rename (σ : ℕ → ℕ) (p : Phi) : Phi :=
  { p with incoming := p.incoming.map fun e => (e.1, e.2.rename σ) }

/-- Let the values come from other blocks. -/
def retarget (β : ℕ → ℕ) (p : Phi) : Phi :=
  { p with incoming := p.incoming.map fun e => (β e.1, e.2) }

/-- The value when control comes from `prev`. -/
def valueFor (p : Phi) (prev : ℕ) : Option Operand :=
  (p.incoming.find? fun e => e.1 = prev).map Prod.snd

end Phi

def Instr.rename (σ : ℕ → ℕ) (i : Instr) : Instr :=
  { i with operands := i.operands.map (Operand.rename σ) }

namespace Terminator

def rename (σ : ℕ → ℕ) : Terminator → Terminator
  | br dest => br dest
  | switch op operands dests => switch op (operands.map (Operand.rename σ)) dests
  | invoke result op operands normalDest unwindDest =>
    invoke result op (operands.map (Operand.rename σ)) normalDest unwindDest

def successors : Terminator → List ℕ
  | br dest => [dest]
  | switch _ _ dests => dests
  | invoke _ _ _ normalDest unwindDest => [normalDest, unwindDest]

/-- The successors that control reaches without an exception. -/
def branches : Terminator → List ℕ
  | br dest => [dest]
  | switch _ _ dests => dests
  | invoke _ _ _ normalDest _ => [normalDest]

/-- The block that the exceptions of a call unwind to. -/
def unwindDest : Terminator → Option ℕ
  | invoke _ _ _ _ unwindDest => some unwindDest
  | _ => none

/-- Let the exceptions of a call unwind to another block. -/
def mapUnwindDest (τ : ℕ → ℕ) : Terminator → Terminator
  | invoke result op operands normalDest unwindDest =>
    invoke result op operands normalDest (τ unwindDest)
  | t => t

def results : Terminator → List ℕ
  | invoke result _ _ _ _ => [result]
  | _ => []

def operands : Terminator → List Operand
  | br _ => []
  | switch _ operands _ => operands
  | invoke _ _ operands _ _ => operands

end Terminator

namespace CodeBlock

/-- Replace the registers that the block uses. -/
def rename (σ : ℕ → ℕ) (b : CodeBlock) : CodeBlock where
  phis := b.phis.map (Phi.rename σ)
  landingPad := b.landingPad
  body := b.body.map (Instr.rename σ)
  terminator := b.terminator.rename σ

/-- The registers that the block defines. -/
def results (b : CodeBlock) : List ℕ :=
  b.phis.map Phi.result ++ (b.landingPad.toList.map LandingPad.result ++
    (b.body.map Instr.result ++ b.terminator.results))

/-- The registers that the block uses. -/
def uses (b : CodeBlock) : List ℕ :=
  (b.phis.flatMap fun p => p.incoming.flatMap fun e => e.2.regs) ++
    ((b.body.flatMap fun i => i.operands.flatMap Operand.regs) ++
      b.terminator.operands.flatMap Operand.regs)

end CodeBlock

namespace Func

/-- The blocks that control may come from, once for each use of the block. -/
def predecessors (f : Func) (d : ℕ) : List ℕ :=
  f.blocks.flatMap fun b => List.replicate ((f.block b).terminator.successors.count d) b

theorem mem_blocks_of_mem_predecessors {f : Func} {b d : ℕ} (hb : b ∈ f.predecessors d) :
    b ∈ f.blocks := by
  obtain ⟨b', hb', hmem⟩ := List.mem_flatMap.mp hb
  rwa [List.eq_of_mem_replicate hmem]

/-- Each register is defined once and each block is listed once, exceptions unwind to landing pads
and nothing else leads there, and φ-nodes have a value for each predecessor. -/
structure WellFormed (f : Func) : Prop where
  blocksNodup : f.blocks.Nodup
  blocksLt : ∀ b ∈ f.blocks, b < f.nextBlock
  entry : f.entry ∈ f.blocks
  entryPad : (f.block f.entry).landingPad = none
  successors : ∀ b ∈ f.blocks, ∀ d ∈ (f.block b).terminator.successors, d ∈ f.blocks
  branches : ∀ b ∈ f.blocks, ∀ d ∈ (f.block b).terminator.branches,
    (f.block d).landingPad = none
  unwinds : ∀ b ∈ f.blocks, ∀ d ∈ (f.block b).terminator.unwindDest,
    (f.block d).landingPad ≠ none
  phis : ∀ b ∈ f.blocks, ∀ p ∈ (f.block b).phis, ∀ l,
    l ∈ p.incoming.map Prod.fst ↔ l ∈ f.blocks ∧ b ∈ (f.block l).terminator.successors
  resultsNodup : ∀ b ∈ f.blocks, (f.block b).results.Nodup
  resultsApart : ∃ home : ℕ → ℕ, ∀ b ∈ f.blocks, ∀ r ∈ (f.block b).results, home r = b
  resultsLt : ∀ b ∈ f.blocks, ∀ r ∈ (f.block b).results, r < f.nextReg
  usesLt : ∀ b ∈ f.blocks, ∀ r ∈ (f.block b).uses, r < f.nextReg
  paramsLt : ∀ r ∈ f.params, r < f.nextReg
  params : ∀ b ∈ f.blocks, ∀ r ∈ (f.block b).results, r ∉ f.params

section Registers

variable {f : Func} {b : ℕ} {i : Instr} {p : Phi} {pad : LandingPad} {r : ℕ}

theorem mem_results_phi (hp : p ∈ (f.block b).phis) : p.result ∈ (f.block b).results :=
  List.mem_append_left _ (List.mem_map_of_mem hp)

theorem mem_results_pad (hpad : pad ∈ (f.block b).landingPad) :
    pad.result ∈ (f.block b).results :=
  List.mem_append_right _ (List.mem_append_left _
    (List.mem_map_of_mem (Option.mem_toList.mpr hpad)))

theorem mem_results_body (hi : i ∈ (f.block b).body) : i.result ∈ (f.block b).results :=
  List.mem_append_right _ (List.mem_append_right _ (List.mem_append_left _
    (List.mem_map_of_mem hi)))

theorem mem_results_terminator (hr : r ∈ (f.block b).terminator.results) :
    r ∈ (f.block b).results :=
  List.mem_append_right _ (List.mem_append_right _ (List.mem_append_right _ hr))

/-- A successor is reached by a branch or by an exception. -/
theorem mem_successors {t : Terminator} {d : ℕ} :
    d ∈ t.successors ↔ d ∈ t.branches ∨ t.unwindDest = some d := by
  cases t with
  | br dest => simp [Terminator.successors, Terminator.branches, Terminator.unwindDest]
  | switch op operands dests =>
    simp [Terminator.successors, Terminator.branches, Terminator.unwindDest]
  | invoke result op operands normalDest unwindDest =>
    simp [Terminator.successors, Terminator.branches, Terminator.unwindDest, eq_comm]

/-- A φ-node has a value for each predecessor. -/
theorem WellFormed.valueFor_isSome (hf : f.WellFormed) {d : ℕ} (hb : b ∈ f.blocks)
    (hd : d ∈ (f.block b).terminator.successors) (hp : p ∈ (f.block d).phis) :
    (p.valueFor b).isSome := by
  have hlabel := (hf.phis d (hf.successors b hb d hd) p hp b).mpr ⟨hb, hd⟩
  obtain ⟨e, he, heq⟩ := List.mem_map.mp hlabel
  unfold Phi.valueFor
  rw [Option.isSome_map, List.find?_isSome]
  exact ⟨e, he, decide_eq_true heq⟩

end Registers

end Func

/-! ## Semantics -/

/-- How a call ends: it returns a value or throws an exception. -/
inductive Completion (Val : Type)
  | returned (v : Val)
  | unwound (v : Val)

/-- What constants, instructions, selections, calls and landing pads mean. The world holds what is
not in registers, and what decides the outcome of the calls. -/
structure Machine (Val World : Type) where
  const : ℕ → Val
  exec : ℕ → List Val → World → Val × World
  switch : ℕ → List Val → World → ℕ
  invoke : ℕ → List Val → World → Completion Val × World
  landingPad : ℕ → Val → Val

/-- The code of a block is about to start: its φ-nodes and its landing pad have their values. -/
structure State (Val World : Type) where
  block : ℕ
  env : ℕ → Val
  world : World

/-- Control leaves a block, possibly with an exception. -/
structure Exit (Val World : Type) where
  exception : Option Val
  dest : ℕ
  env : ℕ → Val
  world : World

namespace Machine

variable {Val World : Type} (M : Machine Val World)

def eval (env : ℕ → Val) : Operand → Val
  | .reg r => env r
  | .const c => M.const c

def run : List Instr → (ℕ → Val) → World → (ℕ → Val) × World
  | [], env, w => (env, w)
  | i :: is, env, w =>
    let (v, w) := M.exec i.op (i.operands.map (M.eval env)) w
    run is (Function.update env i.result v) w

/-- Read all φ-nodes of a block at once; one without a value for `prev` blocks the execution. -/
def readPhis (phis : List Phi) (prev : ℕ) (env : ℕ → Val) : Option (ℕ → Val) :=
  if ∀ p ∈ phis, (p.valueFor prev).isSome then
    some fun r => (((phis.find? fun p => p.result = r).bind (Phi.valueFor · prev)).map
      (M.eval env)).getD (env r)
  else none

/-- Enter a block, with an exception exactly if it has a landing pad. -/
def enter (f : Func) (prev : ℕ) (exception : Option Val) (d : ℕ) (env : ℕ → Val) (w : World) :
    Option (State Val World) :=
  (M.readPhis (f.block d).phis prev env).bind fun env =>
    match (f.block d).landingPad, exception with
    | none, none => some ⟨d, env, w⟩
    | some pad, some e => some ⟨d, Function.update env pad.result (M.landingPad pad.clauses e), w⟩
    | _, _ => none

/-- Run the code of a block and its terminator; `none` when the function is left. -/
def leave (b : CodeBlock) (env : ℕ → Val) (w : World) : Option (Exit Val World) :=
  let (env, w) := M.run b.body env w
  match b.terminator with
  | .br dest => some ⟨none, dest, env, w⟩
  | .switch op operands dests =>
    dests[M.switch op (operands.map (M.eval env)) w]?.map fun dest => ⟨none, dest, env, w⟩
  | .invoke result op operands normalDest unwindDest =>
    match M.invoke op (operands.map (M.eval env)) w with
    | (.returned v, w) => some ⟨none, normalDest, Function.update env result v, w⟩
    | (.unwound e, w) => some ⟨some e, unwindDest, env, w⟩

/-- From the code of one block to the code of the next. -/
def step (f : Func) (st : State Val World) : Option (State Val World) :=
  (M.leave (f.block st.block) st.env st.world).bind fun x =>
    M.enter f st.block x.exception x.dest x.env x.world

end Machine

/-- The function starts with its arguments; the other registers have no value yet. -/
def Func.start {Val World : Type} (f : Func) (undefined : Val) (args : ℕ → Val) (w : World) : State Val World :=
  ⟨f.entry, fun r => if r ∈ f.params then args r else undefined, w⟩

/-! ## Renaming -/

section Renaming

variable {Val World : Type} {M : Machine Val World} {σ β : ℕ → ℕ} {n prev : ℕ}
  {env env' : ℕ → Val} {w : World}

/-- The renamed registers have the same values. -/
def SameValues (n : ℕ) (σ : ℕ → ℕ) (env env' : ℕ → Val) : Prop := ∀ r < n, env' (σ r) = env r

theorem operand_rename_id (o : Operand) : o.rename id = o := by cases o <;> rfl

theorem operand_rename_comp {σ' : ℕ → ℕ} (o : Operand) :
    (o.rename σ).rename σ' = o.rename (σ' ∘ σ) := by
  cases o <;> rfl

theorem instr_rename_id (i : Instr) : i.rename id = i := by
  unfold Instr.rename
  rw [List.map_congr_left fun o _ => operand_rename_id o, List.map_id']

theorem instr_rename_comp {σ' : ℕ → ℕ} (i : Instr) :
    (i.rename σ).rename σ' = i.rename (σ' ∘ σ) := by
  unfold Instr.rename
  simp only [List.map_map, Function.comp_def, operand_rename_comp]

theorem terminator_rename_id (t : Terminator) : t.rename id = t := by
  have hmap : ∀ os : List Operand, os.map (Operand.rename id) = os := fun os => by
    rw [List.map_congr_left fun o _ => operand_rename_id o, List.map_id']
  cases t with
  | br dest => rfl
  | switch op operands dests => simp only [Terminator.rename, hmap]
  | invoke result op operands normalDest unwindDest => simp only [Terminator.rename, hmap]

theorem terminator_rename_comp {σ' : ℕ → ℕ} (t : Terminator) :
    (t.rename σ).rename σ' = t.rename (σ' ∘ σ) := by
  cases t <;> simp [Terminator.rename, Function.comp_def, operand_rename_comp]

theorem phi_rename_comp {σ' : ℕ → ℕ} (p : Phi) : (p.rename σ).rename σ' = p.rename (σ' ∘ σ) := by
  unfold Phi.rename
  simp only [List.map_map, Function.comp_def, operand_rename_comp]

theorem block_rename_comp {σ' : ℕ → ℕ} (b : CodeBlock) :
    (b.rename σ).rename σ' = b.rename (σ' ∘ σ) := by
  unfold CodeBlock.rename
  simp only [List.map_map, Function.comp_def, phi_rename_comp, instr_rename_comp,
    terminator_rename_comp]

theorem operands_rename_congr {σ' : ℕ → ℕ} {os : List Operand}
    (h : ∀ r ∈ os.flatMap Operand.regs, σ r = σ' r) :
    os.map (Operand.rename σ) = os.map (Operand.rename σ') := by
  refine List.map_congr_left fun o ho => ?_
  cases o with
  | reg r => exact congrArg Operand.reg (h r (List.mem_flatMap.mpr ⟨_, ho, List.mem_singleton_self r⟩))
  | const c => rfl

theorem terminator_rename_congr {σ' : ℕ → ℕ} {t : Terminator}
    (h : ∀ r ∈ t.operands.flatMap Operand.regs, σ r = σ' r) : t.rename σ = t.rename σ' := by
  cases t with
  | br dest => rfl
  | switch op operands dests =>
    have hoperands : operands.map _ = operands.map _ := operands_rename_congr h
    simp only [Terminator.rename, hoperands]
  | invoke result op operands normalDest unwindDest =>
    have hoperands : operands.map _ = operands.map _ := operands_rename_congr h
    simp only [Terminator.rename, hoperands]

/-- Renamings that agree on the registers a block uses rename it alike. -/
theorem block_rename_congr {σ' : ℕ → ℕ} {b : CodeBlock} (h : ∀ r ∈ b.uses, σ r = σ' r) :
    b.rename σ = b.rename σ' := by
  have hphis : b.phis.map (Phi.rename σ) = b.phis.map (Phi.rename σ') := by
    refine List.map_congr_left fun p hp => ?_
    unfold Phi.rename
    congr 1
    refine List.map_congr_left fun e he => Prod.ext rfl ?_
    cases hv : e.2 with
    | reg r =>
      refine congrArg Operand.reg (h r (List.mem_append_left _ ?_))
      exact List.mem_flatMap.mpr ⟨p, hp, List.mem_flatMap.mpr ⟨e, he, by simp [hv, Operand.regs]⟩⟩
    | const c => rfl
  have hbody : b.body.map (Instr.rename σ) = b.body.map (Instr.rename σ') := by
    refine List.map_congr_left fun i hi => ?_
    unfold Instr.rename
    congr 1
    exact operands_rename_congr fun r hr => h r (List.mem_append_right _
      (List.mem_append_left _ (List.mem_flatMap.mpr ⟨i, hi, hr⟩)))
  unfold CodeBlock.rename
  rw [hphis, hbody, terminator_rename_congr fun r hr => h r (List.mem_append_right _
    (List.mem_append_right _ hr))]

theorem block_rename_id (b : CodeBlock) : b.rename id = b := by
  have hphi : ∀ p : Phi, p.rename id = p := fun p => by
    unfold Phi.rename
    simp only [operand_rename_id]
    rw [List.map_id']
  unfold CodeBlock.rename
  simp only [terminator_rename_id]
  rw [List.map_congr_left fun p _ => hphi p, List.map_congr_left fun i _ => instr_rename_id i,
    List.map_id', List.map_id']

@[simp] theorem unwindDest_rename (t : Terminator) : (t.rename σ).unwindDest = t.unwindDest := by
  cases t <;> rfl

section Redirected

variable {τ : ℕ → ℕ} (t : Terminator)

@[simp] theorem branches_redirect : ((t.mapUnwindDest τ).rename σ).branches = t.branches := by
  cases t <;> rfl

@[simp] theorem unwindDest_redirect :
    ((t.mapUnwindDest τ).rename σ).unwindDest = t.unwindDest.map τ := by
  cases t <;> rfl

@[simp] theorem results_redirect : ((t.mapUnwindDest τ).rename σ).results = t.results := by
  cases t <;> rfl

@[simp] theorem operands_redirect :
    ((t.mapUnwindDest τ).rename σ).operands = t.operands.map (Operand.rename σ) := by
  cases t <;> rfl

end Redirected

/-- What renamed operands use. -/
theorem mem_regs_rename {os : List Operand} {r : ℕ}
    (hr : r ∈ (os.map (Operand.rename σ)).flatMap Operand.regs) :
    ∃ r' ∈ os.flatMap Operand.regs, r = σ r' := by
  rw [List.flatMap_map] at hr
  obtain ⟨o, ho, hr⟩ := List.mem_flatMap.mp hr
  cases o with
  | reg r' => exact ⟨r', List.mem_flatMap.mpr ⟨.reg r', ho, List.mem_singleton_self r'⟩,
      List.mem_singleton.mp hr⟩
  | const c => cases hr

/-- No two registers get the same name. -/
def Renaming (n : ℕ) (σ : ℕ → ℕ) : Prop := ∀ r < n, ∀ r' < n, σ r = σ r' → r = r'

theorem SameValues.update (h : SameValues n σ env env') (hσ : Renaming n σ) {r : ℕ} (hr : r < n)
    (v : Val) : SameValues n σ (Function.update env r v) (Function.update env' (σ r) v) := by
  intro r' hr'
  by_cases heq : r' = r
  · rw [heq, Function.update_self, Function.update_self]
  · rw [Function.update_of_ne heq, Function.update_of_ne fun hσr => heq (hσ r' hr' r hr hσr)]
    exact h r' hr'

/-- A register that no name is renamed to may change. -/
theorem SameValues.update_new (h : SameValues n σ env env') {s : ℕ} (hs : ∀ r < n, σ r ≠ s)
    (v : Val) : SameValues n σ env (Function.update env' s v) := by
  intro r hr
  rw [Function.update_of_ne (hs r hr)]
  exact h r hr

theorem SameValues.eval (h : SameValues n σ env env') {o : Operand} (ho : ∀ r ∈ o.regs, r < n) :
    M.eval env' (o.rename σ) = M.eval env o := by
  cases o with
  | reg r => exact h r (ho r (List.mem_singleton_self r))
  | const c => rfl

theorem SameValues.evals (h : SameValues n σ env env') {os : List Operand}
    (hos : ∀ r ∈ os.flatMap Operand.regs, r < n) :
    (os.map (Operand.rename σ)).map (M.eval env') = os.map (M.eval env) := by
  rw [List.map_map]
  refine List.map_congr_left fun o ho => h.eval fun r hr => ?_
  exact hos r (List.mem_flatMap.mpr ⟨o, ho, hr⟩)

/-- **Renamed code** computes the same values, and leaves the same world. -/
theorem run_rename {body : List Instr} (hσ : Renaming n σ)
    (huses : ∀ r ∈ body.flatMap fun i => i.operands.flatMap Operand.regs, r < n)
    (hresults : ∀ i ∈ body, i.result < n ∧ σ i.result = i.result)
    (h : SameValues n σ env env') :
    (M.run (body.map (Instr.rename σ)) env' w).2 = (M.run body env w).2 ∧
      SameValues n σ (M.run body env w).1 (M.run (body.map (Instr.rename σ)) env' w).1 := by
  induction body generalizing env env' w with
  | nil => exact ⟨rfl, h⟩
  | cons i body ih =>
    obtain ⟨hi, hfix⟩ := hresults i List.mem_cons_self
    have hargs : (i.rename σ).operands.map (M.eval env') = i.operands.map (M.eval env) :=
      h.evals fun r hr => huses r (List.mem_flatMap.mpr ⟨i, List.mem_cons_self, hr⟩)
    have hnext := h.update hσ hi (M.exec i.op (i.operands.map (M.eval env)) w).1
    rw [hfix] at hnext
    rw [List.map_cons, Machine.run, Machine.run, hargs]
    exact ih (fun r hr => huses r (by rw [List.flatMap_cons]; exact List.mem_append_right _ hr))
      (fun j hj => hresults j (List.mem_cons_of_mem i hj)) hnext

/-- Rename a φ-node and let its values come from other blocks. -/
def Phi.map (σ β : ℕ → ℕ) (p : Phi) : Phi :=
  ⟨σ p.result, p.incoming.map fun e => (β e.1, e.2.rename σ)⟩

/-- What renamed φ-nodes use. -/
theorem mem_uses_phis {phis : List Phi} {r : ℕ}
    (hr : r ∈ (phis.map (Phi.map σ β)).flatMap fun p => p.incoming.flatMap fun e => e.2.regs) :
    ∃ r' ∈ phis.flatMap fun p => p.incoming.flatMap fun e => e.2.regs, r = σ r' := by
  obtain ⟨p', hp', hr⟩ := List.mem_flatMap.mp hr
  obtain ⟨p, hp, rfl⟩ := List.mem_map.mp hp'
  have hregs : r ∈ ((p.incoming.map Prod.snd).map (Operand.rename σ)).flatMap Operand.regs := by
    unfold Phi.map at hr
    rw [List.flatMap_map] at hr
    rwa [List.flatMap_map, List.flatMap_map]
  obtain ⟨r', hr', rfl⟩ := mem_regs_rename hregs
  rw [List.flatMap_map] at hr'
  exact ⟨r', List.mem_flatMap.mpr ⟨p, hp, hr'⟩, rfl⟩

/-- What renamed code uses. -/
theorem mem_uses_body {body : List Instr} {r : ℕ}
    (hr : r ∈ (body.map (Instr.rename σ)).flatMap fun i => i.operands.flatMap Operand.regs) :
    ∃ r' ∈ body.flatMap fun i => i.operands.flatMap Operand.regs, r = σ r' := by
  obtain ⟨i', hi', hr⟩ := List.mem_flatMap.mp hr
  obtain ⟨i, hi, rfl⟩ := List.mem_map.mp hi'
  obtain ⟨r', hr', rfl⟩ := mem_regs_rename hr
  exact ⟨r', List.mem_flatMap.mpr ⟨i, hi, hr'⟩, rfl⟩

theorem Phi.valueFor_map {p : Phi} (hprev : ∀ l ∈ p.incoming.map Prod.fst, β l = β prev → l = prev) :
    (p.map σ β).valueFor (β prev) = (p.valueFor prev).map (Operand.rename σ) := by
  have hfind : ((p.map σ β).incoming.find? fun e => e.1 = β prev) =
      (p.incoming.find? fun e => e.1 = prev).map fun e => (β e.1, e.2.rename σ) := by
    unfold Phi.map
    rw [List.find?_map]
    congr 1
    refine List.find?_congr fun e he => ?_
    refine decide_eq_decide.mpr ⟨fun h => ?_, fun h => congrArg β h⟩
    exact hprev e.1 (List.mem_map_of_mem he) h
  unfold Phi.valueFor
  rw [hfind, Option.map_map, Option.map_map]
  rfl

/-- A φ-node is found by its register. -/
theorem Phi.find_result {phis : List Phi} {q : Phi} (hphis : (phis.map Phi.result).Nodup)
    (hq : q ∈ phis) : phis.find? (fun p => p.result = q.result) = some q := by
  induction phis with
  | nil => cases hq
  | cons p phis ih =>
    obtain ⟨hp, hphis⟩ := List.nodup_cons.mp hphis
    rcases List.mem_cons.mp hq with rfl | hq
    · rw [List.find?_cons_of_pos]
      exact decide_eq_true rfl
    · have hne : p.result ≠ q.result := fun h => hp (h ▸ List.mem_map_of_mem hq)
      rw [List.find?_cons, decide_eq_false hne]
      exact ih hphis hq

/-- The order of the φ-nodes does not matter. -/
theorem Phi.find_reverse {phis : List Phi} (hphis : (phis.map Phi.result).Nodup) (r : ℕ) :
    phis.reverse.find? (fun p => p.result = r) = phis.find? fun p => p.result = r := by
  cases hfind : phis.find? fun p => p.result = r with
  | none =>
    refine List.find?_eq_none.mpr fun p hp => ?_
    exact List.find?_eq_none.mp hfind p (List.mem_reverse.mp hp)
  | some p =>
    have hp := List.mem_of_find?_eq_some hfind
    have hresult := List.find?_some hfind
    obtain rfl : p.result = r := of_decide_eq_true hresult
    refine Phi.find_result ?_ (List.mem_reverse.mpr hp)
    rw [List.map_reverse]
    exact List.nodup_reverse.mpr hphis

/-- **One more φ-node** is read after the others, in whatever order they stand. -/
theorem readPhis_reverse_concat {phis : List Phi} {q : Phi} {o : Operand} (env : ℕ → Val)
    (hphis : (phis.map Phi.result).Nodup) (hq : q.result ∉ phis.map Phi.result)
    (ho : q.valueFor prev = some o) :
    M.readPhis (phis.reverse ++ [q]) prev env =
      (M.readPhis phis prev env).map fun env₁ => Function.update env₁ q.result (M.eval env o) := by
  have hall : (∀ p ∈ phis.reverse ++ [q], (p.valueFor prev).isSome) ↔
      ∀ p ∈ phis, (p.valueFor prev).isSome := by
    simp only [List.mem_append, List.mem_reverse, List.mem_singleton, or_imp, forall_and,
      forall_eq, ho, Option.isSome_some, and_true]
  have hnone : phis.find? (fun p => p.result = q.result) = none :=
    List.find?_eq_none.mpr fun p hp heq => hq (of_decide_eq_true heq ▸ List.mem_map_of_mem hp)
  unfold Machine.readPhis
  by_cases hsome : ∀ p ∈ phis, (p.valueFor prev).isSome
  · rw [if_pos hsome, if_pos (hall.mpr hsome), Option.map_some]
    congr 1
    funext r
    rw [List.find?_append, Phi.find_reverse hphis]
    by_cases hr : r = q.result
    · subst hr
      rw [hnone, Option.none_or, List.find?_cons, decide_eq_true (rfl : q.result = q.result),
        Option.bind_some, ho, Function.update_self]
      rfl
    · rw [List.find?_cons, decide_eq_false (Ne.symm hr), Function.update_of_ne hr,
        List.find?_nil, Option.or_none]
  · rw [if_neg hsome, if_neg fun h => hsome (hall.mp h)]
    rfl

/-- **Renamed φ-nodes** are read alike. -/
theorem readPhis_map {phis : List Phi} (hσ : Renaming n σ) (hresults : ∀ p ∈ phis, p.result < n)
    (huses : ∀ r ∈ phis.flatMap fun p => p.incoming.flatMap fun e => e.2.regs, r < n)
    (hprev : ∀ p ∈ phis, ∀ l ∈ p.incoming.map Prod.fst, β l = β prev → l = prev)
    (h : SameValues n σ env env') :
    Option.Rel (SameValues n σ) (M.readPhis phis prev env)
      (M.readPhis (phis.map (Phi.map σ β)) (β prev) env') := by
  have hsome : (∀ p ∈ phis.map (Phi.map σ β), (p.valueFor (β prev)).isSome) ↔
      ∀ p ∈ phis, (p.valueFor prev).isSome := by
    rw [List.forall_mem_map]
    refine forall₂_congr fun p hp => ?_
    rw [Phi.valueFor_map (hprev p hp), Option.isSome_map]
  unfold Machine.readPhis
  by_cases hall : ∀ p ∈ phis, (p.valueFor prev).isSome
  · rw [if_pos hall, if_pos (hsome.mpr hall)]
    refine .some fun r hr => ?_
    have hfind : ((phis.map (Phi.map σ β)).find? fun p => p.result = σ r) =
        (phis.find? fun p => p.result = r).map (Phi.map σ β) := by
      rw [List.find?_map]
      congr 1
      refine List.find?_congr fun p hp => ?_
      exact decide_eq_decide.mpr ⟨fun heq => hσ _ (hresults p hp) r hr heq, fun heq => congrArg σ heq⟩
    rw [hfind]
    cases hp : phis.find? fun p => p.result = r with
    | none => exact h r hr
    | some p =>
      have hmem := List.mem_of_find?_eq_some hp
      rw [Option.map_some, Option.bind_some, Option.bind_some, Phi.valueFor_map (hprev p hmem)]
      cases hv : p.valueFor prev with
      | none => exact h r hr
      | some v =>
        rw [Option.map_some, Option.map_some, Option.map_some, Option.getD_some, Option.getD_some]
        refine h.eval fun r hr => huses r (List.mem_flatMap.mpr ⟨p, hmem, ?_⟩)
        obtain ⟨e, he, rfl⟩ := Option.map_eq_some_iff.mp hv
        exact List.mem_flatMap.mpr ⟨e, List.mem_of_find?_eq_some he, hr⟩
  · rw [if_neg hall, if_neg fun h => hall (hsome.mp h)]
    exact .none

/-- The second exit takes the same way out as the first; its block for exceptions is found by `τ`. -/
structure SameExit (n : ℕ) (σ τ : ℕ → ℕ) (x x' : Exit Val World) : Prop where
  exception : x'.exception = x.exception
  dest : x'.dest = if x.exception.isSome then τ x.dest else x.dest
  world : x'.world = x.world
  env : SameValues n σ x.env x'.env

/-- **Renamed blocks are left alike.** -/
theorem leave_rename {b b' : CodeBlock} {τ : ℕ → ℕ} (hσ : Renaming n σ)
    (huses : ∀ r ∈ b.uses, r < n) (hbody : ∀ i ∈ b.body, i.result < n ∧ σ i.result = i.result)
    (hterm : ∀ r ∈ b.terminator.results, r < n ∧ σ r = r)
    (hcode : b'.body = b.body.map (Instr.rename σ))
    (hexits : b'.terminator = (b.terminator.mapUnwindDest τ).rename σ)
    (h : SameValues n σ env env') :
    Option.Rel (SameExit n σ τ) (M.leave b env w) (M.leave b' env' w) := by
  obtain ⟨hworld, hvalues⟩ := run_rename (M := M) (w := w) hσ (fun r hr =>
    huses r (List.mem_append_right _ (List.mem_append_left _ hr))) hbody h
  have hargs : ∀ r ∈ b.terminator.operands.flatMap Operand.regs, r < n := fun r hr =>
    huses r (List.mem_append_right _ (List.mem_append_right _ hr))
  unfold Machine.leave
  rw [hcode, hexits]
  generalize M.run (b.body.map (Instr.rename σ)) env' w = out' at hworld hvalues ⊢
  generalize M.run b.body env w = out at hworld hvalues ⊢
  obtain ⟨env₁, w₁⟩ := out
  obtain ⟨env₁', w₁'⟩ := out'
  obtain rfl : w₁' = w₁ := hworld
  have hvalues : SameValues n σ env₁ env₁' := hvalues
  cases hb : b.terminator with
  | br dest => exact .some ⟨rfl, rfl, rfl, hvalues⟩
  | switch op operands dests =>
    rw [hb] at hargs
    have hsame : (operands.map (Operand.rename σ)).map (M.eval env₁') =
        operands.map (M.eval env₁) := hvalues.evals hargs
    dsimp only [Terminator.mapUnwindDest, Terminator.rename]
    rw [hsame]
    cases dests[M.switch op (operands.map (M.eval env₁)) w₁']? with
    | none => exact .none
    | some dest => exact .some ⟨rfl, rfl, rfl, hvalues⟩
  | invoke result op operands normalDest unwindDest =>
    rw [hb] at hargs hterm
    have hsame : (operands.map (Operand.rename σ)).map (M.eval env₁') =
        operands.map (M.eval env₁) := hvalues.evals hargs
    dsimp only [Terminator.mapUnwindDest, Terminator.rename]
    rw [hsame]
    obtain ⟨hlt, hfix⟩ := hterm result (List.mem_singleton_self result)
    generalize M.invoke op (operands.map (M.eval env₁)) w₁' = out
    obtain ⟨c, w₂⟩ := out
    cases c with
    | returned v =>
      have hnext := hvalues.update hσ hlt v
      rw [hfix] at hnext
      exact .some ⟨rfl, rfl, rfl, hnext⟩
    | unwound e => exact .some ⟨rfl, rfl, rfl, hvalues⟩

/-- Control leaves a block by a branch, or by an exception of its call. -/
theorem leave_dest {b : CodeBlock} {x : Exit Val World} (h : M.leave b env w = some x) :
    (x.exception = none → x.dest ∈ b.terminator.branches) ∧
      (x.exception ≠ none → b.terminator.unwindDest = some x.dest) := by
  unfold Machine.leave at h
  generalize M.run b.body env w = out at h
  obtain ⟨env₁, w₁⟩ := out
  cases hb : b.terminator with
  | br dest =>
    rw [hb] at h
    obtain rfl := Option.some.inj h
    exact ⟨fun _ => List.mem_singleton_self dest, fun hne => absurd rfl hne⟩
  | switch op operands dests =>
    rw [hb] at h
    obtain ⟨dest, hdest, rfl⟩ := Option.map_eq_some_iff.mp h
    exact ⟨fun _ => List.mem_of_getElem? hdest, fun hne => absurd rfl hne⟩
  | invoke result op operands normalDest unwindDest =>
    rw [hb] at h
    dsimp only at h
    generalize M.invoke op (operands.map (M.eval env₁)) w₁ = out at h
    obtain ⟨c, w₂⟩ := out
    cases c with
    | returned v =>
      obtain rfl := Option.some.inj h
      exact ⟨fun _ => List.mem_singleton_self normalDest, fun hne => absurd rfl hne⟩
    | unwound e =>
      obtain rfl := Option.some.inj h
      exact ⟨fun hnone => absurd hnone (Option.some_ne_none e), fun _ => rfl⟩

/-- **Renamed blocks are entered alike**, from a block that `β` tells apart. -/
theorem enter_map {f f' : Func} {d d' : ℕ} {exception : Option Val} (hσ : Renaming n σ)
    (hresults : ∀ p ∈ (f.block d).phis, p.result < n)
    (huses : ∀ r ∈ (f.block d).phis.flatMap fun p => p.incoming.flatMap fun e => e.2.regs, r < n)
    (hpad : ∀ pad ∈ (f.block d).landingPad, pad.result < n ∧ σ pad.result = pad.result)
    (hprev : ∀ p ∈ (f.block d).phis, ∀ l ∈ p.incoming.map Prod.fst, β l = β prev → l = prev)
    (hphis : (f'.block d').phis = (f.block d).phis.map (Phi.map σ β))
    (hpads : (f'.block d').landingPad = (f.block d).landingPad)
    (h : SameValues n σ env env') :
    Option.Rel (fun st st' : State Val World => st.block = d ∧ st'.block = d' ∧
        st'.world = st.world ∧ SameValues n σ st.env st'.env)
      (M.enter f prev exception d env w) (M.enter f' (β prev) exception d' env' w) := by
  have hread := readPhis_map (M := M) hσ hresults huses hprev h
  unfold Machine.enter
  rw [hphis, hpads]
  generalize M.readPhis (f.block d).phis prev env = read at hread ⊢
  generalize M.readPhis ((f.block d).phis.map (Phi.map σ β)) (β prev) env' = read' at hread ⊢
  cases hread with
  | none => exact .none
  | some hvalues =>
    rename_i env₁ env₁'
    rw [Option.bind_some, Option.bind_some]
    cases hland : (f.block d).landingPad with
    | none =>
      cases exception with
      | none => exact .some ⟨rfl, rfl, rfl, hvalues⟩
      | some e => exact .none
    | some pad =>
      cases exception with
      | none => exact .none
      | some e =>
        obtain ⟨hlt, hfix⟩ := hpad pad hland
        have hnext := hvalues.update hσ hlt (M.landingPad pad.clauses e)
        rw [hfix] at hnext
        exact .some ⟨rfl, rfl, rfl, hnext⟩

end Renaming

/-! ## Simulation -/

section Simulation

variable {Val World : Type} {f f' f'' : Func} {σ σ' β β' : ℕ → ℕ}

/-- The second execution is at the code that the block was moved to, in the same world, and the
renamed registers have the same values. -/
structure Related (f : Func) (σ β : ℕ → ℕ) (st st' : State Val World) : Prop where
  mem : st.block ∈ f.blocks
  block : st'.block = β st.block
  world : st'.world = st.world
  env : ∀ r < f.nextReg, st'.env (σ r) = st.env r

/-- **The second function behaves like the first**, with the registers renamed by `σ` and the code
of the blocks moved by `β`. -/
structure Simulates (f f' : Func) (σ β : ℕ → ℕ) : Prop where
  entry : f'.entry = β f.entry
  entryMem : f.entry ∈ f.blocks
  params : f'.params = f.params
  renameLt : ∀ r < f.nextReg, σ r < f'.nextReg
  renameParams : ∀ r < f.nextReg, σ r ∈ f'.params ↔ r ∈ f.params
  renameParam : ∀ r ∈ f.params, σ r = r
  mem : ∀ b ∈ f.blocks, β b ∈ f'.blocks
  body : ∀ b ∈ f.blocks, (f'.block (β b)).body = (f.block b).body.map (Instr.rename σ)
  operands : ∀ b ∈ f.blocks, (f'.block (β b)).terminator.operands =
    (f.block b).terminator.operands.map (Operand.rename σ)
  respects : ∀ {Val World : Type} (M : Machine Val World),
    StateTransition.Respects (M.step f) (M.step f') (Related f σ β)

theorem rel_imp {α α' : Type} {R R' : α → α' → Prop} {a : Option α} {a' : Option α'}
    (h : Option.Rel R a a') (himp : ∀ a a', R a a' → R' a a') : Option.Rel R' a a' := by
  cases h with
  | none => exact .none
  | some h => exact .some (himp _ _ h)

/-- What a run reaches after some more steps is related to the given state. -/
def Arrives (M : Machine Val World) (f f' : Func) (σ β : ℕ → ℕ) (st mid : State Val World) : Prop :=
  ∃ st', StateTransition.Reaches (M.step f') mid st' ∧ Related f σ β st st'

/-- **Block by block.** The second function behaves like the first when each block has its code,
renamed, and every way out of it arrives at the code of the block it should lead to. -/
theorem respects_of_enter {M : Machine Val World} (hσ : Renaming f.nextReg σ)
    (huses : ∀ b ∈ f.blocks, ∀ r ∈ (f.block b).uses, r < f.nextReg)
    (hbody : ∀ b ∈ f.blocks, ∀ i ∈ (f.block b).body, i.result < f.nextReg ∧ σ i.result = i.result)
    (hterm : ∀ b ∈ f.blocks, ∀ r ∈ (f.block b).terminator.results, r < f.nextReg ∧ σ r = r)
    (hcode : ∀ b ∈ f.blocks, (f'.block (β b)).body = (f.block b).body.map (Instr.rename σ))
    {τ : ℕ → ℕ → ℕ} (hexits : ∀ b ∈ f.blocks,
      (f'.block (β b)).terminator = ((f.block b).terminator.mapUnwindDest (τ b)).rename σ)
    (henter : ∀ b ∈ f.blocks, ∀ x x' : Exit Val World, SameExit f.nextReg σ (τ b) x x' →
      (x.exception = none → x.dest ∈ (f.block b).terminator.branches) →
      (x.exception ≠ none → (f.block b).terminator.unwindDest = some x.dest) →
      Option.Rel (Arrives M f f' σ β) (M.enter f b x.exception x.dest x.env x.world)
        (M.enter f' (β b) x'.exception x'.dest x'.env x'.world)) :
    StateTransition.Respects (M.step f) (M.step f') (Related f σ β) := by
  intro st st' h
  have hb := h.mem
  have hleave := leave_rename (M := M) (w := st.world) hσ (huses _ hb) (hbody _ hb) (hterm _ hb)
    (hcode _ hb) (hexits _ hb) h.env
  have hdest : ∀ x, M.leave (f.block st.block) st.env st.world = some x →
      (x.exception = none → x.dest ∈ (f.block st.block).terminator.branches) ∧
        (x.exception ≠ none → (f.block st.block).terminator.unwindDest = some x.dest) :=
    fun x => leave_dest
  have hstep : M.step f st = (M.leave (f.block st.block) st.env st.world).bind fun x =>
      M.enter f st.block x.exception x.dest x.env x.world := rfl
  have hstep' : M.step f' st' = (M.leave (f'.block (β st.block)) st'.env st.world).bind fun x =>
      M.enter f' (β st.block) x.exception x.dest x.env x.world := by
    unfold Machine.step
    rw [h.block, h.world]
  generalize M.leave (f.block st.block) st.env st.world = left at hleave hdest hstep
  generalize M.leave (f'.block (β st.block)) st'.env st.world = left' at hleave hstep'
  cases hleave with
  | none =>
    rw [hstep, hstep']
    rfl
  | some hexit =>
    rename_i x x'
    obtain ⟨hbranch, hunwind⟩ := hdest x rfl
    have harrive := henter _ hb x x' hexit hbranch hunwind
    rw [Option.bind_some] at hstep hstep'
    generalize M.enter f st.block x.exception x.dest x.env x.world = entered at harrive hstep
    generalize M.enter f' (β st.block) x'.exception x'.dest x'.env x'.world = entered'
      at harrive hstep'
    cases harrive with
    | none =>
      rw [hstep, hstep']
    | some harrive =>
      rename_i st₁ mid
      obtain ⟨st₁', hreach, hrel⟩ := harrive
      rw [hstep]
      exact ⟨st₁', hrel, Relation.TransGen.head' hstep' hreach⟩

namespace Simulates

theorem trans (h : Simulates f f' σ β) (h' : Simulates f' f'' σ' β') :
    Simulates f f'' (σ' ∘ σ) (β' ∘ β) where
  entry := by rw [h'.entry, h.entry]; rfl
  entryMem := h.entryMem
  params := h'.params.trans h.params
  renameLt r hr := h'.renameLt _ (h.renameLt r hr)
  renameParams r hr := (h'.renameParams _ (h.renameLt r hr)).trans (h.renameParams r hr)
  renameParam r hr := by
    have hfix := h.renameParam r hr
    rw [Function.comp_apply, hfix]
    exact h'.renameParam r (h.params ▸ hr)
  mem b hb := h'.mem _ (h.mem b hb)
  body b hb := by
    rw [Function.comp_apply, h'.body _ (h.mem b hb), h.body b hb, List.map_map]
    exact List.map_congr_left fun i _ => instr_rename_comp i
  operands b hb := by
    rw [Function.comp_apply, h'.operands _ (h.mem b hb), h.operands b hb, List.map_map]
    exact List.map_congr_left fun o _ => operand_rename_comp o
  respects M st st'' hst := by
    -- the state in between
    let st' : State _ _ := ⟨β st.block, fun r => st''.env (σ' r), st.world⟩
    have hfirst : Related f σ β st st' := ⟨hst.mem, rfl, rfl, fun r hr => hst.env r hr⟩
    have hsecond : Related f' σ' β' st' st'' :=
      ⟨h.mem _ hst.mem, hst.block, hst.world, fun r _ => rfl⟩
    have hstep := h.respects M hfirst
    cases heq : M.step f st with
    | none =>
      rw [heq] at hstep
      have hstep' := h'.respects M hsecond
      rw [show M.step f' st' = none from hstep] at hstep'
      exact hstep'
    | some st₁ =>
      rw [heq] at hstep
      obtain ⟨st₁', hrel, hreach⟩ := hstep
      obtain ⟨st₁'', hrel', hreach'⟩ := StateTransition.tr_reaches₁ (h'.respects M) hsecond hreach
      refine ⟨st₁'', ⟨hrel.mem, ?_, ?_, fun r hr => ?_⟩, hreach'⟩
      · rw [hrel'.block, hrel.block]
        rfl
      · rw [hrel'.world, hrel.world]
      · rw [Function.comp_apply, hrel'.env _ (h.renameLt r hr), hrel.env r hr]

/-- Every well-formed function behaves like itself. -/
theorem refl (hf : f.WellFormed) : Simulates f f id id where
  entry := rfl
  entryMem := hf.entry
  params := rfl
  renameLt _ hr := hr
  renameParams _ _ := Iff.rfl
  renameParam _ _ := rfl
  mem _ hb := hb
  body b _ := by rw [List.map_congr_left fun i _ => instr_rename_id i, List.map_id']; rfl
  operands b _ := by rw [List.map_congr_left fun o _ => operand_rename_id o, List.map_id']; rfl
  respects M := by
    have hid : ∀ t : Terminator, (t.mapUnwindDest id).rename id = t := by
      intro t
      rw [terminator_rename_id]
      cases t <;> rfl
    have hphi : ∀ p : Phi, p.map id id = p := fun p => by
      simp only [Phi.map, operand_rename_id, id, List.map_id']
    refine respects_of_enter (τ := fun _ => id) (fun _ _ _ _ h => h) hf.usesLt
      (fun b hb i hi => ⟨hf.resultsLt b hb _ (Func.mem_results_body hi), rfl⟩)
      (fun b hb r hr => ⟨hf.resultsLt b hb _ (Func.mem_results_terminator hr), rfl⟩)
      (fun b _ => ?_) (fun b _ => (hid _).symm) ?_
    · rw [List.map_congr_left fun i _ => instr_rename_id i, List.map_id']
      rfl
    · intro b hb x x' hexit hbranch hunwind
      have hd : x.dest ∈ f.blocks := by
        refine hf.successors b hb _ (Func.mem_successors.mpr ?_)
        by_cases hnone : x.exception = none
        · exact .inl (hbranch hnone)
        · exact .inr (hunwind hnone)
      have hdest : x'.dest = x.dest := hexit.dest.trans (ite_self _)
      rw [hexit.exception, hexit.world, hdest]
      refine rel_imp (enter_map (σ := id) (β := id) (fun _ _ _ _ h => h)
        (fun p hp => hf.resultsLt _ hd _ (Func.mem_results_phi hp))
        (fun r hr => hf.usesLt _ hd r (List.mem_append_left _ hr))
        (fun pad hpad => ⟨hf.resultsLt _ hd _ (Func.mem_results_pad hpad), rfl⟩)
        (fun _ _ _ _ h => h)
        (by rw [List.map_congr_left fun p _ => hphi p, List.map_id']) rfl hexit.env) ?_
      rintro st st' ⟨hblock, hblock', hworld, henv⟩
      exact ⟨st', .refl, by rw [hblock]; exact hd, hblock'.trans hblock.symm, hworld, henv⟩

/-- Executions start alike. -/
theorem start_related (h : Simulates f f' σ β) (undefined : Val)
    (args : ℕ → Val) (w : World) :
    Related f σ β (f.start undefined args w) (f'.start undefined args w) where
  mem := h.entryMem
  block := h.entry
  world := rfl
  env r hr := by
    unfold Func.start
    dsimp only
    by_cases hparam : r ∈ f.params
    · rw [if_pos hparam, if_pos ((h.renameParams r hr).mpr hparam), h.renameParam r hparam]
    · rw [if_neg hparam, if_neg fun hmem => hparam ((h.renameParams r hr).mp hmem)]

/-- **Every execution** of the first function is one of the second. -/
theorem reaches (h : Simulates f f' σ β) {M : Machine Val World} {undefined : Val}
    {args : ℕ → Val} {w : World} {st : State Val World}
    (hreach : StateTransition.Reaches (M.step f) (f.start undefined args w) st) :
    ∃ st', Related f σ β st st' ∧
      StateTransition.Reaches (M.step f') (f'.start undefined args w) st' :=
  StateTransition.tr_reaches (h.respects M) (h.start_related undefined args w) hreach

/-- Every execution of the second function goes on to one of the first. -/
theorem reaches_rev (h : Simulates f f' σ β) {M : Machine Val World} {undefined : Val}
    {args : ℕ → Val} {w : World} {st' : State Val World}
    (hreach : StateTransition.Reaches (M.step f') (f'.start undefined args w) st') :
    ∃ st₁ st₁', StateTransition.Reaches (M.step f') st' st₁' ∧ Related f σ β st₁ st₁' ∧
      StateTransition.Reaches (M.step f) (f.start undefined args w) st₁ :=
  StateTransition.tr_reaches_rev (h.respects M) (h.start_related undefined args w) hreach

end Simulates

end Simulation

end SSA
