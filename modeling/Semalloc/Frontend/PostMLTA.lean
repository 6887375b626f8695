import Semalloc.Library.SSA

/-!
# Landing pads of recorded calls

`PostMLTAPass` gives each recorded call a block of its own to unwind to. A block that several calls
unwind to is split behind its landing pad. The first call keeps the block; for every other one a new
block gets a copy of the landing pad and jumps to the code behind. The φ-nodes move there as well.

Following a null pointer ends the process: the last instruction of a predecessor is taken for a call
that may unwind, but the predecessors are collected before the block is split.

## Main definitions

* `splitBasicBlock`, `copyLandingPad`, `replaceAllUsesWith`, `movePhi`: the steps for one block
* `duplicateUnwind`: the loop body of `DuplicateInvokeUnwinds`
* `duplicateInvokeUnwinds`: the loop over the recorded calls
-/

set_option autoImplicit false

namespace Semalloc

namespace PostMLTAPass

open SSA

/-- The block that the exceptions of a call unwind to. -/
def getUnwindDest (f : Func) (invokeInst : ℕ) : Option ℕ :=
  f.blocks.findSome? fun b =>
    if invokeInst ∈ (f.block b).terminator.results then (f.block b).terminator.unwindDest else none

/-- Move the code behind the landing pad to a new block; the φ-nodes of the successors of the code
follow. The uses by the terminator keep their places. -/
def splitBasicBlock (f : Func) (d : ℕ) : Func :=
  let merge := f.nextBlock
  let old := f.block d
  let block := Function.update
    (Function.update f.block d { old with body := [], terminator := .br merge })
    merge { phis := [], landingPad := none, body := old.body, terminator := old.terminator }
  { f with
    blocks := f.blocks.map (fun b => if b = d then merge else b) ++ [d]
    block := fun b =>
      if b ∈ old.terminator.successors then
        { block b with
          phis := (block b).phis.map (Phi.retarget fun l => if l = d then merge else l) }
      else block b
    nextBlock := merge + 1 }

/-- The φ-node for the value of the landing pad. -/
def createPHI (f : Func) (d merge : ℕ) (pad : LandingPad) : Func :=
  { f with
    block := Function.update f.block merge { f.block merge with
      phis := ⟨f.nextReg, [(d, .reg pad.result)]⟩ :: (f.block merge).phis }
    nextReg := f.nextReg + 1 }

def addIncoming (phi : ℕ) (e : ℕ × Operand) (b : CodeBlock) : CodeBlock :=
  { b with
    phis := b.phis.map fun q =>
      if q.result = phi then { q with incoming := q.incoming ++ [e] } else q }

/-- Let the call at the end of `p` unwind to a new block with a copy of the landing pad; `none` where
there is no such call. -/
def copyLandingPad (merge phi : ℕ) (pad : LandingPad) (f : Func) (p : ℕ) : Option Func :=
  let newTarget := f.nextBlock
  let landingPadDuplicate := f.nextReg
  if (f.block p).terminator.unwindDest = none then none
  else
    let invoking := { f.block p with
      terminator := (f.block p).terminator.mapUnwindDest fun _ => newTarget }
    let block := Function.update (Function.update f.block p invoking) newTarget
      { phis := []
        landingPad := some { pad with result := landingPadDuplicate }
        body := []
        terminator := .br merge }
    some { f with
      blocks := f.blocks ++ [newTarget]
      block := Function.update block merge
        (addIncoming phi (newTarget, .reg landingPadDuplicate) (block merge))
      nextBlock := newTarget + 1
      nextReg := landingPadDuplicate + 1 }

def replaceAllUsesWith (old new : ℕ) (f : Func) : Func :=
  { f with block := fun b => (f.block b).rename fun r => if r = old then new else r }

/-- Set the value of the first entry of a φ-node. -/
def setFirstIncomingValue (merge phi : ℕ) (v : Operand) (f : Func) : Func :=
  { f with
    block := Function.update f.block merge { f.block merge with
      phis := (f.block merge).phis.map fun q =>
        if q.result = phi then
          { q with incoming := q.incoming.modifyHead fun e => (e.1, v) }
        else q } }

/-- Let the values of a φ-node come from the blocks that the calls unwind to now, and put a copy of
it at the front of the code behind the landing pad. -/
def movePhi (d merge : ℕ) (f : Func) (mergePhi : ℕ) : Option Func := do
  let q ← (f.block d).phis.find? fun q => q.result = mergePhi
  let incoming ← q.incoming.mapM fun e =>
    (f.block e.1).terminator.unwindDest.map fun newBB => (newBB, e.2)
  let newPhi := f.nextReg
  let block := Function.update f.block d { f.block d with
    phis := (f.block d).phis.map fun q =>
      if q.result = mergePhi then { q with incoming := incoming } else q }
  some <| replaceAllUsesWith mergePhi newPhi { f with
    block := Function.update block merge { block merge with
      phis := ⟨newPhi, incoming⟩ :: (block merge).phis }
    nextReg := newPhi + 1 }

/-- Remove the φ-nodes of a block. -/
def removePhis (d : ℕ) (f : Func) : Func :=
  { f with block := Function.update f.block d { f.block d with phis := [] } }

/-- Give all calls that unwind to the same block as the given one blocks of their own. -/
def duplicateUnwind (f : Func) (invokeInst : ℕ) : Option Func := do
  let unwindDest ← getUnwindDest f invokeInst
  let unwindPredecessors := f.predecessors unwindDest
  if unwindPredecessors.length = 1 then some f
  else
    let pad ← (f.block unwindDest).landingPad
    let mergeBlock := f.nextBlock
    let phi := f.nextReg
    let f := createPHI (splitBasicBlock f unwindDest) unwindDest mergeBlock pad
    let f ← unwindPredecessors.tail.foldlM (copyLandingPad mergeBlock phi pad) f
    let f := replaceAllUsesWith pad.result phi f
    let f := setFirstIncomingValue mergeBlock phi (.reg pad.result) f
    let f ← ((f.block unwindDest).phis.map Phi.result).foldlM (movePhi unwindDest mergeBlock) f
    some (removePhis unwindDest f)

def duplicateInvokeUnwinds (f : Func) (invokes : List ℕ) : Option Func :=
  invokes.foldlM duplicateUnwind f

end PostMLTAPass

end Semalloc
