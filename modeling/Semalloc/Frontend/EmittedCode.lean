import Semalloc.Frontend.InnerBranches
import Semalloc.Frontend.TagWord

/-!
# The code that is put around calls

The emitters put code before a call site, after it, at the head of the normal destination of an
invoke or in a new block in front of it, and after a landing pad. The code reads and writes the
thread-local variables of the instrumentation.

## Main definitions

* `Emitted`: the pieces of inserted code, and what they do to the variables
* `Code`: the inserted code, by the place where it stands
* `extendInLoopRecursiveCall`, `extendOutBoundRecursiveCall`, `extendInBoundRecursiveCall`,
  `instrumentCall`: the emitters
* `doModulePass`: the whole instrumentation of the calls
* `Trace`, `execute`: what a frame does, and the inserted code that runs meanwhile
-/

set_option autoImplicit false

namespace Semalloc

/-! ## Inserted code -/

/-- The counters among the thread-local variables: `semallocCSTrack`, `CSSLoopLayerTrack` and
`CSSRecursiveOffsetTrack`. -/
inductive Counter
  | track
  | loopLayer
  | offset
  deriving DecidableEq

/-- The thread-local variables, and the words of memory by their addresses. -/
structure Globals where
  counters : Counter → Word
  hash : Word
  memory : Word → Word

/-- Inserted code. Each piece loads what it needs and stores its result. -/
inductive Emitted
  /-- Store the frame address at the slot of `CSSRecursiveStack` that the offset names. -/
  | storeFrame
  | add (v : Counter) (n : Word)
  | sub (v : Counter) (n : Word)
  /-- Call the hash function and store its value to `CSSRecursiveHash`. -/
  | storeHash
  | clearHash
  deriving DecidableEq

namespace Emitted

/-- What the code does, for `CSSRecursiveStack` at address `stack` and a frame address. The hash
function is passed the first word of `CSSRecursiveStack`, which is loaded as if it were the
pointer. -/
def run (stack frame : Word) (g : Globals) : Emitted → Globals
  | storeFrame =>
    { g with memory := Function.update g.memory (stack + 8 * g.counters .offset) frame }
  | add v n => { g with counters := Function.update g.counters v (g.counters v + n) }
  | sub v n => { g with counters := Function.update g.counters v (g.counters v - n) }
  | storeHash =>
    let loadRStackInst := g.memory stack
    let loadROTVInst := g.counters .offset
    { g with
      hash := cssHashFunction (fun i => g.memory (loadRStackInst + 8 * BitVec.ofNat 64 i))
        loadROTVInst }
  | clearHash => { g with hash := 0 }

/-- A sequence of inserted code. -/
def runAll (stack frame : Word) (ops : List Emitted) (g : Globals) : Globals :=
  ops.foldl (run stack frame) g

theorem runAll_append {stack frame : Word} {ops ops' : List Emitted} {g : Globals} :
    runAll stack frame (ops ++ ops') g = runAll stack frame ops' (runAll stack frame ops g) :=
  List.foldl_append

end Emitted

/-! ## Places -/

abbrev Site := ℕ
abbrev BasicBlock := ℕ

/-- A call instruction, or an invoke with its normal and its unwind destination. -/
inductive CallInst
  | call
  | invoke (normalDest unwindDest : BasicBlock)
  deriving DecidableEq

/-- Where an invoke returns to: a block of the function, or a new block that goes on to it, or a new
block without an instruction in it. -/
inductive NormalDest
  | block (b : BasicBlock)
  | newTarget (ops : List Emitted) (next : NormalDest)
  | empty
  deriving DecidableEq

/-- The code of the new blocks. -/
def NormalDest.ops : NormalDest → List Emitted
  | block _ => []
  | newTarget ops next => ops ++ next.ops
  | empty => []

/-- The block of the function that is reached. -/
def NormalDest.reached : NormalDest → Option BasicBlock
  | block b => some b
  | newTarget _ next => next.reached
  | empty => none

/-- The inserted code: directly before and after a call site, at the head of a block, and after the
landing pad of a block. -/
structure Code where
  inst : Site → CallInst
  before : Site → List Emitted := fun _ => []
  after : Site → List Emitted := fun _ => []
  normalDest : Site → NormalDest
  head : BasicBlock → List Emitted := fun _ => []
  pad : BasicBlock → List Emitted := fun _ => []

namespace Code

/-- The site is an invoke with the normal destination `b`. -/
def returnsTo (inst : Site → CallInst) (b : BasicBlock) (s : Site) : Bool :=
  match inst s with
  | .call => false
  | .invoke n _ => n = b

/-- The site is an invoke with the unwind destination `b`. -/
def unwindsTo (inst : Site → CallInst) (b : BasicBlock) (s : Site) : Bool :=
  match inst s with
  | .call => false
  | .invoke _ u => u = b

/-- The code before the instrumentation. -/
def original (inst : Site → CallInst) : Code where
  inst := inst
  normalDest s := match inst s with
    | .call => .empty
    | .invoke n _ => .block n

/-- Insert before the call, after what was inserted there already. -/
def insertBefore (c : Code) (s : Site) (ops : List Emitted) : Code :=
  { c with before := Function.update c.before s (c.before s ++ ops) }

/-- Insert at the next instruction after the call. -/
def insertAfter (c : Code) (s : Site) (ops : List Emitted) : Code :=
  { c with after := Function.update c.after s (ops ++ c.after s) }

/-- Insert after the landing pad of an unwind destination. -/
def insertAtUnwindDest (c : Code) (b : BasicBlock) (ops : List Emitted) : Code :=
  { c with pad := Function.update c.pad b (ops ++ c.pad b) }

/-- Insert at the first instruction of the normal destination. -/
def insertAtNormalDest (c : Code) (s : Site) (ops : List Emitted) : Code :=
  match c.normalDest s with
  | .block b => { c with head := Function.update c.head b (ops ++ c.head b) }
  | .newTarget ops' next =>
    { c with normalDest := Function.update c.normalDest s (.newTarget (ops ++ ops') next) }
  | .empty => c

/-- Put a new block in front of the normal destination. -/
def setNormalDest (c : Code) (s : Site) (dest : NormalDest) : Code :=
  { c with normalDest := Function.update c.normalDest s dest }

/-! ## Emitters -/

/-- `extendInLoopRecursiveCall`. For an invoke the builder that makes the code of the new block has
no insertion point, so the block stays empty. -/
def extendInLoopRecursiveCall (c : Code) (s : Site) : Code :=
  let c := c.insertBefore s [.storeFrame, .add .offset 1]
  match c.inst s with
  | .call => c.insertAfter s [.sub .offset 1]
  | .invoke _ u => (c.setNormalDest s .empty).insertAtUnwindDest u [.sub .offset 1]

def extendOutBoundRecursiveCall (c : Code) (s : Site) : Code :=
  let c := c.insertBefore s [.storeHash, .add .loopLayer 1]
  match c.inst s with
  | .call => c.insertAfter s [.sub .loopLayer 1]
  | .invoke _ u =>
    (c.insertAtUnwindDest u [.sub .loopLayer 1]).insertAtNormalDest s [.sub .loopLayer 1]

def extendInBoundRecursiveCall (c : Code) (s : Site) : Code :=
  match c.inst s with
  | .call => c.insertAfter s [.clearHash]
  | .invoke _ u => (c.insertAtNormalDest s [.clearHash]).insertAtUnwindDest u [.clearHash]

/-- The code of `doModulePass` itself around one call: the weight, if there is one, and the loop
layer, unless the call is a branch. -/
def addWeight (pathType : PathType) (w : Word) : List Emitted :=
  (if w ≠ 0 then [.add .track w] else []) ++
    (if pathType ≠ .markBranch then [.add .loopLayer 1] else [])

/-- The code that undoes it, in the order in which it is inserted. -/
def subWeight (pathType : PathType) (w : Word) : List Emitted :=
  (if pathType ≠ .markBranch then [.sub .loopLayer 1] else []) ++
    (if w ≠ 0 then [.sub .track w] else [])

/-- The body of the loop of `doModulePass` over the calls, for a call with a mark. -/
def instrumentCall (c : Code) (s : Site) (pathType : PathType) (w : Word) : Code :=
  let c := match pathType with
    | .markOutbound => c.extendOutBoundRecursiveCall s
    | .markInbound => c.extendInBoundRecursiveCall s
    | _ => c
  let c := c.insertBefore s (addWeight pathType w)
  match c.inst s with
  | .call => c.insertAfter s (subWeight pathType w)
  | .invoke _ u =>
    (c.setNormalDest s (.newTarget (subWeight pathType w) (c.normalDest s))).insertAtUnwindDest u
      (subWeight pathType w)

end Code

namespace InstrumentIRPass

/-- The loop of `doModulePass` over the calls in one function. `uniqueCallInstSet` has the
instructions that were seen. -/
def instrumentCalls (s : InstrumentIRPass) : List ℕ → List Site → Code → Code
  | [], _, c => c
  | p :: ps, uniqueCallInstSet, c =>
    let e := s.callPaths p
    if e.pathType = .default then s.instrumentCalls ps uniqueCallInstSet c
    else if e.callInst ∈ uniqueCallInstSet then s.instrumentCalls ps uniqueCallInstSet c
    else
      let uniqueCallInstSet := e.callInst :: uniqueCallInstSet
      if e.pathType = .markSimpleInner ∨ e.pathType = .markInnerBranch then
        s.instrumentCalls ps uniqueCallInstSet c
      else
        s.instrumentCalls ps uniqueCallInstSet
          (c.instrumentCall e.callInst e.pathType (e.edgeWeight.setWidth 64))

/-- The instrumentation of the calls by `doModulePass`, up to the interface of the heap. -/
def doModulePass (s : InstrumentIRPass) (c : Code) : Code :=
  let s := s.carryWeights
  let c := s.innerBranchCalls.foldl Code.extendInLoopRecursiveCall c
  s.relevantAllFunctionSet.foldl (fun c f => s.instrumentCalls (s.finalCalleeMap.get f) [] c) c

end InstrumentIRPass

/-! ## Execution -/

/-- How a callee ends. -/
inductive Outcome
  | returned
  | threw
  deriving DecidableEq

/-- What a frame does: it enters blocks and makes calls, each with what the callee does and how it
ends. -/
inductive Trace
  | done
  | enter (b : BasicBlock) (rest : Trace)
  | call (s : Site) (frame : Word) (callee : Trace) (o : Outcome) (rest : Trace)

namespace Code

/-- The code on the way from the callee back into the frame. When the callee of a plain call throws,
there is none, and control leaves the frame too. -/
def resume (c : Code) (s : Site) : Outcome → List Emitted
  | .returned =>
    match c.inst s with
    | .call => c.after s
    | .invoke _ _ => (c.normalDest s).ops ++ ((c.normalDest s).reached.map c.head).getD []
  | .threw =>
    match c.inst s with
    | .call => []
    | .invoke _ u => c.pad u

/-- The inserted code that runs along a trace. -/
def execute (stack : Word) (c : Code) : Trace → Globals → Globals
  | .done, g => g
  | .enter b rest, g => c.execute stack rest (Emitted.runAll stack 0 (c.head b) g)
  | .call s frame callee o rest, g =>
    c.execute stack rest (Emitted.runAll stack frame (c.resume s o)
      (c.execute stack callee (Emitted.runAll stack frame (c.before s) g)))

variable {stack frame : Word} {c : Code} {s : Site} {callee rest : Trace} {o : Outcome} {g : Globals}

theorem execute_call : c.execute stack (.call s frame callee o rest) g =
    c.execute stack rest (Emitted.runAll stack frame (c.resume s o)
      (c.execute stack callee (Emitted.runAll stack frame (c.before s) g))) := rfl

end Code

end Semalloc
