import Semalloc.Frontend.CallPath

/-!
# The analysis passes of `InstrumentIRPass`

The passes find the functions that reach a heap function, contract the cycles of the call graph to
single nodes, keep what belongs to loops, and number the calls of what is left. Loop analysis and
the search for strongly connected components are libraries of the compiler and of a graph package:
they are parameters here.

## Main definitions

* `doInitialization`, `instrIsInaLoop`, `markLoopRelevantFunctions`, `constructFinalCFG`,
  `computeEdgeWeight`: the steps of `run`
* `carryWeights`: the first loop of `doModulePass`
* `analyze`: the steps one after the other
-/

set_option autoImplicit false

namespace Semalloc

/-- What `kosaraju` reports: the nodes of the graph, in some order, and their components. -/
structure SCCResult where
  nodeSet : List String
  sccMap : String → ℕ

/-- The process exits with a message. -/
structure Exit where
  code : ℤ
  message : String
  deriving DecidableEq

namespace InstrumentIRPass

/-! ## Relevant functions -/

/-- Append a call path to the list of a function, which is created first if need be. -/
def pushPath (m : KeyMap String (List ℕ)) (f : String) (p : ℕ) : KeyMap String (List ℕ) :=
  m.insert f ((if f ∈ m.keys then m.get f else []) ++ [p])

def flipFunctionMap (s : InstrumentIRPass) : InstrumentIRPass :=
  { s with
    flippedFunctionMap := s.functionMap.values.flatten.foldl
      (fun m p => pushPath m (s.callPaths p).caller p) s.flippedFunctionMap }

/-- The callers of a function, once for each call. -/
def callersOf (s : InstrumentIRPass) (f : String) : List String :=
  (s.functionMap.get f).map fun p => (s.callPaths p).caller

/-- The callees of a function, once for each call. -/
def calleesOf (s : InstrumentIRPass) (f : String) : List String :=
  (s.flippedFunctionMap.get f).map fun p => (s.callPaths p).callee

/-- The loop of `MarkOnlyRelevantFunctions` over the calls of one function. All functions that reach
it are searched for once; where the function itself was visited, the loop ends. -/
def markCallersOf (s : InstrumentIRPass) (f : String) : List ℕ → Search String → Search String
  | [], r => r
  | p :: ps, r =>
    if (s.callPaths p).callsHMF = false then s.markCallersOf f ps r
    else
      let r := { r with found := insertKey (s.callPaths p).callee r.found }
      if f ∈ r.visited then r
      else s.markCallersOf f ps
        (Search.finish s.functionMap.keys s.callersOf (fun _ => true)
          { r with queue := s.callersOf f })

def markOnlyRelevantFunctions (s : InstrumentIRPass) : InstrumentIRPass :=
  let r := s.functionMarkSet.foldl
    (fun r f => s.markCallersOf f (s.flippedFunctionMap.get f) r)
    { queue := [], visited := [], found := s.functionMarkSet }
  { s with functionMarkSet := insertKeys r.found s.functionMarkSet }

/-- Mark the callers of a heap function, and the calls. -/
def markHeapFunction (s : InstrumentIRPass) (f : String) : InstrumentIRPass :=
  if f ∈ s.functionMap.keys then
    { s with
      functionMarkSet := insertKeys (s.callersOf f) s.functionMarkSet
      callPaths := modifyAll s.callPaths (s.functionMap.get f)
        fun _ e => { e with callsHMF := true } }
  else s

def doInitialization (s : InstrumentIRPass) : InstrumentIRPass :=
  (initialHeapFunctions.foldl markHeapFunction s.flipFunctionMap).markOnlyRelevantFunctions

/-! ## Loops -/

/-- Calls in an intra-procedural loop, for the callers of one function. -/
def markSimpleLoops (inLoop : ℕ → Bool) (s : InstrumentIRPass) (f : String) : InstrumentIRPass :=
  let looping := (s.functionMap.get f).filter fun p => inLoop (s.callPaths p).callInst
  { s with
    callPaths := modifyAll s.callPaths looping fun _ e => { e with pathType := .markSimpleLoop }
    relevantLoopFunctionSet :=
      if looping = [] then s.relevantLoopFunctionSet else insertKey f s.relevantLoopFunctionSet }

/-- The graph of the marked functions. -/
def markedEdges (s : InstrumentIRPass) : List (String × String) :=
  ((s.functionMarkSet.filter (· ∈ s.flippedFunctionMap.keys)).flatMap
      s.flippedFunctionMap.get).filterMap fun p =>
    let e := s.callPaths p
    if e.caller ∈ s.functionMarkSet ∧ e.callee ∈ s.functionMarkSet then some (e.caller, e.callee)
    else none

/-- The components with more than one node, in the order of their numbers. -/
def cyclesOf (r : SCCResult) : List (List String) :=
  ((insertKeys (r.nodeSet.map r.sccMap) []).map fun id => r.nodeSet.filter (r.sccMap · = id)).filter
    fun component => component.length > 1

/-- Give a cycle a name. -/
def nameCycle (s : InstrumentIRPass) (cycle : List String) : InstrumentIRPass :=
  if cycle.head? ∈ s.functionMarkSet.map some then
    let name := intraName s.intraFunctionMap.keys.length
    { s with
      relevantLoopFunctionSet := insertKeys cycle s.relevantLoopFunctionSet
      intraFunctionMap := s.intraFunctionMap.insert name (insertKeys cycle [])
      flippedIntraFunctionMap :=
        cycle.foldl (fun m node => m.insert node name) s.flippedIntraFunctionMap }
  else s

/-- A call in a function of a cycle: to a function of a cycle, or out of it. -/
def markOutbound (intra : KeyMap String String) (e : CallPath) : CallPath :=
  if e.callee ∈ intra.keys then
    { e with
      pathType := .markSimpleInner, callee := intra.get e.caller, caller := intra.get e.caller }
  else { e with pathType := .markOutbound, caller := intra.get e.caller }

/-- A call of a function of a cycle that is called `n` times: inside the cycle, or from outside. The
second case would be a call that the first loop left alone. -/
def markInbound (intra : KeyMap String String) (n : ℕ) (e : CallPath) : CallPath :=
  let inner := if n > 1 then PathType.markInnerBranch else .markSimpleInner
  if e.caller = e.callee then { e with pathType := inner }
  else if e.caller ∈ intra.keys then
    { e with
      pathType := inner, callee := intra.get e.callee, caller := intra.get (intra.get e.callee) }
  else { e with pathType := .markInbound, callee := intra.get e.callee }

/-- Mark all calls in functions of cycles, then all calls of functions of cycles. -/
def markCycleCalls (s : InstrumentIRPass) : InstrumentIRPass :=
  let intra := s.flippedIntraFunctionMap
  let outbound := intra.keys.foldl
    (fun m f => modifyAll m (s.flippedFunctionMap.get f) fun _ e => markOutbound intra e) s.callPaths
  let inbound := intra.keys.foldl
    (fun m f => modifyAll m (s.functionMap.get f)
      fun _ e => markInbound intra (s.functionMap.get f).length e) outbound
  { s with callPaths := inbound }

/-- Move the calls of a function of a cycle to the node of the cycle, in one of the maps. -/
def moveCalls (name : String) (m : KeyMap String (List ℕ)) (f : String) : KeyMap String (List ℕ) :=
  (m.insert name (m.get name ++ m.get f)).insert f []

def moveToCycle (name : String) (s : InstrumentIRPass) (f : String) : InstrumentIRPass :=
  { s with
    functionMap := moveCalls name s.functionMap f
    flippedFunctionMap := moveCalls name s.flippedFunctionMap f
    relevantLoopFunctionSet := s.relevantLoopFunctionSet.erase f }

/-- A new entry, unless there is one. -/
def createEntry (m : KeyMap String (List ℕ)) (name : String) : KeyMap String (List ℕ) :=
  if name ∈ m.keys then m else m.insert name []

/-- Contract one cycle to its node. -/
def contractCycle (s : InstrumentIRPass) (name : String) : InstrumentIRPass :=
  (s.intraFunctionMap.get name).foldl (moveToCycle name)
    { s with
      functionMap := createEntry s.functionMap name
      flippedFunctionMap := createEntry s.flippedFunctionMap name
      relevantLoopFunctionSet := insertKey name s.relevantLoopFunctionSet }

def instrIsInaLoop (inLoop : ℕ → Bool) (kosaraju : List (String × String) → SCCResult)
    (s : InstrumentIRPass) : InstrumentIRPass :=
  let s := s.functionMarkSet.foldl (markSimpleLoops inLoop) s
  let cycles := cyclesOf (kosaraju s.markedEdges)
  let s := cycles.foldl nameCycle { s with functionCycles := s.functionCycles ++ cycles }
  let s := s.markCycleCalls
  s.intraFunctionMap.keys.foldl contractCycle s

/-- The two searches from one loop function, first among its callers and then among its callees.
Cycles are not in the mark set. -/
def searchFrom (s : InstrumentIRPass) (r : Search String) (f : String) : Search String :=
  let marked := fun g => decide (g ∈ s.functionMarkSet)
  let up := Search.finish s.functionMap.keys s.callersOf marked
    { r with visited := insertKey f r.visited, queue := (s.callersOf f).filter marked }
  Search.finish s.flippedFunctionMap.keys s.calleesOf marked
    { up with queue := up.queue ++ (s.calleesOf f).filter marked }

def markLoopRelevantFunctions (s : InstrumentIRPass) : InstrumentIRPass :=
  let r := s.relevantLoopFunctionSet.foldl s.searchFrom
    { queue := [], visited := [], found := s.relevantLoopFunctionSet }
  let all := insertKeys r.found s.relevantAllFunctionSet
  let removeSet := all.filter (· ∈ s.flippedIntraFunctionMap.keys)
  let insertSet := removeSet.map s.flippedIntraFunctionMap.get
  { s with relevantAllFunctionSet := (insertKeys insertSet all).filter (· ∉ removeSet) }

/-! ## The final call graph -/

/-- The final calls of, or in, a function: neither inside a cycle nor to or from a function that is
not relevant. -/
def finalPaths (s : InstrumentIRPass) (m : KeyMap String (List ℕ)) (other : CallPath → String)
    (f : String) : List ℕ :=
  if f ∈ m.keys then
    (m.get f).filter fun p =>
      let e := s.callPaths p
      e.caller ≠ e.callee ∧ other e ∈ s.relevantAllFunctionSet
  else []

/-- Calls without a mark of a function with several final calls. -/
def markBranches (s : InstrumentIRPass) (f : String) : InstrumentIRPass :=
  if (s.finalCallerMap.get f).length > 1 then
    { s with
      callPaths := modifyAll s.callPaths (s.finalCallerMap.get f) fun _ e =>
        if e.pathType = .default then { e with pathType := .markBranch } else e }
  else s

def constructFinalCFG (s : InstrumentIRPass) : InstrumentIRPass :=
  let maps := s.relevantAllFunctionSet.foldl
    (fun (maps : KeyMap String (List ℕ) × KeyMap String (List ℕ)) f =>
      (maps.1.insert f (s.finalPaths s.functionMap CallPath.caller f),
        maps.2.insert f (s.finalPaths s.flippedFunctionMap CallPath.callee f)))
    (s.finalCallerMap, s.finalCalleeMap)
  let s := { s with finalCallerMap := maps.1, finalCalleeMap := maps.2 }
  s.relevantAllFunctionSet.foldl markBranches s

/-! ## Weights -/

/-- Exit with a message if a check fails. -/
def exitIf (failed : Prop) [Decidable failed] (message : String) : Except Exit Unit :=
  if failed then .error ⟨1, message⟩ else .ok ()

/-- The first consistency check, of the final calls in and of one function. -/
def checkEnds (s : InstrumentIRPass) (f : String) : Except Exit Unit := do
  (s.finalCalleeMap.get f).forM fun p => do
    let e := s.callPaths p
    exitIf (e.callee ∈ s.flippedIntraFunctionMap.keys) ("Callee target " ++ e.callee ++ " of " ++ f ++
      " invalid is part of the intra loop" ++ s.flippedIntraFunctionMap.get e.callee ++ "\n")
    exitIf (e.caller ≠ f) ("The caller of path " ++ e.caller ++ " -> " ++ e.callee ++
      " should be " ++ f ++ "\n")
  (s.finalCallerMap.get f).forM fun p => do
    let e := s.callPaths p
    exitIf (e.caller ∈ s.flippedIntraFunctionMap.keys) ("Caller target " ++ e.caller ++ " of " ++ f ++
      " invalid is part of the intra loop" ++ s.flippedIntraFunctionMap.get e.caller ++ "\n")
    exitIf (e.callee ≠ f) ("The callee of path " ++ e.caller ++ " -> " ++ e.callee ++
      " should be " ++ f ++ "\n")

/-- The second check: a final call in a function is a final call of its callee. -/
def checkCallee (s : InstrumentIRPass) (f : String) : Except Exit Unit :=
  (s.finalCalleeMap.get f).forM fun p =>
    let e := s.callPaths p
    exitIf (p ∉ s.finalCallerMap.get e.callee) ("Function " ++ e.callee ++ " is called by " ++
      e.caller ++ " but the call path can only be found in the ->callee map\n")

/-- The third check: a final call of a function is a final call in its caller. -/
def checkCaller (s : InstrumentIRPass) (f : String) : Except Exit Unit :=
  (s.finalCallerMap.get f).forM fun p =>
    let e := s.callPaths p
    exitIf (p ∉ s.finalCalleeMap.get e.caller) ("Function " ++ e.caller ++ " is called by " ++
      e.callee ++ " but the call path can only be found in the ->caller map\n")

/-- The loop of the topological sort: it takes the first function left without callees left. Every
round takes one function, so `n` counts those left. -/
def sortFunctions (s : InstrumentIRPass) : ℕ → List String → (String → ℕ) → List String →
    Except Exit (List String)
  | 0, _, _, order => .ok order
  | n + 1, left, count, order =>
    if left = [] then .ok order
    else
      let eliminate := (left.find? fun f => count f = 0).getD ""
      if eliminate = "" then .error ⟨-1, "ERROR: Cannot run t-sort\n"⟩
      else
        let left := left.erase eliminate
        let callsTo := fun f =>
          (s.finalCalleeMap.get f).countP fun p => (s.callPaths p).callee = eliminate
        s.sortFunctions n left (fun f => if f ∈ left then count f - callsTo f else count f)
          (order ++ [eliminate])

/-- The weight a call of `callee` reserves. -/
def reservedWeight (s : InstrumentIRPass) (callee : String) : BitVec 32 :=
  if callee ∈ s.comprehensiveOutboundMap.keys ∧ s.comprehensiveOutboundMap.get callee ≠ 0 then
    s.comprehensiveOutboundMap.get callee + 1
  else 1

def setWeight (s : InstrumentIRPass) (p : ℕ) (w : BitVec 32) : InstrumentIRPass :=
  { s with callPaths := modifyAt s.callPaths p fun e => { e with edgeWeight := w } }

/-- Assign the weights of the calls in one function, from `accumulatedWeight` on. -/
def assignWeights (s : InstrumentIRPass) : List ℕ → BitVec 32 → InstrumentIRPass × BitVec 32
  | [], accumulatedWeight => (s, accumulatedWeight)
  | p :: ps, accumulatedWeight =>
    let s := s.setWeight p accumulatedWeight
    s.assignWeights ps (accumulatedWeight + s.reservedWeight (s.callPaths p).callee)

def weighFunction (s : InstrumentIRPass) (f : String) : InstrumentIRPass :=
  let r := s.assignWeights (s.finalCalleeMap.get f) 0
  { r.1 with comprehensiveOutboundMap := r.1.comprehensiveOutboundMap.insert f r.2 }

def computeEdgeWeight (s : InstrumentIRPass) : Except Exit InstrumentIRPass := do
  let functions := s.relevantAllFunctionSet
  functions.forM s.checkEnds
  functions.forM s.checkCallee
  functions.forM s.checkCaller
  let order ← s.sortFunctions functions.length functions
    (fun f => (s.finalCalleeMap.get f).length) s.topologicalOrder
  return order.foldl weighFunction { s with topologicalOrder := order }

/-- Carry the weight of a call without a mark to the calls in its callee; the call of a function
without final calls is marked instead. -/
def carryEdge (s : InstrumentIRPass) (p : ℕ) : InstrumentIRPass :=
  let e := s.callPaths p
  if e.pathType = .default then
    let children := s.finalCalleeMap.get e.callee
    if children ≠ [] then
      { s with
        callPaths := modifyAll s.callPaths children fun _ c =>
          { c with edgeWeight := c.edgeWeight + e.edgeWeight } }
    else { s with callPaths := modifyAt s.callPaths p fun e => { e with pathType := .markBranch } }
  else s

def carryFunction (s : InstrumentIRPass) (f : String) : InstrumentIRPass :=
  (s.finalCalleeMap.get f).foldl carryEdge s

/-- The first loop of `doModulePass`, which goes through the topological order backwards. -/
def carryWeights (s : InstrumentIRPass) : InstrumentIRPass :=
  s.topologicalOrder.reverse.foldl carryFunction s

/-- The steps of `run` before the code is changed. -/
def analyze (inLoop : ℕ → Bool) (kosaraju : List (String × String) → SCCResult)
    (s : InstrumentIRPass) : Except Exit InstrumentIRPass :=
  ((s.doInitialization.instrIsInaLoop inLoop kosaraju).markLoopRelevantFunctions.constructFinalCFG)
    |>.computeEdgeWeight

end InstrumentIRPass

end Semalloc
