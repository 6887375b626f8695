import Semalloc.Library.Container
import Semalloc.Library.Multigraph
import Mathlib.Data.String.Basic

/-!
# Call paths

The pass sees a program as call paths: one for every call instruction and function it may call. The
paths are objects shared by every list that names them, so the pass keeps them in a store and the
lists hold pointers.

## Main definitions

* `CallPath`: a call edge and what the pass knows about it
* `InstrumentIRPass`: the maps and sets of the pass
* `WellFormed`: the call graph the pass starts from
* `callGraph`: the call graph with given calls
-/

set_option autoImplicit false

namespace Semalloc

inductive PathType
  | default
  | markSimpleLoop
  | markSimpleInner
  | markInnerBranch
  | markInbound
  | markOutbound
  | markBranch
  deriving DecidableEq

/-- A call edge: the instruction, its function, and a function it may call. -/
structure CallPath where
  edgeWeight : BitVec 32
  callInst : ℕ
  pathType : PathType
  callee : String
  caller : String
  callsHMF : Bool
  deriving DecidableEq

/-- The constructor of the class. -/
def CallPath.new (callInst : ℕ) (callee caller : String) : CallPath :=
  ⟨0, callInst, .default, callee, caller, false⟩

/-- The heap management functions. -/
def initialHeapFunctions : List String :=
  ["malloc", "realloc", "calloc", "posix_memalign", "memalign", "_Znwm", "_Znam", "aligned_alloc"]

/-- The state of the pass. `functionMap` gives the calls of each function, `flippedFunctionMap` the
calls in each function. -/
structure InstrumentIRPass where
  callPaths : ℕ → CallPath
  functionMap : KeyMap String (List ℕ)
  flippedFunctionMap : KeyMap String (List ℕ) := .empty []
  functionMarkSet : List String := []
  relevantLoopFunctionSet : List String := []
  relevantAllFunctionSet : List String := []
  functionCycles : List (List String) := []
  intraFunctionMap : KeyMap String (List String) := .empty []
  flippedIntraFunctionMap : KeyMap String String := .empty ""
  comprehensiveOutboundMap : KeyMap String (BitVec 32) := .empty 0
  finalCalleeMap : KeyMap String (List ℕ) := .empty []
  finalCallerMap : KeyMap String (List ℕ) := .empty []
  topologicalOrder : List String := []

/-- The name of the node for the `n`-th cycle. -/
def intraName (n : ℕ) : String := "CSSINTRA_" ++ toString n

theorem intraName_injective : Function.Injective intraName := by
  intro n k h
  have hrepr : Nat.repr n = Nat.repr k := (String.append_right_inj _).mp h
  have hdigits : Nat.toDigits 10 n = Nat.toDigits 10 k := by
    rw [← Nat.toList_repr, ← Nat.toList_repr, hrepr]
  rw [← Nat.ofDigitChars_toDigits (b := 10) (n := n) (by decide) (by decide), hdigits,
    Nat.ofDigitChars_toDigits (by decide) (by decide)]

theorem nine_le_length_intraName (n : ℕ) : 9 ≤ (intraName n).length := by
  rw [intraName, String.length_append]
  have hprefix : "CSSINTRA_".length = 9 := by decide
  omega

theorem intraName_ne_empty (n : ℕ) : intraName n ≠ "" := by
  intro h
  have hle := nine_le_length_intraName n
  have hempty : "".length = 0 := by decide
  rw [h] at hle
  omega

namespace InstrumentIRPass

variable {s : InstrumentIRPass}

/-- The pass over a call graph, before it starts. -/
def initial (callPaths : ℕ → CallPath) (functionMap : KeyMap String (List ℕ)) : InstrumentIRPass where
  callPaths := callPaths
  functionMap := functionMap

/-- The call graph that the pass is given: every function has an entry, its name is neither empty
nor that of a cycle, and each entry lists the calls of the function, each call path once. -/
structure WellFormed (callPaths : ℕ → CallPath) (functionMap : KeyMap String (List ℕ)) : Prop where
  keysNodup : functionMap.keys.Nodup
  nonempty : ∀ f ∈ functionMap.keys, f ≠ ""
  fresh : ∀ f ∈ functionMap.keys, ∀ n, f ≠ intraName n
  outside : functionMap.Outside []
  nodup : ∀ f, (functionMap.get f).Nodup
  callee : ∀ f, ∀ p ∈ functionMap.get f, (callPaths p).callee = f
  caller : ∀ f, ∀ p ∈ functionMap.get f, (callPaths p).caller ∈ functionMap.keys

/-- The call graph with the given calls, by instruction, caller and callee. -/
def callGraph (names : List String) (calls : List (ℕ × String × String)) : InstrumentIRPass :=
  let callPaths := fun p =>
    let c := calls.getD p (0, "", "")
    CallPath.new c.1 c.2.2 c.2.1
  initial callPaths ⟨insertKeys names [],
    fun f => (List.range calls.length).filter fun p => (callPaths p).callee = f⟩

/-- A call graph over short names is well formed. -/
theorem callGraph_wellFormed {names : List String} {calls : List (ℕ × String × String)}
    (hnames : ∀ f ∈ names, f ≠ "" ∧ f.length < 9)
    (hcalls : ∀ c ∈ calls, c.2.1 ∈ names ∧ c.2.2 ∈ names) :
    WellFormed (callGraph names calls).callPaths (callGraph names calls).functionMap := by
  have hmem : ∀ f, ∀ p ∈ (callGraph names calls).functionMap.get f,
      ((callGraph names calls).callPaths p).callee = f ∧
        ∃ c ∈ calls, (callGraph names calls).callPaths p = CallPath.new c.1 c.2.2 c.2.1 := by
    intro f p hp
    obtain ⟨hp, hcallee⟩ := List.mem_filter.mp hp
    rw [List.mem_range] at hp
    refine ⟨of_decide_eq_true hcallee, calls[p], List.getElem_mem hp, ?_⟩
    unfold callGraph initial
    dsimp only
    rw [List.getD_eq_getElem?_getD, List.getElem?_eq_getElem hp, Option.getD_some]
  have hkeys : ∀ f, f ∈ (callGraph names calls).functionMap.keys ↔ f ∈ names := by
    intro f
    refine mem_insertKeys.trans ?_
    simp
  exact {
    keysNodup := nodup_insertKeys List.nodup_nil
    nonempty := fun f hf => (hnames f ((hkeys f).mp hf)).1
    fresh := by
      rintro f hf n rfl
      have hlt := (hnames _ ((hkeys _).mp hf)).2
      have hle := nine_le_length_intraName n
      omega
    outside := by
      intro f hf
      rw [List.eq_nil_iff_forall_not_mem]
      intro p hp
      obtain ⟨rfl, c, hc, hpath⟩ := hmem f p hp
      refine hf ((hkeys _).mpr ?_)
      rw [hpath]
      exact (hcalls c hc).2
    nodup := fun f => List.nodup_range.filter _
    callee := fun f p hp => (hmem f p hp).1
    caller := by
      intro f p hp
      obtain ⟨-, c, hc, hpath⟩ := hmem f p hp
      rw [hkeys, hpath]
      exact (hcalls c hc).1 }

end InstrumentIRPass

end Semalloc
