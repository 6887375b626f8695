import Semalloc.Frontend.RecursionStack
import Mathlib.Data.List.GetD

/-!
# The recursion hash and the calling context

Before a call out of a cycle the hash of the recorded frames is stored, and after a call into a
cycle it is cleared. At a heap call the stored value is then a function of the active calls, as long
as nothing clears it that was called further up: a cycle that is entered and left below a call out
of another cycle clears the hash that was stored for that call.

## Main definitions

* `RecursiveProgram`: the calls of a program and the cycles they lie in, with the emitters that are
  called for them
* `Activity`, `Moment`: what a frame has done, and a moment of an execution with its active calls
* `Context`: what the active calls record
* `Activity.Undisturbed`, `Moment.Undisturbed`: no step disturbs the context

## Main results

* `Bounded`: the code around the calls
* `Activity.recorded`, `Moment.recorded`: what a frame and an execution keep
* `recursion_hash_of_context`: two moments with the same active calls have the same hash
-/

set_option autoImplicit false

namespace Semalloc

/-- The emitters for a call at the border of a cycle. -/
inductive Border
  | outbound
  | inbound
  deriving DecidableEq

/-- The code before the call. -/
def Border.before : Border → List Emitted
  | outbound => [.storeHash, .add .loopLayer 1]
  | inbound => []

/-- The code after it. -/
def Border.after : Border → List Emitted
  | outbound => [.sub .loopLayer 1]
  | inbound => [.clearHash]

namespace Code

variable {c : Code} {s s' : Site} {k : Border} {b n u : BasicBlock} {inst : Site → CallInst}
  {inLoop : List Site} {borders : List (Site × Border)}

/-- The emitter is called for a call. -/
def extendBorder (c : Code) : Site × Border → Code
  | (s, .outbound) => c.extendOutBoundRecursiveCall s
  | (s, .inbound) => c.extendInBoundRecursiveCall s

theorem insertBefore_nil : c.insertBefore s [] = c := by
  unfold insertBefore
  rw [List.append_nil, Function.update_eq_self]

theorem extendBorder_call (h : c.inst s = .call) :
    c.extendBorder (s, k) = (c.insertBefore s k.before).insertAfter s k.after := by
  cases k with
  | outbound =>
    have hinst : (c.insertBefore s [.storeHash, .add .loopLayer 1]).inst s = .call := h
    unfold extendBorder extendOutBoundRecursiveCall
    dsimp only
    rw [hinst]
    rfl
  | inbound =>
    unfold extendBorder extendInBoundRecursiveCall Border.before Border.after
    dsimp only
    rw [h, insertBefore_nil]

/-- Around an invoke: the code in front of it, and at the head of the normal destination when that
is a block of the function. -/
theorem extendBorder_invoke (h : c.inst s = .invoke n u) :
    (c.extendBorder (s, k)).inst = c.inst ∧
    (c.extendBorder (s, k)).before = Function.update c.before s (c.before s ++ k.before) ∧
    (c.extendBorder (s, k)).after = c.after ∧
    (c.normalDest s = .empty → (c.extendBorder (s, k)).normalDest = c.normalDest ∧
      (c.extendBorder (s, k)).head = c.head) ∧
    (c.normalDest s = .block b → (c.extendBorder (s, k)).normalDest = c.normalDest ∧
      (c.extendBorder (s, k)).head = Function.update c.head b (k.after ++ c.head b)) := by
  cases k with
  | outbound =>
    have hinst : (c.insertBefore s [.storeHash, .add .loopLayer 1]).inst s = .invoke n u := h
    unfold extendBorder extendOutBoundRecursiveCall
    dsimp only
    rw [hinst]
    unfold insertAtNormalDest
    dsimp only [insertAtUnwindDest, insertBefore, Border.before, Border.after]
    cases c.normalDest s <;> simp +contextual
  | inbound =>
    unfold extendBorder extendInBoundRecursiveCall
    dsimp only
    rw [h]
    unfold insertAtNormalDest
    dsimp only [insertAtUnwindDest, Border.before, Border.after]
    cases c.normalDest s <;> simp +contextual

/-- At the head of a block the hash is cleared for a call that returns there. -/
def ClearsHead (inst : Site → CallInst) (inLoop : List Site) (borders : List (Site × Border))
    (b : BasicBlock) : Prop :=
  ∃ s, (s, .inbound) ∈ borders ∧ s ∉ inLoop ∧ returnsTo inst b s

/-- The hash is cleared on the way back from a call. -/
def ClearsAfter (inst : Site → CallInst) (inLoop : List Site) (borders : List (Site × Border))
    (s : Site) : Prop :=
  (inst s = .call ∧ (s, .inbound) ∈ borders) ∨
    ∃ n u, inst s = .invoke n u ∧ ClearsHead inst inLoop borders n

/-- Code that stores the hash, and no frame address. -/
def StoresOnly (stores : Prop) (ops : List Emitted) : Prop :=
  (∀ op ∈ ops, op = .storeHash ∨ op = .add .loopLayer 1) ∧ (.storeHash ∈ ops ↔ stores)

/-- Code that clears the hash. -/
def ClearsOnly (clears : Prop) (ops : List Emitted) : Prop :=
  (∀ op ∈ ops, op = .clearHash ∨ op = .sub .loopLayer 1) ∧ (.clearHash ∈ ops ↔ clears)

/-- **The code around the calls**, once the emitters were called. -/
structure Bounded (inst : Site → CallInst) (inLoop : List Site) (borders : List (Site × Border))
    (c : Code) : Prop where
  sameInst : c.inst = inst
  before : ∀ s, ∃ ops,
    c.before s = (if s ∈ inLoop then [.storeFrame, .add .offset 1] else []) ++ ops ∧
      StoresOnly ((s, .outbound) ∈ borders) ops
  after : ∀ s, inst s = .call → ∃ ops,
    c.after s = ops ++ (if s ∈ inLoop then [.sub .offset 1] else []) ∧
      ClearsOnly ((s, .inbound) ∈ borders) ops
  normalDest : ∀ s n u, inst s = .invoke n u →
    c.normalDest s = if s ∈ inLoop then .empty else .block n
  head : ∀ b, ClearsOnly (ClearsHead inst inLoop borders b) (c.head b)

theorem InLoop.bounded (h : InLoop inst inLoop c) : Bounded inst inLoop [] c where
  sameInst := h.sameInst
  before s := ⟨[], by rw [h.before s, List.append_nil], by simp [StoresOnly]⟩
  after s hs := ⟨[], by rw [h.after s hs, List.nil_append], by simp [ClearsOnly]⟩
  normalDest := h.normalDest
  head b := by
    rw [h.head b]
    simp [ClearsOnly, ClearsHead]

theorem storesOnly_before (k : Border) : StoresOnly (k = .outbound) k.before := by
  cases k <;> simp [StoresOnly, Border.before]

theorem clearsOnly_after (k : Border) : ClearsOnly (k = .inbound) k.after := by
  cases k <;> simp [ClearsOnly, Border.after]

theorem StoresOnly.append {p q r : Prop} {ops ops' : List Emitted} (h : StoresOnly p ops)
    (h' : StoresOnly q ops') (hr : r ↔ p ∨ q) : StoresOnly r (ops ++ ops') := by
  refine ⟨fun op hop => ?_, ?_⟩
  · rcases List.mem_append.mp hop with hop | hop
    · exact h.1 op hop
    · exact h'.1 op hop
  · rw [List.mem_append, h.2, h'.2, hr]

theorem ClearsOnly.append {p q r : Prop} {ops ops' : List Emitted} (h : ClearsOnly p ops)
    (h' : ClearsOnly q ops') (hr : r ↔ p ∨ q) : ClearsOnly r (ops ++ ops') := by
  refine ⟨fun op hop => ?_, ?_⟩
  · rcases List.mem_append.mp hop with hop | hop
    · exact h.1 op hop
    · exact h'.1 op hop
  · rw [List.mem_append, h.2, h'.2, hr]

theorem StoresOnly.congr {p r : Prop} {ops : List Emitted} (h : StoresOnly p ops) (hr : r ↔ p) :
    StoresOnly r ops := ⟨h.1, h.2.trans hr.symm⟩

theorem ClearsOnly.congr {p r : Prop} {ops : List Emitted} (h : ClearsOnly p ops) (hr : r ↔ p) :
    ClearsOnly r ops := ⟨h.1, h.2.trans hr.symm⟩

/-- One more call at a border. -/
theorem Bounded.extend (h : Bounded inst inLoop borders c) (s : Site) (k : Border) :
    Bounded inst inLoop (borders ++ [(s, k)]) (c.extendBorder (s, k)) := by
  have hinst : c.inst s = inst s := by rw [h.sameInst]
  have hmem : ∀ a j, (a, j) ∈ borders ++ [(s, k)] ↔ (a, j) ∈ borders ∨ (a = s ∧ k = j) :=
    fun a j => by simp [eq_comm]
  -- the code before the calls, for either kind of call
  have hbefore : ∀ a, ∃ ops, Function.update c.before s (c.before s ++ k.before) a =
      (if a ∈ inLoop then [.storeFrame, .add .offset 1] else []) ++ ops ∧
        StoresOnly ((a, .outbound) ∈ borders ++ [(s, k)]) ops := by
    intro a
    obtain ⟨ops, hops, hstores⟩ := h.before a
    by_cases ha : a = s
    · subst ha
      refine ⟨ops ++ k.before, ?_, hstores.append (storesOnly_before k) ?_⟩
      · rw [Function.update_self, hops, List.append_assoc]
      · simp [hmem]
    · refine ⟨ops, ?_, hstores.congr ?_⟩
      · rw [Function.update_of_ne ha, hops]
      · simp [hmem, ha]
  cases hkind : inst s with
  | call =>
    rw [extendBorder_call (hinst.trans hkind)]
    refine ⟨h.sameInst, hbefore, fun a ha => ?_, h.normalDest, fun b => (h.head b).congr ?_⟩
    · obtain ⟨ops, hops, hclears⟩ := h.after a ha
      change ∃ ops, Function.update c.after s (k.after ++ c.after s) a = _ ∧ _
      by_cases has : a = s
      · subst has
        refine ⟨k.after ++ ops, ?_, (clearsOnly_after k).append hclears ?_⟩
        · rw [Function.update_self, hops, List.append_assoc]
        · rw [hmem]
          simp [or_comm]
      · refine ⟨ops, ?_, hclears.congr ?_⟩
        · rw [Function.update_of_ne has, hops]
        · simp [hmem, has]
    · -- a plain call returns to no block
      refine exists_congr fun a => ?_
      by_cases ha : a = s
      · subst ha
        simp [returnsTo, hkind]
      · simp [hmem, ha]
  | invoke n u =>
    obtain ⟨hinst', hbefore', hafter', hempty, hblock⟩ :=
      extendBorder_invoke (k := k) (b := n) (hinst.trans hkind)
    have hdest : (c.extendBorder (s, k)).normalDest = c.normalDest := by
      by_cases hs : s ∈ inLoop
      · exact (hempty ((h.normalDest s n u hkind).trans (if_pos hs))).1
      · exact (hblock ((h.normalDest s n u hkind).trans (if_neg hs))).1
    refine ⟨hinst'.trans h.sameInst, ?_, fun a ha => ?_, ?_, fun b => ?_⟩
    · rw [hbefore']
      exact hbefore
    · have has : a ≠ s := by
        rintro rfl
        rw [hkind] at ha
        cases ha
      obtain ⟨ops, hops, hclears⟩ := h.after a ha
      refine ⟨ops, ?_, hclears.congr ?_⟩
      · rw [hafter', hops]
      · simp [hmem, has]
    · rw [hdest]
      exact h.normalDest
    · have hreturns : ∀ b, returnsTo inst b s = true ↔ n = b := fun b => by simp [returnsTo, hkind]
      by_cases hs : s ∈ inLoop
      · rw [(hempty ((h.normalDest s n u hkind).trans (if_pos hs))).2]
        refine (h.head b).congr (exists_congr fun a => ?_)
        by_cases ha : a = s
        · subst ha
          simp [hs]
        · simp [hmem, ha]
      · rw [(hblock ((h.normalDest s n u hkind).trans (if_neg hs))).2]
        by_cases hb : b = n
        · subst hb
          rw [Function.update_self]
          refine (clearsOnly_after k).append (h.head b) ?_
          unfold ClearsHead
          simp only [hmem, or_and_right, exists_or]
          rw [or_comm]
          refine or_congr_left ?_
          constructor
          · rintro ⟨a, ⟨rfl, hk⟩, -, -⟩
            exact hk
          · intro hk
            exact ⟨s, ⟨rfl, hk⟩, hs, (hreturns b).mpr rfl⟩
        · rw [Function.update_of_ne hb]
          refine (h.head b).congr (exists_congr fun a => ?_)
          by_cases ha : a = s
          · subst ha
            simp [hreturns, Ne.symm hb]
          · simp [hmem, ha]

theorem bounded_fold (inst : Site → CallInst) (hinLoop : inLoop.Nodup)
    (borders : List (Site × Border)) :
    Bounded inst inLoop borders
      (borders.foldl extendBorder (inLoop.foldl extendInLoopRecursiveCall (original inst))) := by
  induction borders using List.reverseRecOn with
  | nil => exact (inLoop_fold inst hinLoop).bounded
  | append_singleton borders e ih =>
    rw [List.foldl_append]
    exact ih.extend e.1 e.2

/-! ## What the code does -/

variable {stack frame : Word} {g : Globals} {ops : List Emitted} {frames : List Word}

/-- The offset, and the slots below it, for the frames that are recorded. -/
def Recorded (stack : Word) (frames : List Word) (g : Globals) : Prop :=
  g.counters .offset = BitVec.ofNat 64 frames.length ∧
    ∀ i < frames.length, g.memory (stack + 8 * BitVec.ofNat 64 i) = frames.getD i 0

/-- Code that keeps the memory and the offset. -/
theorem runAll_border (hops : ∀ op ∈ ops, (op = .storeHash ∨ op = .add .loopLayer 1) ∨
      (op = .clearHash ∨ op = .sub .loopLayer 1)) :
    (Emitted.runAll stack frame ops g).memory = g.memory ∧
      (Emitted.runAll stack frame ops g).counters .offset = g.counters .offset := by
  induction ops generalizing g with
  | nil => exact ⟨rfl, rfl⟩
  | cons op ops ih =>
    obtain ⟨hmemory, hoffset⟩ := ih (g := Emitted.run stack frame g op)
      fun op hop => hops op (List.mem_cons_of_mem _ hop)
    have hop : (Emitted.run stack frame g op).memory = g.memory ∧
        (Emitted.run stack frame g op).counters .offset = g.counters .offset := by
      rcases hops op List.mem_cons_self with (rfl | rfl) | rfl | rfl <;> simp [Emitted.run]
    exact ⟨hmemory.trans hop.1, hoffset.trans hop.2⟩

theorem Recorded.border (h : Recorded stack frames g) (hops : ∀ op ∈ ops,
      (op = .storeHash ∨ op = .add .loopLayer 1) ∨ (op = .clearHash ∨ op = .sub .loopLayer 1)) :
    Recorded stack frames (Emitted.runAll stack frame ops g) := by
  obtain ⟨hmemory, hoffset⟩ : (Emitted.runAll stack frame ops g).memory = g.memory ∧ _ :=
    runAll_border hops
  unfold Recorded
  rw [hmemory, hoffset]
  exact h

/-- What the code before a call out of a cycle stores. -/
def storedHash (stack : Word) (g : Globals) : Word :=
  cssHashFunction (fun i => g.memory (g.memory stack + 8 * BitVec.ofNat 64 i)) (g.counters .offset)

theorem StoresOnly.hash {p : Prop} (h : StoresOnly p ops) :
    (p → (Emitted.runAll stack frame ops g).hash = storedHash stack g) ∧
      (¬ p → (Emitted.runAll stack frame ops g).hash = g.hash) := by
  obtain ⟨hops, hp⟩ := h
  rw [← hp]
  clear hp
  induction ops generalizing g with
  | nil => exact ⟨fun hmem => absurd hmem List.not_mem_nil, fun _ => rfl⟩
  | cons op ops ih =>
    obtain ⟨hstore, hkeep⟩ := ih (g := Emitted.run stack frame g op)
      fun op hop => hops op (List.mem_cons_of_mem _ hop)
    change (_ → (Emitted.runAll stack frame ops (Emitted.run stack frame g op)).hash = _) ∧
      (_ → (Emitted.runAll stack frame ops (Emitted.run stack frame g op)).hash = _)
    rcases hops op List.mem_cons_self with rfl | rfl
    · refine ⟨fun _ => ?_, fun hnot => absurd List.mem_cons_self hnot⟩
      by_cases hmem : Emitted.storeHash ∈ ops
      · exact hstore hmem
      · exact hkeep hmem
    · simp only [List.mem_cons, reduceCtorEq, false_or]
      exact ⟨fun hmem => hstore hmem, fun hnot => hkeep hnot⟩

theorem ClearsOnly.hash {p : Prop} (h : ClearsOnly p ops) :
    (p → (Emitted.runAll stack frame ops g).hash = 0) ∧
      (¬ p → (Emitted.runAll stack frame ops g).hash = g.hash) := by
  obtain ⟨hops, hp⟩ := h
  rw [← hp]
  clear hp
  induction ops generalizing g with
  | nil => exact ⟨fun hmem => absurd hmem List.not_mem_nil, fun _ => rfl⟩
  | cons op ops ih =>
    obtain ⟨hclear, hkeep⟩ := ih (g := Emitted.run stack frame g op)
      fun op hop => hops op (List.mem_cons_of_mem _ hop)
    change (_ → (Emitted.runAll stack frame ops (Emitted.run stack frame g op)).hash = _) ∧
      (_ → (Emitted.runAll stack frame ops (Emitted.run stack frame g op)).hash = _)
    rcases hops op List.mem_cons_self with rfl | rfl
    · refine ⟨fun _ => ?_, fun hnot => absurd List.mem_cons_self hnot⟩
      by_cases hmem : Emitted.clearHash ∈ ops
      · exact hclear hmem
      · exact hkeep hmem
    · simp only [List.mem_cons, reduceCtorEq, false_or]
      exact ⟨fun hmem => hclear hmem, fun hnot => hkeep hnot⟩

/-- The hash of frames, when the words at the first of them look like `words`. -/
def hashOf (words : List Word → ℕ → Word) (frames : List Word) : Word :=
  cssHashFunction (words frames) (BitVec.ofNat 64 frames.length)

/-- The words at the first recorded frame look like `words` in the bits that are hashed. -/
def LooksLike (words : List Word → ℕ → Word) (frames : List Word) (g : Globals) : Prop :=
  ∀ i < min frames.length 7, frameBits (g.memory (frames.getD 0 0 + 8 * BitVec.ofNat 64 i)) =
    frameBits (words frames i)

theorem Recorded.storedHash {words : List Word → ℕ → Word} (h : Recorded stack frames g)
    (hlength : frames.length ≤ cssRecursiveStackBound) (hlooks : LooksLike words frames g) :
    storedHash stack g = hashOf words frames := by
  have hbound : frames.length ≤ 1000 := hlength
  obtain ⟨hoffset, hslots⟩ := h
  unfold Code.storedHash hashOf
  rw [hoffset, cssHashFunction_eq_iff, BitVec.toNat_ofNat, Nat.mod_eq_of_lt (by omega)]
  intro i hi
  have hfirst : g.memory stack = frames.getD 0 0 := by
    have hzero := hslots 0 (by omega)
    simpa using hzero
  rw [hfirst]
  exact hlooks i hi

end Code

/-! ## Executions -/

/-- A program whose cycles are instrumented: the calls by the functions that make them and that they
may reach, the cycle that a function lies in, and the calls for which the emitters are called. Calls
out of a cycle are instrumented as such, and so are calls into one from outside. -/
structure RecursiveProgram where
  inst : Site → CallInst
  caller : Site → ℕ
  callees : Site → List ℕ
  scc : ℕ → Option ℕ
  inLoop : List Site
  borders : List (Site × Border)
  nodup : inLoop.Nodup
  leaving : ∀ s, ∀ f ∈ callees s, scc (caller s) ≠ none → scc f = none → (s, .outbound) ∈ borders
  entering : ∀ s, ∀ f ∈ callees s, scc (caller s) = none → scc f ≠ none → (s, .inbound) ∈ borders
  inside : ∀ s, (s, .outbound) ∈ borders → scc (caller s) ≠ none

/-- What a frame does: it enters blocks, writes to memory, and makes calls that return, each with
the function that is reached and what it does. -/
inductive Activity
  | done
  | enter (b : BasicBlock) (rest : Activity)
  | write (address value : Word) (rest : Activity)
  | call (s : Site) (frame : Word) (f : ℕ) (callee rest : Activity)

/-- A moment of an execution: what the frame has done before, and the call that is active, if there
is one, with the moment in its callee. -/
inductive Moment
  | here (before : Activity)
  | within (before : Activity) (s : Site) (frame : Word) (f : ℕ) (callee : Moment)

/-- What the active calls record: the frames, and the hash that belongs to them. -/
structure Context where
  frames : List Word
  hash : Word

namespace RecursiveProgram

/-- The program with the code of the emitters. -/
def code (p : RecursiveProgram) : Code :=
  p.borders.foldl Code.extendBorder
    (p.inLoop.foldl Code.extendInLoopRecursiveCall (Code.original p.inst))

theorem bounded (p : RecursiveProgram) : Code.Bounded p.inst p.inLoop p.borders p.code :=
  Code.bounded_fold p.inst p.nodup p.borders

/-- The hash is cleared on the way back from a call. -/
def ClearsAfter (p : RecursiveProgram) (s : Site) : Prop :=
  Code.ClearsAfter p.inst p.inLoop p.borders s

/-- The hash is cleared at the head of a block. -/
def ClearsHead (p : RecursiveProgram) (b : BasicBlock) : Prop :=
  Code.ClearsHead p.inst p.inLoop p.borders b

/-- A call records its frame if it is a branching call inside a cycle, and sets the hash if it leaves
a cycle. -/
def extend (p : RecursiveProgram) (words : List Word → ℕ → Word) (x : Context) (e : Site × Word) :
    Context :=
  let frames := if e.1 ∈ p.inLoop then x.frames ++ [e.2] else x.frames
  ⟨frames, if (e.1, .outbound) ∈ p.borders then Code.hashOf words frames else x.hash⟩

/-- The context of a stack of active calls. -/
def context (p : RecursiveProgram) (words : List Word → ℕ → Word) (active : List (Site × Word)) :
    Context :=
  active.foldl (p.extend words) ⟨[], 0⟩

end RecursiveProgram

namespace Activity

/-- The frame of a function makes its calls. -/
def IsOf (p : RecursiveProgram) : ℕ → Activity → Prop
  | _, done => True
  | f, enter _ rest => IsOf p f rest
  | f, write _ _ rest => IsOf p f rest
  | f, call s _ f' callee rest =>
    p.caller s = f ∧ f' ∈ p.callees s ∧ IsOf p f' callee ∧ IsOf p f rest

/-- What runs: the inserted code, and the writes of the program. -/
def execute (stack : Word) (c : Code) : Activity → Globals → Globals
  | done, g => g
  | enter b rest, g => execute stack c rest (Emitted.runAll stack 0 (c.head b) g)
  | write address value rest, g =>
    execute stack c rest { g with memory := Function.update g.memory address value }
  | call s frame _ callee rest, g =>
    execute stack c rest (Emitted.runAll stack frame (c.resume s .returned)
      (execute stack c callee (Emitted.runAll stack frame (c.before s) g)))

end Activity

namespace Moment

/-- The stack of active calls, with the frame addresses of their callers. -/
def active : Moment → List (Site × Word)
  | here _ => []
  | within _ s frame _ callee => (s, frame) :: callee.active

/-- The function that was called last, for the function of the first frame. -/
def reached : Moment → ℕ → ℕ
  | here _, f => f
  | within _ _ _ f' callee, _ => callee.reached f'

/-- The frames make their calls. -/
def IsOf (p : RecursiveProgram) : ℕ → Moment → Prop
  | f, here before => before.IsOf p f
  | f, within before s _ f' callee =>
    before.IsOf p f ∧ p.caller s = f ∧ f' ∈ p.callees s ∧ callee.IsOf p f'

/-- What has run. -/
def execute (stack : Word) (c : Code) : Moment → Globals → Globals
  | here before, g => before.execute stack c g
  | within before s frame _ callee, g =>
    execute stack c callee (Emitted.runAll stack frame (c.before s) (before.execute stack c g))

end Moment

/-! ## Undisturbed contexts -/

section Undisturbed

variable (p : RecursiveProgram) (words : List Word → ℕ → Word) (stack : Word)

/-- A call that is made: there is a slot for its frame, and a call out of a cycle finds the words at
the first frame as they are. -/
def Recordable (x : Context) (s : Site) (frame : Word) (g : Globals) : Prop :=
  (s ∈ p.inLoop → x.frames.length < cssRecursiveStackBound) ∧
    ((s, .outbound) ∈ p.borders → Code.LooksLike words (p.extend words x (s, frame)).frames
      (Emitted.runAll stack frame (p.code.before s) g))

/-- No step disturbs the context: the program does not write to the stack of frames, the calls are
recordable, branching calls inside a cycle that return are no invokes, and a frame outside the cycles
that has a hash above it neither returns from a call nor enters a block where the hash is cleared. -/
def Activity.Undisturbed : ℕ → Context → Activity → Globals → Prop
  | _, _, .done, _ => True
  | f, x, .enter b rest, g =>
    (p.scc f = none → p.ClearsHead b → x.hash = 0) ∧
      Undisturbed f x rest (Emitted.runAll stack 0 (p.code.head b) g)
  | f, x, .write address value rest, g =>
    (∀ i < cssRecursiveStackBound, address ≠ stack + 8 * BitVec.ofNat 64 i) ∧
      Undisturbed f x rest { g with memory := Function.update g.memory address value }
  | f, x, .call s frame f' callee rest, g =>
    let g₁ := Emitted.runAll stack frame (p.code.before s) g
    Recordable p words stack x s frame g ∧
      (s ∈ p.inLoop → p.inst s = .call) ∧
      (p.scc f = none → p.ClearsAfter s → x.hash = 0) ∧
      Undisturbed f' (p.extend words x (s, frame)) callee g₁ ∧
      Undisturbed f x rest (Emitted.runAll stack frame (p.code.resume s .returned)
        (callee.execute stack p.code g₁))

def Moment.Undisturbed : ℕ → Context → Moment → Globals → Prop
  | f, x, .here before, g => before.Undisturbed p words stack f x g
  | f, x, .within before s frame f' callee, g =>
    let g₁ := before.execute stack p.code g
    before.Undisturbed p words stack f x g ∧
      Recordable p words stack x s frame g₁ ∧
      Undisturbed f' (p.extend words x (s, frame)) callee
        (Emitted.runAll stack frame (p.code.before s) g₁)

end Undisturbed

/-! ## Steps -/

variable {p : RecursiveProgram} {words : List Word → ℕ → Word} {stack : Word} {x : Context}
  {s : Site} {frame : Word} {f f' : ℕ} {g : Globals}

theorem Code.Recorded.push {frames : List Word} (h : Code.Recorded stack frames g)
    (hslot : frames.length < cssRecursiveStackBound) :
    Code.Recorded stack (frames ++ [frame])
      (Emitted.runAll stack frame [.storeFrame, .add .offset 1] g) := by
  have hbound : frames.length < 1000 := hslot
  obtain ⟨hoffset, hslots⟩ := h
  unfold Code.Recorded
  rw [List.length_append, List.length_singleton]
  simp only [Emitted.runAll, Emitted.run, List.foldl_cons, List.foldl_nil, Function.update_self,
    hoffset]
  refine ⟨(Code.ofNat_succ _).symm, fun i hi => ?_⟩
  by_cases hlast : i = frames.length
  · subst hlast
    rw [Function.update_self]
    simp
  · have hne : stack + 8 * BitVec.ofNat 64 i ≠ stack + 8 * BitVec.ofNat 64 frames.length :=
      fun heq => hlast (Code.slot_injective (by omega) (by omega) heq)
    rw [Function.update_of_ne hne, hslots i (by omega), List.getD_append _ _ _ _ (by omega)]

/-- The offset goes back to a shorter list. -/
theorem Code.Recorded.pop {frames : List Word} (h : Code.Recorded stack (frames ++ [frame]) g) :
    Code.Recorded stack frames (Emitted.runAll stack frame [.sub .offset 1] g) := by
  obtain ⟨hoffset, hslots⟩ := h
  rw [List.length_append, List.length_singleton, Code.ofNat_succ] at hoffset
  unfold Code.Recorded
  simp only [Emitted.runAll, Emitted.run, List.foldl_cons, List.foldl_nil, Function.update_self,
    hoffset]
  refine ⟨add_sub_cancel_right _ _, fun i hi => ?_⟩
  rw [hslots i (by simp; omega), List.getD_append _ _ _ _ hi]

theorem extend_frames : (p.extend words x (s, frame)).frames =
    if s ∈ p.inLoop then x.frames ++ [frame] else x.frames := rfl

/-- **Before a call** the context of its callee is recorded. -/
theorem Recordable.before (h : Recordable p words stack x s frame g)
    (hrecorded : Code.Recorded stack x.frames g)
    (hlength : x.frames.length ≤ cssRecursiveStackBound) :
    Code.Recorded stack (p.extend words x (s, frame)).frames
        (Emitted.runAll stack frame (p.code.before s) g) ∧
      (p.extend words x (s, frame)).frames.length ≤ cssRecursiveStackBound ∧
      ((s, .outbound) ∈ p.borders →
        (Emitted.runAll stack frame (p.code.before s) g).hash = (p.extend words x (s, frame)).hash) ∧
      ((s, .outbound) ∉ p.borders →
        (Emitted.runAll stack frame (p.code.before s) g).hash = g.hash ∧
          (p.extend words x (s, frame)).hash = x.hash) := by
  obtain ⟨hslot, hlooks⟩ := h
  obtain ⟨ops, hops, hstores⟩ := p.bounded.before s
  -- the frame
  have hframe : Code.Recorded stack (p.extend words x (s, frame)).frames
      (Emitted.runAll stack frame (if s ∈ p.inLoop then [.storeFrame, .add .offset 1] else []) g) ∧
        (p.extend words x (s, frame)).frames.length ≤ cssRecursiveStackBound ∧
        (Emitted.runAll stack frame (if s ∈ p.inLoop then [.storeFrame, .add .offset 1] else [])
          g).hash = g.hash := by
    rw [extend_frames]
    by_cases hs : s ∈ p.inLoop
    · rw [if_pos hs, if_pos hs]
      refine ⟨hrecorded.push (hslot hs), ?_, rfl⟩
      rw [List.length_append, List.length_singleton]
      exact hslot hs
    · rw [if_neg hs, if_neg hs]
      exact ⟨hrecorded, hlength, rfl⟩
  rw [hops, Emitted.runAll_append] at hlooks ⊢
  generalize Emitted.runAll stack frame (if s ∈ p.inLoop then [.storeFrame, .add .offset 1] else [])
    g = g₀ at hframe hlooks ⊢
  obtain ⟨hrecorded₀, hlength₀, hhash₀⟩ := hframe
  obtain ⟨hmemory, hoffset⟩ : (Emitted.runAll stack frame ops g₀).memory = g₀.memory ∧ _ :=
    Code.runAll_border fun op hop => .inl (hstores.1 op hop)
  obtain ⟨hstore, hkeep⟩ :
      ((s, .outbound) ∈ p.borders →
        (Emitted.runAll stack frame ops g₀).hash = Code.storedHash stack g₀) ∧ _ := hstores.hash
  refine ⟨hrecorded₀.border fun op hop => .inl (hstores.1 op hop), hlength₀, fun hout => ?_,
    fun hout => ⟨(hkeep hout).trans hhash₀, ?_⟩⟩
  · have hlooks₀ : Code.LooksLike words (p.extend words x (s, frame)).frames g₀ := by
      have hlooksOut := hlooks hout
      unfold Code.LooksLike at hlooksOut ⊢
      rwa [hmemory] at hlooksOut
    rw [hstore hout, hrecorded₀.storedHash hlength₀ hlooks₀]
    exact (if_pos hout).symm
  · exact if_neg hout

/-- **After a call** the frames of the caller are recorded again, and the hash is cleared or stays. -/
theorem resume_recorded (hplain : s ∈ p.inLoop → p.inst s = .call)
    (hrecorded : Code.Recorded stack (p.extend words x (s, frame)).frames g) :
    Code.Recorded stack x.frames (Emitted.runAll stack frame (p.code.resume s .returned) g) ∧
      (p.ClearsAfter s → (Emitted.runAll stack frame (p.code.resume s .returned) g).hash = 0) ∧
      (¬ p.ClearsAfter s →
        (Emitted.runAll stack frame (p.code.resume s .returned) g).hash = g.hash) := by
  have hb := p.bounded
  unfold Code.resume RecursiveProgram.ClearsAfter Code.ClearsAfter
  rw [hb.sameInst]
  cases hkind : p.inst s with
  | call =>
    obtain ⟨ops, hops, hclears⟩ := hb.after s hkind
    dsimp only
    rw [hops, Emitted.runAll_append]
    have hhash : ∀ g', (Emitted.runAll stack frame
        (if s ∈ p.inLoop then [.sub .offset 1] else []) g').hash = g'.hash := by
      intro g'
      by_cases hs : s ∈ p.inLoop
      · rw [if_pos hs]
        rfl
      · rw [if_neg hs]
        rfl
    obtain ⟨hclear, hkeep⟩ : (_ → (Emitted.runAll stack frame ops g).hash = 0) ∧ _ := hclears.hash
    refine ⟨?_, ?_, ?_⟩
    · have hafter : Code.Recorded stack (p.extend words x (s, frame)).frames
          (Emitted.runAll stack frame ops g) :=
        hrecorded.border fun op hop => .inr (hclears.1 op hop)
      rw [extend_frames] at hafter
      by_cases hs : s ∈ p.inLoop
      · rw [if_pos hs] at hafter ⊢
        exact hafter.pop
      · rw [if_neg hs] at hafter ⊢
        exact hafter
    · rw [hhash]
      simpa using hclear
    · rw [hhash]
      simpa using hkeep
  | invoke n u =>
    have hs : s ∉ p.inLoop := fun hs => by
      rw [hplain hs] at hkind
      cases hkind
    dsimp only
    rw [hb.normalDest s n u hkind, if_neg hs]
    have hhead := hb.head n
    obtain ⟨hclear, hkeep⟩ : (_ → (Emitted.runAll stack frame (p.code.head n) g).hash = 0) ∧ _ :=
      hhead.hash
    rw [extend_frames, if_neg hs] at hrecorded
    change Code.Recorded stack x.frames (Emitted.runAll stack frame (p.code.head n) g) ∧
      (_ → (Emitted.runAll stack frame (p.code.head n) g).hash = 0) ∧
      (_ → (Emitted.runAll stack frame (p.code.head n) g).hash = g.hash)
    refine ⟨hrecorded.border fun op hop => .inr (hhead.1 op hop), ?_, ?_⟩
    · simpa using hclear
    · simpa using hkeep

/-! ## Runs -/

/-- What a frame keeps for its context: the recorded frames, and outside the cycles the hash. -/
def HashKept (p : RecursiveProgram) (stack : Word) (f : ℕ) (x : Context) (g : Globals) : Prop :=
  Code.Recorded stack x.frames g ∧ (p.scc f = none → g.hash = x.hash)

/-- **A call**: what the caller keeps for its context, the callee keeps for its own. -/
theorem HashKept.call (h : HashKept p stack f x g) (hlength : x.frames.length ≤ cssRecursiveStackBound)
    (hcaller : p.caller s = f) (hcallee : f' ∈ p.callees s)
    (hmade : Recordable p words stack x s frame g) :
    HashKept p stack f' (p.extend words x (s, frame))
        (Emitted.runAll stack frame (p.code.before s) g) ∧
      (p.extend words x (s, frame)).frames.length ≤ cssRecursiveStackBound := by
  obtain ⟨hrecorded, hbound, hout, hnot⟩ := hmade.before h.1 hlength
  refine ⟨⟨hrecorded, fun houtside => ?_⟩, hbound⟩
  by_cases hs : (s, .outbound) ∈ p.borders
  · exact hout hs
  · -- a call that is not instrumented as leaving a cycle comes from outside
    obtain ⟨hsame, hcontext⟩ := hnot hs
    have hfrom : p.scc f = none := by
      by_contra hin
      subst hcaller
      exact hs (p.leaving s f' hcallee hin houtside)
    rw [hsame, hcontext, h.2 hfrom]

/-- **The way back**: what the callee keeps for its context, the caller keeps for its own. -/
theorem HashKept.resume (h : HashKept p stack f' (p.extend words x (s, frame)) g)
    (hcaller : p.caller s = f) (hcallee : f' ∈ p.callees s)
    (hplain : s ∈ p.inLoop → p.inst s = .call)
    (hclears : p.scc f = none → p.ClearsAfter s → x.hash = 0) :
    HashKept p stack f x (Emitted.runAll stack frame (p.code.resume s .returned) g) := by
  obtain ⟨hrecorded, hclear, hkeep⟩ := resume_recorded hplain h.1
  refine ⟨hrecorded, fun houtside => ?_⟩
  by_cases hs : p.ClearsAfter s
  · rw [hclear hs, hclears houtside hs]
  · rw [hkeep hs]
    subst hcaller
    -- neither into a cycle nor out of one
    have hout : (s, .outbound) ∉ p.borders := fun hout => p.inside s hout houtside
    have hto : p.scc f' = none := by
      by_contra hin
      have hinbound := p.entering s f' hcallee houtside hin
      refine hs ?_
      cases hkind : p.inst s with
      | call => exact .inl ⟨hkind, hinbound⟩
      | invoke n u =>
        refine .inr ⟨n, u, hkind, s, hinbound, fun hloop => ?_, by simp [Code.returnsTo, hkind]⟩
        rw [hplain hloop] at hkind
        cases hkind
    exact (h.2 hto).trans (if_neg hout)

/-- **What a frame has done** keeps its context. -/
theorem Activity.recorded {a : Activity} (hof : a.IsOf p f)
    (ha : a.Undisturbed p words stack f x g) (h : HashKept p stack f x g)
    (hlength : x.frames.length ≤ cssRecursiveStackBound) :
    HashKept p stack f x (a.execute stack p.code g) := by
  induction a generalizing f x g with
  | done => exact h
  | enter b rest ih =>
    obtain ⟨hclears, hrest⟩ := ha
    refine ih hof hrest ⟨?_, fun houtside => ?_⟩ hlength
    · exact h.1.border fun op hop => .inr ((p.bounded.head b).1 op hop)
    · obtain ⟨hclear, hkeep⟩ : (_ → (Emitted.runAll stack 0 (p.code.head b) g).hash = 0) ∧ _ :=
        (p.bounded.head b).hash
      by_cases hb : p.ClearsHead b
      · rw [hclear hb, hclears houtside hb]
      · rw [hkeep hb, h.2 houtside]
  | write address value rest ih =>
    obtain ⟨haddress, hrest⟩ := ha
    refine ih hof hrest ⟨⟨h.1.1, fun i hi => ?_⟩, h.2⟩ hlength
    -- no slot is written
    exact (Function.update_of_ne (haddress i (hi.trans_le hlength)).symm _ _).trans (h.1.2 i hi)
  | call s frame f' callee rest ihCallee ihRest =>
    obtain ⟨hcaller, hcallee, hofCallee, hofRest⟩ := hof
    obtain ⟨hmade, hplain, hclears, hcalleeUndisturbed, hrest⟩ := ha
    obtain ⟨hkeeps, hbound⟩ := h.call hlength hcaller hcallee hmade
    have hreturned := ihCallee hofCallee hcalleeUndisturbed hkeeps hbound
    exact ihRest hofRest hrest (hreturned.resume hcaller hcallee hplain hclears) hlength

/-- **A moment** keeps the context of its active calls. -/
theorem Moment.recorded {m : Moment} (hof : m.IsOf p f) (hm : m.Undisturbed p words stack f x g)
    (h : HashKept p stack f x g) (hlength : x.frames.length ≤ cssRecursiveStackBound) :
    HashKept p stack (m.reached f) (m.active.foldl (p.extend words) x)
      (m.execute stack p.code g) := by
  induction m generalizing f x g with
  | here before => exact Activity.recorded hof hm h hlength
  | within before s frame f' callee ih =>
    obtain ⟨hofBefore, hcaller, hcallee, hofCallee⟩ := hof
    obtain ⟨hbefore, hmade, hcalleeUndisturbed⟩ := hm
    have hcalling := Activity.recorded hofBefore hbefore h hlength
    obtain ⟨hkeeps, hbound⟩ := hcalling.call hlength hcaller hcallee hmade
    exact ih hofCallee hcalleeUndisturbed hkeeps hbound

/-- Nothing is recorded yet, and no hash is stored. -/
def Unrecorded (g : Globals) : Prop := g.counters .offset = 0 ∧ g.hash = 0

theorem Unrecorded.hashKept (h : Unrecorded g) : HashKept p stack f ⟨[], 0⟩ g :=
  ⟨⟨h.1, fun i hi => absurd hi (Nat.not_lt_zero i)⟩, fun _ => h.2⟩

/-- **The hash at a moment outside the cycles** is the one of its active calls. -/
theorem Moment.hash_eq {m : Moment} (hof : m.IsOf p f)
    (hm : m.Undisturbed p words stack f ⟨[], 0⟩ g) (hg : Unrecorded g)
    (hreached : p.scc (m.reached f) = none) :
    (m.execute stack p.code g).hash = (p.context words m.active).hash :=
  (Moment.recorded hof hm hg.hashKept (Nat.zero_le _)).2 hreached

/-- **The recursion hash is a function of the calling context.** At two moments of two executions in
which the same function outside the cycles is reached with the same active calls and the same frame
addresses, the hash is the same, whatever was called before, when no step disturbed the context. -/
theorem recursion_hash_of_context (p : RecursiveProgram) {words : List Word → ℕ → Word}
    {stack stack' : Word} {f f' : ℕ} {g g' : Globals} {m m' : Moment} (hof : m.IsOf p f)
    (hof' : m'.IsOf p f') (hm : m.Undisturbed p words stack f ⟨[], 0⟩ g)
    (hm' : m'.Undisturbed p words stack' f' ⟨[], 0⟩ g') (hg : Unrecorded g) (hg' : Unrecorded g')
    (hreached : p.scc (m.reached f) = none) (hsame : m'.reached f' = m.reached f)
    (hactive : m'.active = m.active) :
    (m'.execute stack' p.code g').hash = (m.execute stack p.code g).hash := by
  rw [Moment.hash_eq hof hm hg hreached, Moment.hash_eq hof' hm' hg' (hsame ▸ hreached), hactive]

/-- `main` (function `0`) enters the cycle of function `1`, which calls itself and leaves for function
`2`; this one calls into the cycle of function `3`, and calls the heap function `4`. -/
def nestedCycles : RecursiveProgram where
  inst _ := .call
  caller s := [0, 1, 1, 2, 2, 3].getD s 0
  callees s := [[1], [1], [2], [3], [4], [3]].getD s []
  scc f := [none, some 0, none, some 1].getD f none
  inLoop := [1]
  borders := [(0, .inbound), (2, .outbound), (3, .inbound)]
  nodup := by decide
  leaving s f hf := by
    rcases s with _ | _ | _ | _ | _ | _ | s <;> simp_all
  entering s f hf := by
    rcases s with _ | _ | _ | _ | _ | _ | s <;> simp_all
  inside s hs := by
    rcases s with _ | _ | _ | _ | _ | _ | s <;> simp_all

/-- The heap function is called when `main`, the cycle of function `1` and function `2` are active,
after `main` and function `2` have done something. -/
def heapCall (first last : Activity) : Moment :=
  .within first 0 0x9000 1 (.within .done 1 0x8000 1 (.within .done 2 0x7000 2
    (.within last 4 0x6000 4 (.here .done))))

/-- A cycle was entered and left before. -/
theorem recursion_hash_of_context_earlier :
    ((heapCall (.call 0 0x9000 1 (.call 2 0x8000 2 .done .done) .done) .done).execute 0x1000
        nestedCycles.code ⟨fun _ => 0, 0, fun _ => 64⟩).hash =
      ((heapCall .done .done).execute 0x1000 nestedCycles.code ⟨fun _ => 0, 0, fun _ => 64⟩).hash := by
  have hnot : ∀ {s : Site} {q : Prop}, (s, Border.outbound) ∉ nestedCycles.borders →
      (s, Border.outbound) ∈ nestedCycles.borders → q := fun h h' => absurd h' h
  have hof : ∀ first, first.IsOf nestedCycles 0 → (heapCall first .done).IsOf nestedCycles 0 :=
    fun first hfirst => ⟨hfirst, rfl, by decide, trivial, rfl, by decide, trivial, rfl, by decide,
      trivial, rfl, by decide, trivial⟩
  have hearlier : Activity.Undisturbed nestedCycles (fun _ _ => 64) 0x1000 0 ⟨[], 0⟩
      (.call 0 0x9000 1 (.call 2 0x8000 2 .done .done) .done) ⟨fun _ => 0, 0, fun _ => 64⟩ := by
    refine ⟨⟨by decide, hnot (by decide)⟩, by decide, fun _ _ => rfl, ⟨⟨by decide, fun _ => ?_⟩,
      by decide, fun _ _ => rfl, trivial, trivial⟩, trivial⟩
    unfold Code.LooksLike
    decide
  have hfirst : (heapCall .done .done).Undisturbed nestedCycles (fun _ _ => 64) 0x1000 0 ⟨[], 0⟩
      ⟨fun _ => 0, 0, fun _ => 64⟩ := by
    refine ⟨trivial, ⟨by decide, hnot (by decide)⟩, trivial, ⟨by decide, hnot (by decide)⟩, trivial,
      ⟨by decide, fun _ => ?_⟩, trivial, ⟨by decide, hnot (by decide)⟩, trivial⟩
    unfold Code.LooksLike
    decide
  have hsecond : (heapCall (.call 0 0x9000 1 (.call 2 0x8000 2 .done .done) .done)
      .done).Undisturbed nestedCycles (fun _ _ => 64) 0x1000 0 ⟨[], 0⟩
        ⟨fun _ => 0, 0, fun _ => 64⟩ := by
    refine ⟨hearlier, ⟨by decide, hnot (by decide)⟩, trivial, ⟨by decide, hnot (by decide)⟩,
      trivial, ⟨by decide, fun _ => ?_⟩, trivial, ⟨by decide, hnot (by decide)⟩, trivial⟩
    unfold Code.LooksLike
    decide
  exact recursion_hash_of_context nestedCycles (hof .done trivial)
    (hof _ ⟨rfl, by decide, ⟨rfl, by decide, trivial, trivial⟩, trivial⟩) hfirst hsecond
    ⟨rfl, rfl⟩ ⟨rfl, rfl⟩ rfl rfl rfl

/-- **A cycle that is entered and left below a call out of another one**: the hash is gone. -/
theorem inner_cycle_clears_hash :
    (heapCall .done .done).IsOf nestedCycles 0 ∧
      (heapCall .done (.call 3 0x6000 3 .done .done)).IsOf nestedCycles 0 ∧
      (heapCall .done (.call 3 0x6000 3 .done .done)).active = (heapCall .done .done).active ∧
      ((heapCall .done (.call 3 0x6000 3 .done .done)).execute 0x1000 nestedCycles.code
          ⟨fun _ => 0, 0, fun _ => 64⟩).hash ≠
        ((heapCall .done .done).execute 0x1000 nestedCycles.code
          ⟨fun _ => 0, 0, fun _ => 64⟩).hash := by
  refine ⟨?_, ?_, rfl, by decide⟩
  · simp [Moment.IsOf, Activity.IsOf, heapCall, nestedCycles]
  · simp [Moment.IsOf, Activity.IsOf, heapCall, nestedCycles]

end Semalloc
