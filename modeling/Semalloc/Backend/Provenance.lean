import Semalloc.Backend.Housekeeping
import Semalloc.Backend.RunSpec

/-!
# The request a slot was served for

A slot that comes from an individual BIBOP was asked for in its context: the context is the one in the
word of the request. The history is given with the request that each record was made for, and in
every run the contexts of the records are those of their requests.

## Main definitions

* `Updates Q R`: what a relation between processes has to survive, for records in `Q`
* `Op.context`: the context in the word of a request
* `Traced`: a configuration, and its history with what the requests were labelled with

## Main results

* `Updates.cssMalloc`, `Updates.cssRealloc`, …: what each update keeps, the entry points keep
* `Config.step_servedFor`: the records that one event adds
* `Traced.Run.servedFor`: the records of a run, each with its request
-/

set_option autoImplicit false

namespace Semalloc

open ByteMemory Effect MemoryManager

variable {Q : Origin → Prop} {R : Heap → Heap → Prop} {α β : Type} {τ : ℕ}

/-! ## What the entry points are made of -/

/-- The relation survives all updates of the process, and the records in `Q`. -/
structure Updates (Q : Origin → Prop) (R : Heap → Heap → Prop) : Prop extends Housekeeping R where
  memory : ∀ h m, R h (h.setMem m)
  unmapping : ∀ h maps, R h (h.setMaps maps)
  record : ∀ h e, Q e.origin → R h (h.addServed e)
  call : ∀ h u, R h (h.addCall u)
  threadBump : ∀ h n, R h (h.setThreadBump n)
  thread : ∀ h τ l, R h (h.setThread τ l)

namespace Updates

variable (hR : Updates Q R)
include hR

theorem bind {m : Proc α} {f : α → Proc β} (hm : Keeps R m) (hf : ∀ a, Keeps R (f a)) :
    Keeps R (m >>= f) := hR.toHousekeeping.bind hm hf

theorem poke (a n : ℕ) (f : ByteMemory → ByteMemory) : Keeps R (poke a n f) :=
  hR.bind (.get hR.refl) fun _ => .ite (.modify fun h => hR.memory h _) (hR.throw _)

theorem munmap (a len : ℕ) : Keeps R (munmap a len) :=
  .ite (.modify fun h => hR.unmapping h _) (hR.pure _)

theorem madvise (a len : ℕ) : Keeps R (madvise a len) :=
  .ite (.modify fun h => hR.memory h _) (hR.pure _)

theorem serve {origin : Origin} (hQ : Q origin) (base len ptr : ℕ) :
    Keeps R (serve origin base len ptr) :=
  .modify fun h => hR.record h ⟨origin, ⟨base, len⟩, ptr⟩ hQ

theorem getThreadId (τ : ℕ) : Keeps R (getThreadId τ) :=
  hR.bind (.get hR.refl) fun _ => hR.bind (.modify fun h => hR.call h _) fun _ => hR.pure _

/-! ### Frees -/

theorem freeObject (b ptr : ℕ) : Keeps R (SingleBIBOP.freeObject b ptr) := by
  unfold SingleBIBOP.freeObject
  exact hR.bind (hR.getBIBOP b) fun B => hR.bind (hR.poke _ _ _) fun _ =>
    hR.bind (hR.setBIBOP _ _) fun _ => .ite (hR.madvise _ _) (hR.pure _)

theorem freeGlobalObject (ptr : ℕ) : Keeps R (GlobalBIBOP.freeGlobalObject ptr) := by
  unfold GlobalBIBOP.freeGlobalObject
  exact hR.bind (hR.peek _ _ _) fun _ => hR.bind (hR.getBIBOP _) fun _ =>
    .ite (hR.madvise _ _) (hR.pure _)

theorem handleFreeList (this : ℕ) : Keeps R (handleFreeList this) := by
  have hdrain : ∀ n, Keeps R (drainFreeList this n) := by
    intro n
    induction n with
    | zero => exact hR.throw _
    | succ n ih =>
      unfold drainFreeList
      refine hR.bind (hR.getManager _) fun m => .ite (hR.pure _) <|
        hR.bind (hR.peek _ _ _) fun _ => hR.bind (hR.setManager _ _) fun _ =>
        hR.bind (hR.peek _ _ _) fun _ => .ite (hR.bind (hR.throw _) fun _ => ?_) ?_
      all_goals
        refine hR.bind (hR.peek _ _ _) fun _ => hR.bind (hR.peek _ _ _) fun _ => .ite ?_ ?_
        · exact hR.bind (hR.freeGlobalObject _) fun _ => hR.bind (hR.poke _ _ _) fun _ => ih
        · exact hR.bind (hR.freeObject _ _) fun _ => hR.bind (hR.poke _ _ _) fun _ => ih
  exact hdrain (2 ^ 64)

theorem freeRegularMemory (this ptr : ℕ) : Keeps R (freeRegularMemory this ptr) := by
  unfold MemoryManager.freeRegularMemory
  refine hR.bind (hR.handleFreeList _) fun _ => .ite (hR.pure _) <|
    hR.bind (hR.peek _ _ _) fun _ => .ite (hR.bind (hR.throw _) fun _ => ?_) ?_
  all_goals
    refine hR.bind (hR.peek _ _ _) fun _ => hR.bind (hR.peek _ _ _) fun _ =>
      hR.bind (hR.peek _ _ _) fun _ => .ite ?_ ?_
    · exact hR.bind (hR.freeGlobalObject _) fun _ => hR.poke _ _ _
    · exact hR.bind (hR.freeObject _ _) fun _ => hR.poke _ _ _

theorem releaseBlock (τ ptr : ℕ) : Keeps R (releaseBlock τ ptr) := by
  have hother : ∀ this, Keeps R (freeOtherThreadMemory this ptr) := fun this =>
    hR.bind (hR.getManager _) fun _ => hR.bind (hR.poke _ _ _) fun _ => hR.setManager _ _
  have hhuge : Keeps R (freeHugeMemory ptr) :=
    hR.bind (hR.peek _ _ _) fun _ => hR.munmap _ _
  unfold Semalloc.releaseBlock
  refine hR.bind (hR.peek _ _ _) fun _ => .ite hhuge ?_
  exact hR.bind (hR.peek _ _ _) fun _ => hR.bind (hR.getThreadId τ) fun _ =>
    .ite (hR.freeRegularMemory _ _) (hother _)

/-! ### Allocation -/

theorem ensureThread (τ : ℕ) : Keeps R (ensureThread τ) := by
  have hinit : Keeps R (initThread τ) := by
    unfold initThread
    refine hR.bind (.get hR.refl) fun h => hR.bind (.modify fun h => hR.threadBump h _) fun _ =>
      hR.bind (hR.allocateMemoryManager _) fun _ => .ite (hR.bind (hR.throw _) fun _ => ?_) ?_
    all_goals
      exact hR.bind (hR.setManager _ _) fun _ => .modify fun h => hR.thread h _ _
  exact hR.bind (.get hR.refl) fun _ => .ite hinit (hR.pure _)

section Served

variable {CSI : Word} (hhuge : Q .huge) (hglobal : ∀ t k, Q (.pool ⟨t, none, k⟩))
  (hcontext : ∀ t k, Q (.pool ⟨t, some CSI, k⟩))
include hhuge

theorem allocateHuge (size : Word) : Keeps R (allocateHuge size) := by
  unfold MemoryManager.allocateHuge
  refine hR.bind (hR.mmap _) fun _ => .ite (hR.bind (hR.throw _) fun _ => ?_) ?_
  all_goals
    exact hR.bind (hR.poke _ _ _) fun _ => hR.bind (hR.poke _ _ _) fun _ =>
      hR.bind (hR.serve hhuge _ _ _) fun _ => hR.pure _

include hglobal hcontext
omit hhuge

/-- **One slot**: it is recorded for the context of the request, or for the global pool. -/
theorem allocateRegular (this realSize : ℕ) (inLoop : Bool) :
    Keeps R (allocateRegular this realSize CSI inLoop) := by
  have hindividual : Keeps R (allocateIndividual this realSize CSI) := by
    unfold allocateIndividual
    exact hR.bind (hR.probeIndividualBIBOP _ _ _ _) fun _ => hR.bind (hR.allocateFrom _ _) fun _ =>
      hR.bind (hR.getManager _) fun _ => hR.bind (hR.poke _ _ _) fun _ =>
      hR.bind (hR.serve (hcontext _ _) _ _ _) fun _ => hR.pure _
  have hglobal : Keeps R (allocateGlobal this realSize) := by
    unfold allocateGlobal
    exact hR.bind (hR.getManager _) fun _ => hR.bind (hR.allocateFrom _ _) fun _ =>
      hR.bind (hR.getManager _) fun _ => hR.bind (hR.poke _ _ _) fun _ =>
      hR.bind (hR.serve (hglobal _ _) _ _ _) fun _ => hR.pure _
  unfold MemoryManager.allocateRegular
  refine .ite (hR.bind (hR.bind (hR.probeLazyPool _ _ _) fun _ => hR.pure _) fun _ => ?_)
    (hR.bind (hR.pure _) fun _ => ?_)
  all_goals exact .ite hindividual hglobal

include hhuge

theorem mallocMemoryCSI (this : ℕ) (realSize : Word) (inLoop : Bool) :
    Keeps R (mallocMemoryCSI this realSize CSI inLoop) := by
  unfold MemoryManager.mallocMemoryCSI
  exact hR.bind (hR.handleFreeList _) fun _ => .ite (hR.pure _) <|
    .ite (hR.allocateHuge hhuge _) (hR.allocateRegular hglobal hcontext _ _ _)

end Served

section Word

variable {w : Word} (hhuge : Q .huge) (hglobal : ∀ t k, Q (.pool ⟨t, none, k⟩))
  (hcontext : ∀ t k, Q (.pool ⟨t, some (getCSI w), k⟩))
include hhuge hglobal hcontext

theorem mallocMemory (this : ℕ) : Keeps R (mallocMemory this w) := by
  unfold MemoryManager.mallocMemory
  exact hR.bind (hR.handleFreeList _) fun _ => .ite (hR.allocateHuge hhuge _) <|
    .ite (hR.pure _) (.ite (hR.allocateHuge hhuge _) (hR.allocateRegular hglobal hcontext _ _ _))

theorem cssMalloc (τ : ℕ) : Keeps R (cssMalloc τ w) :=
  hR.bind (hR.ensureThread τ) fun _ => hR.bind (hR.getThreadId τ) fun _ =>
    hR.mallocMemory hhuge hglobal hcontext _

theorem cssCalloc (τ : ℕ) (nmemb : Word) : Keeps R (cssCalloc τ nmemb w) :=
  hR.bind (hR.getThreadId τ) fun _ => hR.bind (hR.mallocMemoryCSI hhuge hglobal hcontext _ _ _)
    fun _ => hR.bind (hR.poke _ _ _) fun _ => hR.pure _

theorem cssMemalign (τ : ℕ) (alignment : Word) : Keeps R (cssMemalign τ alignment w) := by
  have hshift : ∀ threadId addr newAddr, Keeps R (shiftHeader threadId addr newAddr) := by
    intro threadId addr newAddr
    unfold shiftHeader
    exact hR.bind (hR.peek _ _ _) fun _ => hR.bind (hR.poke _ _ _) fun _ =>
      hR.bind (hR.poke _ _ _) fun _ => hR.bind (hR.poke _ _ _) fun _ =>
      hR.bind (hR.peek _ _ _) fun _ => hR.bind (hR.poke _ _ _) fun _ =>
      hR.bind (hR.poke _ _ _) fun _ => hR.poke _ _ _
  unfold Semalloc.cssMemalign
  refine .ite (hR.bind (hR.throw _) fun _ => ?_) ?_
  all_goals
    refine .ite (hR.bind (hR.throw _) fun _ => ?_) ?_
    all_goals
      exact hR.bind (hR.getThreadId τ) fun _ =>
        hR.bind (hR.mallocMemoryCSI hhuge hglobal hcontext _ _ _) fun _ => .ite (hR.pure _)
        (hR.bind (hshift _ _ _) fun _ => hR.pure _)

end Word

theorem cssFree (τ ptr : ℕ) : Keeps R (cssFree τ ptr) :=
  hR.bind (hR.ensureThread τ) fun _ => .ite (hR.pure _) (hR.releaseBlock τ ptr)

theorem cssRealloc {w : Word} (hhuge : Q .huge) (hglobal : ∀ t k, Q (.pool ⟨t, none, k⟩))
    (hcontext : ∀ t k, Q (.pool ⟨t, some (getCSI w), k⟩)) (τ ptr : ℕ) :
    Keeps R (cssRealloc τ ptr w) := by
  have husable : Keeps R (cssMallocUsableSize ptr) := by
    unfold cssMallocUsableSize
    refine hR.bind (hR.peek _ _ _) fun _ => .ite (hR.peek _ _ _) ?_
    exact hR.bind (hR.peek _ _ _) fun _ => hR.bind (hR.getBIBOP _) fun _ => hR.pure _
  have hmalloc : ∀ this, Keeps R (MemoryManager.mallocMemory this w) := fun this =>
    hR.mallocMemory hhuge hglobal hcontext this
  unfold Semalloc.cssRealloc
  refine hR.bind (hR.ensureThread τ) fun _ =>
    .ite (hR.bind (hR.getThreadId τ) fun _ => hmalloc _) (.ite ?_ ?_)
  · exact hR.bind (hR.cssFree τ ptr) fun _ => hR.pure _
  · refine hR.bind husable fun _ => .ite (hR.pure _) ?_
    exact hR.bind (hR.getThreadId τ) fun _ => hR.bind (hmalloc _) fun _ =>
      hR.bind (hR.peek _ _ _) fun _ => hR.bind (hR.poke _ _ _) fun _ =>
      hR.bind (hR.releaseBlock τ ptr) fun _ => hR.pure _

end Updates

/-! ## The records of one event -/

/-- The word of a request. -/
def Op.word : Op → Option Word
  | .malloc size => some size
  | .calloc _ size => some size
  | .realloc _ size => some size
  | .memalign _ size => some size
  | .free _ => none
  | .write _ _ _ => none

/-- The context in the word of a request. -/
def Op.context (op : Op) : Option Word := op.word.map getCSI

/-- A slot that is not in the global pool has the context. -/
def Origin.For (context : Option Word) (o : Origin) : Prop :=
  ∀ k x, o = .pool k → k.context = some x → context = some x

/-- Nothing but records for the context was added. -/
def ServedFor (context : Option Word) (h h' : Heap) : Prop :=
  ∃ added, h'.served = added ++ h.served ∧ ∀ r ∈ added, r.origin.For context

theorem ServedFor.same {context : Option Word} {h h' : Heap} (hserved : h'.served = h.served) :
    ServedFor context h h' :=
  ⟨[], hserved, fun _ hr => absurd hr List.not_mem_nil⟩

theorem updates_servedFor (context : Option Word) :
    Updates (Origin.For context) (ServedFor context) where
  refl _ := .same rfl
  trans h h₁ h₂ hfirst hrest := by
    obtain ⟨added, hserved, hadded⟩ := hfirst
    obtain ⟨added', hserved', hadded'⟩ := hrest
    refine ⟨added' ++ added, by rw [hserved', hserved, List.append_assoc], fun r hr => ?_⟩
    rcases List.mem_append.mp hr with hr | hr
    · exact hadded' r hr
    · exact hadded r hr
  mapping _ _ _ _ := .same rfl
  attempt _ := .same rfl
  bibop _ _ _ := .same rfl
  manager _ _ _ := .same rfl
  memory _ _ := .same rfl
  unmapping _ _ := .same rfl
  record _ e he := ⟨[e], rfl, fun r hr => List.mem_singleton.mp hr ▸ he⟩
  call _ _ := .same rfl
  threadBump _ _ := .same rfl
  thread _ _ _ := .same rfl

namespace Config

variable {c c' : Config} {e : Event}

/-- **One event** adds records for the context in its word only. -/
theorem step_servedFor (hs : c.step e = some c') : ServedFor e.op.context c.heap c'.heap := by
  obtain ⟨τ, op⟩ := e
  have hR := updates_servedFor op.context
  have hhuge : Origin.For op.context .huge := fun k x hk => absurd hk nofun
  have hglobal : ∀ t k, Origin.For op.context (.pool ⟨t, none, k⟩) := by
    rintro t k _ x ⟨⟩ hx
    cases hx
  have hcontext : ∀ w, op.context = some (getCSI w) →
      ∀ t k, Origin.For op.context (.pool ⟨t, some (getCSI w), k⟩) := by
    rintro w hw t k _ x ⟨⟩ hx
    rw [hw, ← hx]
  have hkeeps : ∀ {α : Type} {m : Proc α} {a : α} {h : Heap}, Keeps (ServedFor op.context) m →
      m c.heap = .ok a h → ServedFor op.context c.heap h := by
    intro α m a h hm hrun
    have hend := hm c.heap
    rw [hrun] at hend
    exact hend
  cases op with
  | malloc size =>
    obtain ⟨r, h, hrun, rfl⟩ := returned_eq hs
    exact hkeeps (hR.cssMalloc hhuge hglobal (hcontext size rfl) τ) hrun
  | calloc nmemb size =>
    obtain ⟨r, h, hrun, rfl⟩ := returned_eq hs
    exact hkeeps (hR.cssCalloc hhuge hglobal (hcontext size rfl) τ nmemb) hrun
  | realloc ptr size =>
    obtain ⟨r, h, hrun, rfl⟩ := returned_eq hs
    exact hkeeps (hR.cssRealloc hhuge hglobal (hcontext size rfl) τ ptr) hrun
  | free ptr =>
    obtain ⟨r, h, hrun, rfl⟩ := returned_eq hs
    exact hkeeps (hR.cssFree τ ptr) hrun
  | memalign alignment size =>
    obtain ⟨r, h, hrun, rfl⟩ := returned_eq hs
    exact hkeeps (hR.cssMemalign hhuge hglobal (hcontext size rfl) τ alignment) hrun
  | write ptr offset byte =>
    obtain ⟨r, h, hrun, rfl⟩ := returned_eq hs
    exact hkeeps (hR.poke _ _ _) hrun

end Config

/-! ## Runs with labels -/

/-- A configuration, and its history with a label for each record: that of its request. -/
structure Traced (L : Type) where
  config : Config
  history : List (Served × L)

namespace Traced

variable {L : Type} {P : Promise} {os : Kernel} {asks : Event → L → Prop} {s s' : Traced L}
  {e : Event × L}

/-- One event with a label; the records that it adds get the label. -/
def step (s : Traced L) (e : Event × L) : Option (Traced L) :=
  (s.config.step e.1).map fun c =>
    let added := c.heap.served.take (c.heap.served.length - s.config.heap.served.length)
    ⟨c, added.map (fun r => (r, e.2)) ++ s.history⟩

/-- The event is permitted and honours the promise, whatever its label. -/
def Allowed (P : Promise) (s : Traced L) (e : Event × L) : Prop :=
  s.config.Permitted e.1 ∧ s.config.Honours P e.1

instance [DecidablePred P.kept] [Decidable P.shifted] (s : Traced L) (e : Event × L) :
    Decidable (s.Allowed P e) :=
  inferInstanceAs (Decidable (_ ∧ _))

/-- The runs of allowed events that ask for what their labels say. -/
def Run (P : Promise) (os : Kernel) (asks : Event → L → Prop) : Traced L → Prop :=
  Transition.Reachable (· = ⟨.initial os, []⟩) (fun s e => s.Allowed P e ∧ asks e.1 e.2) step

/-- The run of the events with their labels, while each is allowed. -/
def run (P : Promise) [DecidablePred P.kept] [Decidable P.shifted] (os : Kernel)
    (es : List (Event × L)) : Option (Traced L) :=
  Transition.exec (fun s e => s.Allowed P e) step ⟨.initial os, []⟩ es

theorem Run.of_run [DecidablePred P.kept] [Decidable P.shifted] {es : List (Event × L)}
    (hasks : ∀ e ∈ es, asks e.1 e.2) (h : run P os es = some s) : Run P os asks s :=
  .of_exec_all (q := fun e : Event × L => asks e.1 e.2) hasks (.start rfl) h

/-- One event in the configuration, and the records it adds. -/
theorem step_eq (hs : s.step e = some s') : s.config.step e.1 = some s'.config ∧
    ∃ added, s'.config.heap.served = added ++ s.config.heap.served ∧
      s'.history = added.map (fun r => (r, e.2)) ++ s.history ∧
      ∀ r ∈ added, r.origin.For e.1.op.context := by
  obtain ⟨c, hc, rfl⟩ := Option.map_eq_some_iff.mp hs
  obtain ⟨added, hserved, hadded⟩ := Config.step_servedFor hc
  refine ⟨hc, added, hserved, ?_, hadded⟩
  dsimp only
  rw [hserved, List.length_append, Nat.add_sub_cancel, List.take_left]

/-- The labels do not change what the events do. -/
theorem Run.config (hr : Run P os asks s) : Config.Run P os s.config := by
  refine Transition.Reachable.invariant (I := fun s : Traced L => Config.Run P os s.config) hr ?_ ?_
  · rintro s rfl
    exact .start rfl
  · rintro s e s' hrun ⟨hallowed, -⟩ hs
    exact .step hrun hallowed (step_eq hs).1

/-- The records are those of the configuration. -/
theorem Run.records (hr : Run P os asks s) : s.history.map Prod.fst = s.config.heap.served := by
  refine Transition.Reachable.invariant
    (I := fun s : Traced L => s.history.map Prod.fst = s.config.heap.served) hr ?_ ?_
  · rintro s rfl
    rfl
  · rintro s e s' hrecords - hs
    obtain ⟨-, added, hserved, hhistory, -⟩ := step_eq hs
    rw [hserved, hhistory, List.map_append, List.map_map, hrecords]
    exact congrArg (· ++ _) (List.map_id _)

/-- **Each record** of an individual pool has the context of a request with its label. -/
theorem Run.servedFor (hr : Run P os asks s) : ∀ r l, (r, l) ∈ s.history → ∀ k x,
    r.origin = .pool k → k.context = some x → ∃ e, asks e l ∧ e.op.context = some x := by
  refine Transition.Reachable.invariant (I := fun s : Traced L => ∀ r l, (r, l) ∈ s.history →
    ∀ k x, r.origin = .pool k → k.context = some x → ∃ e, asks e l ∧ e.op.context = some x) hr ?_ ?_
  · rintro s rfl r l hmem
    exact absurd hmem List.not_mem_nil
  · rintro s e s' hbefore ⟨-, hasks⟩ hs r l hmem k x hk hx
    obtain ⟨-, added, -, hhistory, hadded⟩ := step_eq hs
    rw [hhistory] at hmem
    rcases List.mem_append.mp hmem with hmem | hmem
    · obtain ⟨r', hr', heq⟩ := List.mem_map.mp hmem
      obtain ⟨rfl, rfl⟩ := Prod.mk.inj heq
      exact ⟨e.1, hasks, hadded r' hr' k x hk hx⟩
    · exact hbefore r l hmem k x hk hx

end Traced

end Semalloc
