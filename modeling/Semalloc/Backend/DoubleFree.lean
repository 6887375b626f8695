import Semalloc.Backend.AuditedEntry

/-!
# Double frees

A client frees a block a second time, in a slot that was not handed out again. The thread that owns
the block fails its double-free check at once. Any other thread pushes the block on the remote free
list of the owner, where it closes a loop or leads to a clear allocation bit, and the next drain of
the owner fails. Until then the heap stays in order, whatever the clients do meanwhile.

## Main definitions

* `Config.FreedFrom`: a block that was freed and not handed out again
* `Config.Careless`: the discipline of the clients, but for second frees
* `Config.halts`: how an event ends the process
* `Config.Drains`: the calls that drain the list of their thread

## Main results

* `Config.Watched.step`: one event of careless clients
* `double_frees_caught`: the process ends in the double-free check
-/

set_option autoImplicit false

namespace Semalloc

open ByteMemory Region Effect MemoryManager

variable {g g' : Ghost} {live away : List Block} {h h' : Heap} {B : Block} {D : ℕ → Prop}
  {k : Compartment} {c c' : Config} {e : Event} {p τ t : ℕ} {α : Type}

/-- The operation is `css_memalign`. -/
def Op.aligns : Op → Bool
  | .memalign _ _ => true
  | _ => false

namespace Config

/-- The block at `p`, in a slot of `k`, was freed, and its slot was not handed out again. -/
def FreedFrom (c : Config) (p : ℕ) (k : Compartment) : Prop :=
  c.heap.ServedFrom p k ∧ Outside c.live p

/-- **Careless clients** follow the discipline, but may free blocks a second time. They do not
shift blocks. -/
def Careless (c : Config) (e : Event) : Prop :=
  e.thread ≠ 0 ∧ (c.Permitted e ∧ e.op.aligns = false ∨
    ∃ p k, e.op = .free p ∧ c.FreedFrom p k)

/-- The reason and the process a run halts with, if it does. -/
def ended (r : EStateM.Result Halt Heap α) : Option (Halt × Heap) :=
  match r with
  | .ok _ _ => none
  | .error e h => some (e, h)

/-- How the process ends in an event, if it does. -/
def halts (c : Config) (e : Event) : Option (Halt × Heap) :=
  match e.op with
  | .malloc size => ended (cssMalloc e.thread size c.heap)
  | .calloc nmemb size => ended (cssCalloc e.thread nmemb size c.heap)
  | .realloc ptr size => ended (cssRealloc e.thread ptr size c.heap)
  | .free ptr => ended (cssFree e.thread ptr c.heap)
  | .memalign alignment size => ended (cssMemalign e.thread alignment size c.heap)
  | .write ptr offset byte =>
    ended (poke (ptr + offset) 1 (writeByte · (ptr + offset) byte) c.heap)

/-- A call of the initialized thread of the manager at `t` that drains its list: `css_malloc`,
`css_calloc`, or `css_free` of a live block in one of its slots. -/
def Drains (c : Config) (t : ℕ) (e : Event) : Prop :=
  e.thread ≠ 0 ∧ c.Initialized e.thread ∧ (c.heap.tls e.thread).threadId = t ∧
    match e.op with
    | .malloc _ | .calloc _ _ => True
    | .free p => ∃ B ∈ c.live, B.ptr = p ∧ ∃ k, c.heap.ServedFrom p k ∧ k.thread = t
    | _ => False

/-! ## Integrity -/

/-- Integrity does not look at the remote free lists. -/
theorem Integral.of_mute (hi : Integral ⟨h.mute, live⟩) : Integral ⟨h, live⟩ := by
  have husable : usableSize h.mute = usableSize h :=
    funext fun p => usableSize_relist h (fun _ => 0) p
  have hrange : usableRange h.mute = usableRange h := by
    unfold usableRange
    rw [husable]
  refine ⟨hi.aligned, fun B hB => ?_, hi.distinct, fun B hB B' hB' hne => ?_,
    fun B hB B' hB' => ?_, fun B hB => ?_, fun b S hS => ?_⟩
  · obtain ⟨hu, hcount⟩ := hi.usable B hB
    dsimp only at hu hcount ⊢
    rw [husable] at hu hcount
    exact ⟨cssMallocUsableSize_of_mute hu, hcount⟩
  · have hdisjoint := hi.disjoint B hB B' hB' hne
    dsimp only at hdisjoint ⊢
    rwa [hrange] at hdisjoint
  · have hheaders := hi.headers B hB B' hB'
    dsimp only at hheaders ⊢
    rwa [hrange] at hheaders
  · have hslot := hi.slots B hB
    unfold InSlot at hslot ⊢
    dsimp only at hslot ⊢
    rwa [husable] at hslot
  · have hfree := hi.freeLists b S hS
    unfold FreeListOk at hfree ⊢
    dsimp only at hfree ⊢
    rwa [hrange] at hfree

theorem integral_of_inv (hi : Inv .unshifted g (live ++ away) h.mute) : Integral ⟨h, live⟩ := by
  have hunshifted : ¬ Promise.unshifted.shifted := fun hf => hf
  refine Integral.of_mute (Inv.integral (c := ⟨h.mute, live⟩) (g := g) ?_ hunshifted)
  refine hi.setLive (fun B hB => hi.contents.live B (List.mem_append_left _ hB))
    (fun B hB => ⟨B, List.mem_append_left _ hB, rfl⟩) ?_
  exact hi.contents.liveNodup.sublist ((List.sublist_append_left _ _).map _)

/-! ## Runs of careless clients -/

/-- The audit of a configuration in which the drains of the managers in `D` are going to fail. -/
def Watched (D : ℕ → Prop) (c : Config) : Prop := ∃ g away, Audited D g away c.live c.heap

theorem watched_initial {os : Kernel} (hos : os.failure = .excluded) :
    Watched (fun _ => False) (initial os) := by
  have hi : Inv .unshifted blankGhost (initial os).live (initial os).heap := initial_inv hos
  refine ⟨blankGhost, [], hi, ?_, ?_, ?_, ?_, fun t => ⟨[], 0, ⟨rfl, List.nodup_nil, ?_, ?_⟩, ?_⟩⟩
  · rintro b B ⟨⟩
  · rintro A ⟨⟩
  · rintro e ⟨⟩
  · rintro p e k ⟨⟩
  · rintro p ⟨⟩
  · refine .inl ⟨rfl, ?_⟩
    rintro p ⟨A, ⟨⟩, -⟩
  · exact False.elim

/-- **One event** of careless clients. -/
theorem Watched.step (hw : Watched D c) (ha : c.Careless e) (hs : c.step e = some c') :
    Watched D c' := by
  obtain ⟨g, away, haud⟩ := hw
  obtain ⟨τ, op⟩ := e
  obtain ⟨hτ, ⟨⟨-, hp⟩, haligns⟩ | ⟨p, k, rfl, hfrom, hout⟩⟩ := ha
  · cases op with
    | malloc size =>
      obtain ⟨r, t, hrun, rfl⟩ := returned_eq hs
      exact (haud.cssMalloc hτ).of_ok hrun
    | calloc nmemb size =>
      obtain ⟨r, t, hrun, rfl⟩ := returned_eq hs
      exact haud.cssCalloc.of_ok hrun
    | realloc ptr size =>
      obtain ⟨r, t, hrun, rfl⟩ := returned_eq hs
      exact (haud.cssRealloc hτ hp).of_ok hrun
    | free ptr =>
      obtain ⟨r, t, hrun, rfl⟩ := returned_eq hs
      exact (haud.cssFree hτ hp).of_ok hrun
    | memalign alignment size => cases haligns
    | write ptr offset byte =>
      obtain rfl := write_eq hs
      obtain ⟨B, hB, rfl, hlt⟩ := hp
      have hinside : ∀ a, writeByte c.heap.mem (B.ptr + offset) byte a ≠ c.heap.mem a →
          B.ptr ≤ a ∧ a < B.ptr + B.limit := fun a hne => by
        by_contra hnot
        exact hne (writeByte_of_ne _ (by omega))
      exact ⟨g, away, haud.writeBlock hB hinside⟩
  · obtain ⟨r, t, hrun, rfl⟩ := returned_eq hs
    have hpost := (haud.cssFree_freed hτ hfrom hout).of_ok hrun
    have hlive : dropLive c.live p = c.live :=
      List.filter_eq_self.mpr fun B hB => by simpa using hout B hB
    obtain ⟨g', away', haud'⟩ := hpost
    refine ⟨g', away', ?_⟩
    dsimp only
    rw [hlive]
    exact haud'

/-- What a run of careless clients reaches from a watched configuration. -/
theorem Watched.reachable {c₀ : Config} (hw : Watched D c₀)
    (hr : Transition.Reachable (· = c₀) Careless Config.step c) : Watched D c := by
  refine hr.invariant ?_ fun _ _ _ hs ha hstep => hs.step ha hstep
  rintro _ rfl
  exact hw

theorem Watched.integral (hw : Watched D c) : c.Integral := by
  obtain ⟨g, away, haud⟩ := hw
  exact integral_of_inv haud.inv

end Config

/-! ## The call that fails -/

theorem ended_of_caught {f : Proc α} (hr : Runs f h (fun _ _ => False) (Caught live)) :
    ∃ h', Config.ended (f h) = some (.doubleFree, h') ∧ Config.Integral ⟨h', live⟩ := by
  obtain ⟨e, h', hrun, rfl, g', away', hi⟩ := hr.exists_error
  exact ⟨h', by rw [hrun]; rfl, Config.integral_of_inv hi⟩

namespace Audited

variable (ha : Audited D g away live h) (hs : Started h τ) (hD : D (h.tls τ).threadId)
include ha hs hD

theorem cssMalloc_doomed (size : Word) :
    Runs (Semalloc.cssMalloc τ size) h (fun _ _ => False) (Caught live) := by
  obtain ⟨m, hm⟩ := hs.2
  unfold Semalloc.cssMalloc
  refine Runs.after_spec (hs.ensureThread.imp ?_)
  rintro - h₁ rfl
  refine Runs.after_spec (getThreadId_spec ?_)
  exact (ha.addCall _).doomed hm (mallocMemory_drained _ size) hD

theorem cssCalloc_doomed (nmemb size : Word) :
    Runs (Semalloc.cssCalloc τ nmemb size) h (fun _ _ => False) (Caught live) := by
  obtain ⟨m, hm⟩ := hs.2
  unfold Semalloc.cssCalloc
  dsimp only
  refine Runs.after_spec (getThreadId_spec (Runs.bind ?_))
  exact (ha.addCall _).doomed hm (mallocMemoryCSI_drained _ _ _ _) hD

theorem cssFree_doomed (hB : B ∈ live) (hfrom : h.ServedFrom B.ptr k)
    (hk : k.thread = (h.tls τ).threadId) :
    Runs (Semalloc.cssFree τ B.ptr) h (fun _ _ => False) (Caught live) := by
  obtain ⟨m, hm⟩ := hs.2
  obtain ⟨b, s, hslot⟩ := ha.slotLive (List.mem_append_left _ hB) hfrom
  have hcov := hslot.block.head_covers ha.layout
  have hpos := ha.inv.ptr_pos (List.mem_append_left _ hB)
  unfold Semalloc.cssFree
  refine Runs.after_spec (hs.ensureThread.imp ?_)
  rintro - h₁ rfl
  refine Runs.ite (fun hz => by omega) fun _ => ?_
  unfold Semalloc.releaseBlock
  dsimp only
  refine Runs.after_spec (peek_spec (.inl hcov) fun _ => ?_)
  rw [if_neg (by simp [hslot.block.notHuge])]
  refine Runs.after_spec (peek_spec (.inl hcov) fun _ => ?_)
  refine Runs.after_spec (getThreadId_spec ?_)
  rw [hslot.block.threadId, if_pos hk]
  exact (ha.addCall _).doomed hm (freeRegularMemory_drained _ _) hD

end Audited

/-- **A call that drains** a list that is going to fail. -/
theorem Config.Watched.halts (hw : c.Watched D) (hD : D t) (he : c.Drains t e) :
    ∃ h', c.halts e = some (.doubleFree, h') ∧ Config.Integral ⟨h', c.live⟩ := by
  obtain ⟨g, away, ha⟩ := hw
  obtain ⟨τ, op⟩ := e
  obtain ⟨hτ, hinit, rfl, hop⟩ := he
  have hs : Started c.heap τ := ⟨hinit, ha.layout.thread τ hτ hinit⟩
  cases op with
  | malloc size => exact ended_of_caught (ha.cssMalloc_doomed hs hD size)
  | calloc nmemb size => exact ended_of_caught (ha.cssCalloc_doomed hs hD nmemb size)
  | free p =>
    obtain ⟨B, hB, rfl, k, hfrom, hk⟩ := hop
    exact ended_of_caught (ha.cssFree_doomed hs hD hB hfrom hk)
  | realloc ptr size => cases hop
  | memalign alignment size => cases hop
  | write ptr offset byte => cases hop

/-! ## Double frees -/

/-- **Double frees are caught**: the thread that owns the block fails at once. Any other thread
returns, and from then on every call of the owner that drains its list fails. The heap is integral
in every configuration in between, and where the process ended. -/
theorem double_frees_caught {os : Kernel} (hos : os.failure = .excluded)
    (hr : Transition.Reachable (· = Config.initial os) Config.Careless Config.step c)
    (hτ : τ ≠ 0) (hinit : c.Initialized τ) (hp : c.FreedFrom p k) :
    ((c.heap.tls τ).threadId = k.thread →
      ∃ h', c.halts ⟨τ, .free p⟩ = some (.doubleFree, h') ∧ Config.Integral ⟨h', c.live⟩) ∧
    ((c.heap.tls τ).threadId ≠ k.thread →
      ∃ c₁, c.step ⟨τ, .free p⟩ = some c₁ ∧
        ∀ c₂, Transition.Reachable (· = c₁) Config.Careless Config.step c₂ → c₂.Integral ∧
          ∀ e, c₂.Drains k.thread e →
            ∃ h', c₂.halts e = some (.doubleFree, h') ∧ Config.Integral ⟨h', c₂.live⟩) := by
  obtain ⟨g, away, ha⟩ := (Config.watched_initial hos).reachable hr
  have hs : Started c.heap τ := ⟨hinit, ha.layout.thread τ hτ hinit⟩
  have hrun := ha.cssFree_again hs hp.1 hp.2
  refine ⟨fun hown => ?_, fun hother => ?_⟩
  · exact ended_of_caught (hrun.mono (fun _ _ hpost => hpost.1 hown) fun _ _ hstop => hstop.2)
  · obtain ⟨r, h₁, hok, -, g₁, away₁, ha₁⟩ :=
      (hrun.mono (fun _ _ hpost => hpost) fun _ _ hstop => hother hstop.1).exists_ok
    have hlive : Config.dropLive c.live p = c.live :=
      List.filter_eq_self.mpr fun B hB => by simpa using hp.2 B hB
    refine ⟨⟨h₁, c.live⟩, ?_, fun c₂ hr₂ => ?_⟩
    · unfold Config.step Config.returned
      dsimp only
      rw [hok, hlive]
    · have hw : Config.Watched (fun t => False ∨ t = k.thread) ⟨h₁, c.live⟩ :=
        ⟨g₁, away₁, ha₁⟩
      have hw₂ := hw.reachable hr₂
      exact ⟨hw₂.integral, fun e he => hw₂.halts (.inr rfl) he⟩

/-- A run of clients that have not freed a block twice yet. -/
theorem Config.Careless.of_exec {os : Kernel} {es : List Event}
    (hrun : Transition.exec (fun c e => c.Permitted e ∧ e.op.aligns = false) Config.step
      (Config.initial os) es = some c) :
    Transition.Reachable (· = Config.initial os) Config.Careless Config.step c :=
  Transition.Reachable.mono (.of_exec (.start rfl) hrun) fun _ _ ha => ⟨ha.1.1, .inl ha⟩

/-- A block that waits for the first thread is freed again, by it or by the second thread. -/
theorem double_frees_caught_waiting : ∃ c,
    Transition.Reachable (· = Config.initial (bumpKernel 0 .excluded)) Config.Careless
      Config.step c ∧
    (∃ h', c.halts ⟨1, .free 47319765008⟩ = some (.doubleFree, h')) ∧
    ∃ c₁, c.step ⟨2, .free 47319765008⟩ = some c₁ ∧
      ∃ h', c₁.halts ⟨1, .malloc 24⟩ = some (.doubleFree, h') := by
  have hrun : ((Transition.exec (fun c e => c.Permitted e ∧ e.op.aligns = false) Config.step
      (Config.initial (bumpKernel 0 .excluded))
      [⟨1, .malloc 24⟩, ⟨2, .malloc 24⟩, ⟨2, .free 47319765008⟩]).map fun c =>
        (c.live.map Block.ptr, c.heap.newest (47319765008 - headerSize),
          [(c.heap.tls 1).tid, (c.heap.tls 1).threadId, (c.heap.tls 2).tid,
            (c.heap.tls 2).threadId],
          (c.step ⟨2, .free 47319765008⟩).map fun c₁ =>
            [(c₁.heap.tls 1).tid, (c₁.heap.tls 1).threadId])) =
      some ([150474154000], some ⟨.pool ⟨0, none, 1⟩, ⟨47319764992, 48⟩, 47319765008⟩,
        [1, 0, 2, 1], some [1, 0]) := by decide +kernel
  obtain ⟨c, hc, hfacts⟩ := Option.map_eq_some_iff.mp hrun
  simp only [Prod.mk.injEq, List.cons.injEq, and_true] at hfacts
  obtain ⟨hlive, hnewest, ⟨h₁, h₁', h₂, h₂'⟩, hstep⟩ := hfacts
  have hr := Config.Careless.of_exec hc
  have hfreed : c.FreedFrom 47319765008 ⟨0, none, 1⟩ := by
    refine ⟨⟨_, hnewest, rfl, rfl⟩, fun B hB hptr => ?_⟩
    have hmem := List.mem_map_of_mem (f := Block.ptr) hB
    rw [hlive, hptr] at hmem
    simp at hmem
  obtain ⟨h', hhalts, -⟩ := (double_frees_caught rfl hr (by decide) h₁ hfreed).1 h₁'
  obtain ⟨c₁, hc₁, hafter⟩ := (double_frees_caught rfl hr (by decide) h₂ hfreed).2
    (by rw [h₂']; decide)
  rw [hc₁, Option.map_some, Option.some.injEq] at hstep
  simp only [List.cons.injEq, and_true] at hstep
  obtain ⟨h'', hhalts', -⟩ := (hafter c₁ (.start rfl)).2 ⟨1, .malloc 24⟩
    ⟨by decide, hstep.1, hstep.2, trivial⟩
  exact ⟨c, hr, ⟨h', hhalts⟩, c₁, hc₁, h'', hhalts'⟩

end Semalloc
