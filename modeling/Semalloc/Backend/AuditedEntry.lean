import Semalloc.Backend.RemoteFrees

/-!
# Entry points in a process with blocks freed twice

The entry points return only if the manager they drain has no block that was freed a second time,
and then they leave the process as they would without such blocks. A second free fails in a thread
that owns the block, and is a push in any other.

## Main definitions

* `Heap.ServedFrom`: the last allocation at a pointer was a slot of a compartment
* `Provided`: what an allocation leaves

## Main results

* `Audited.cssMalloc`, `Audited.cssCalloc`, `Audited.cssRealloc`, `Audited.cssFree`: the calls of
  clients that follow the discipline
* `Audited.cssFree_own`, `Audited.cssFree_other`: a second free
* `Audited.doomed`: a call that drains a manager with a block freed a second time
-/

set_option autoImplicit false

namespace Semalloc

open ByteMemory Region Effect MemoryManager Config

variable {P : Promise} {g g' : Ghost} {live live' away away' : List Block} {h h' : Heap}
  {B B' : Block} {D : ℕ → Prop} {m : MemoryManager} {k : Compartment} {p t τ n u : ℕ} {α : Type}

/-! ## Usable sizes -/

theorem usableSize_relist (h : Heap) (f : ℕ → ℕ) (p : ℕ) :
    usableSize (h.relist f) p = usableSize h p := by
  have hrun := cssMallocUsableSize_oblivious (f := f) p h
  dsimp only at hrun
  unfold usableSize
  rw [hrun]
  cases cssMallocUsableSize p h with
  | ok n t => rfl
  | error e t => rfl

theorem cssMallocUsableSize_of_mute (hu : cssMallocUsableSize p h.mute = .ok n h.mute) :
    cssMallocUsableSize p h = .ok n h := by
  have hrun := cssMallocUsableSize_oblivious (f := h.heads) p h.mute
  dsimp only at hrun
  rw [Heap.mute_relist, hu] at hrun
  rw [hrun, mapState, Heap.mute_relist]

/-- The usable size of what was handed out. -/
def Served.usable (e : Served) : ℕ :=
  match e.origin with
  | .pool c => minBagSize <<< c.sizeClass
  | .huge => e.range.len - pageSize

/-- The record of a live block has its usable size. -/
theorem Inv.usable_record (hi : Inv P g live h) (hB : B ∈ live) :
    ∃ e, h.newest (B.ptr - headerSize) = some e ∧ usableSize h B.ptr = e.usable := by
  have hl := hi.layout
  obtain ⟨e, he, hlog⟩ := hi.history.logged B hB
  refine ⟨e, he, ?_⟩
  unfold Served.usable
  cases hi.contents.live B hB with
  | slot hB =>
    have hhead := hB.block.head_own hl le_rfl (by simp only [headerSize]; omega)
    have hu := hB.block.usableSize hl
    cases hlog with
    | pool ho hr _ _ hhead' =>
      rw [hhead] at hhead'
      cases hhead'
      rw [hB.block.reg] at hr
      cases hr
      rw [usableSize, hu, ho]
    | huge _ _ _ hhead' => rw [hhead] at hhead'; cases hhead'
  | huge hB =>
    have hge := hB.ptr_ge
    have hhead := hB.own (B.ptr - headerSize) (by simp only [headerSize, pageSize] at *; omega)
      (by simp only [headerSize, pageSize] at *; omega)
    have hu := hB.usableSize hl
    cases hlog with
    | pool _ _ _ _ hhead' => rw [hhead] at hhead'; cases hhead'
    | huge ho hr =>
      rw [usableSize, hu, ho, hr]
      simp

/-- Usable sizes change only by allocations. -/
theorem Inv.usableSize_of_served (hi : Inv P g live h) (hi' : Inv P g' live' h') (hB : B ∈ live)
    (hB' : B' ∈ live') (hptr : B'.ptr = B.ptr) (hserved : h'.served = h.served) :
    usableSize h' B.ptr = usableSize h B.ptr := by
  obtain ⟨e, he, hu⟩ := hi.usable_record hB
  obtain ⟨e', he', hu'⟩ := hi'.usable_record hB'
  have hnewest : h'.newest (B.ptr - headerSize) = h.newest (B.ptr - headerSize) := by
    unfold Heap.newest
    rw [hserved]
  rw [hptr, hnewest, he] at he'
  cases he'
  rw [hptr] at hu'
  rw [hu, hu']

/-! ## Records -/

/-- The last allocation of the bytes before `p` handed out `p`, in a slot of the compartment. -/
def Heap.ServedFrom (h : Heap) (p : ℕ) (k : Compartment) : Prop :=
  ∃ e, h.newest (p - headerSize) = some e ∧ e.origin = .pool k ∧ e.ptr = p

theorem Heap.ServedFrom.congr (hp : h.ServedFrom p k) (hserved : h'.served = h.served) :
    h'.ServedFrom p k := by
  obtain ⟨e, he, hk, hptr⟩ := hp
  refine ⟨e, ?_, hk, hptr⟩
  unfold Heap.newest
  rw [hserved]
  exact he

namespace Audited

/-- The record of a live block in a slot. -/
theorem servedFrom (ha : Audited D g away live h) (hB : B ∈ live ++ away) {b s : ℕ}
    {c : Compartment} (hslot : SlotLive .unshifted g.own g.reg g.use h.mem b c s B) :
    h.ServedFrom B.ptr c := by
  obtain ⟨e, he, hlog⟩ := ha.inv.history.logged B hB
  have he' : h.newest (B.ptr - headerSize) = some e := he
  have hhead := hslot.block.head_own ha.layout le_rfl (by simp only [headerSize]; omega)
  have hptr := hslot.block.whole.1
  cases hlog with
  | pool ho hr hown _ hhead' =>
    rw [hhead] at hhead'
    injection hhead' with hb hs
    subst hb
    rw [hslot.block.reg] at hr
    cases hr
    have := ha.records e (Heap.newest_mem he') _ ho
    exact ⟨e, he', ho, by omega⟩
  | huge _ _ _ hhead' => rw [hhead] at hhead'; cases hhead'

/-- A live block with the record of a slot is in the slot. -/
theorem slotLive (ha : Audited D g away live h) (hB : B ∈ live ++ away)
    (hp : h.ServedFrom B.ptr k) :
    ∃ b s, SlotLive .unshifted g.own g.reg g.use h.mem b k s B := by
  obtain ⟨e, he, hk, hptr⟩ := hp
  obtain ⟨-, b, ho, hr⟩ := ha.slot_of_newest he hk hptr
  cases ha.inv.contents.live B hB with
  | @slot b' s' c' hslot =>
    have hhead := hslot.block.head_own ha.layout le_rfl (by simp only [headerSize]; omega)
    rw [ho] at hhead
    injection hhead with hb hs
    subst hb
    have hreg := hslot.block.reg
    rw [hr] at hreg
    cases hreg
    exact ⟨b, s', hslot⟩
  | huge hhuge =>
    have hge := hhuge.ptr_ge
    rw [hhuge.own (B.ptr - headerSize) (by simp only [headerSize, pageSize] at *; omega)
      (by simp only [headerSize, pageSize] at *; omega)] at ho
    cases ho

/-- The header of a block that was freed. It waits, or fails the double-free check. -/
theorem header_of_freed (ha : Audited D g away live h) (hp : h.ServedFrom p k)
    (hout : Outside live p) : OfManager g h.mem k.thread p ∧
      ((∃ A ∈ away, A.ptr = p) ∨ Rejected g h.mem k.thread p) := by
  obtain ⟨e, he, hk, hptr⟩ := id hp
  obtain ⟨hle, b, ho, hr⟩ := ha.slot_of_newest he hk hptr
  by_cases haway : ∃ A ∈ away, A.ptr = p
  · obtain ⟨A, hA, rfl⟩ := id haway
    obtain ⟨b, s, hslot⟩ := ha.slotLive (List.mem_append_right _ hA) hp
    exact ⟨hslot.block.ofManager, .inl haway⟩
  · have hout' : Outside (live ++ away) p := by
      intro A hA
      rcases List.mem_append.mp hA with hA | hA
      · exact hout A hA
      · exact fun hAp => haway ⟨A, hA, hAp⟩
    have hspent := ha.spent p e k he hk hptr hout'
    exact ⟨⟨hle, ⟨b, ho⟩, hspent.threadId⟩, .inr ⟨b, k, hle, ho, hr, rfl, hspent.idle⟩⟩

end Audited

/-- An initialized thread has its manager already. -/
theorem Started.ensureThread (hs : Started h τ) :
    Spec (ensureThread τ) h (fun _ h' => h' = h) fun _ => False := by
  unfold Semalloc.ensureThread
  exact Spec.bind (Spec.get (Spec.ite (fun hne => absurd hs.1 hne) fun _ => Spec.pure rfl))

namespace Audited

/-! ## After the drain -/

/-- A function that drains its list first, in a process where the drain returned. -/
theorem drained {f : Proc α} (ha : Audited D g away live h)
    (hm : h.globalMemoryManager t = some m) (hf : Drained t f) :
    Spec f h (fun a h' => ∃ h₁, Emptied D live t h h₁ ∧ f h₁.mute = .ok a h'.mute ∧
      h' = h'.mute.relist h₁.heads) fun _ => True := by
  have hdrain := ((ha.handleFreeList hm).spec).mono (fun _ _ he => he) fun _ _ => trivial
  exact hf.spec hdrain fun h₁ he => he.manager

/-- **A drain that is going to fail** does so in every function that starts with it. -/
theorem doomed {f : Proc α} {post : α → Heap → Prop} (ha : Audited D g away live h)
    (hm : h.globalMemoryManager t = some m) (hf : Drained t f) (hD : D t) :
    Runs f h post (Caught live) := by
  obtain ⟨rest, rfl, -⟩ := hf
  exact Runs.bind ((ha.handleFreeList hm).imp fun _ _ he => absurd hD he.sound)

end Audited

/-- The drained process has no list to drain when it is muted. -/
theorem Emptied.muted {h₁ : Heap} (he : Emptied D live t h h₁) :
    (∃ m', h₁.mute.globalMemoryManager t = some m') ∧
      handleFreeList t h₁.mute = .ok () h₁.mute := by
  obtain ⟨m', hm'⟩ := he.manager
  have hmuted : h₁.mute.globalMemoryManager t = _ := Heap.manager_relist hm'
  exact ⟨⟨_, hmuted⟩, handleFreeList_of_empty hmuted rfl⟩

/-! ## Allocation -/

/-- What an allocation leaves that answered `r`: null, where `null` allows it, or a block of usable
size `u`. -/
structure Provided (D : ℕ → Prop) (live : List Block) (null : Prop) (n u : ℕ) (h : Heap) (r : ℕ)
    (h' : Heap) : Prop where
  null : r = 0 → null
  usable : r ≠ 0 → usableSize h' r = u
  thread : ∀ τ, (h.tls τ).tid = τ → h'.tls τ = h.tls τ
  audited : ∃ g' away', Audited D g' away' (addLive live r n u) h'

theorem Provided.after_drain {null : Prop} {h₁ : Heap} {r : ℕ}
    (hp : Provided D live null n u h₁ r h') (he : Emptied D live t h h₁) :
    Provided D live null n u h r h' :=
  ⟨hp.null, hp.usable, he.tls ▸ hp.thread, hp.audited⟩

theorem Provided.addLive {null : Prop} {r : ℕ} (hp : Provided D live null n u h r h') :
    Config.addLive live r n (usableSize h' r) = Config.addLive live r n u := by
  by_cases hr : r = 0
  · rw [Config.addLive, Config.addLive, if_pos hr, if_pos hr]
  · rw [hp.usable hr]

namespace Audited

/-- A process whose list at `t` was drained, after an allocation. -/
theorem allocated {null : Prop} {r : ℕ} (ha : Audited D g away live h) (hempty : h.heads t = 0)
    (hrelist : h' = h'.mute.relist h.heads) (hsup : Supplied t h.mute r h'.mute)
    (hcases : (r = 0 ∧ null ∧ ∃ g', After .unshifted Spared g h.mute (live ++ away) g' h'.mute) ∨
      Allocated .unshifted g h.mute (live ++ away) t n u r h'.mute) :
    Provided D live null n u h r h' := by
  rcases hcases with ⟨rfl, hnull, g', hafter⟩ | halloc
  · refine ⟨fun _ => hnull, fun hne => absurd rfl hne, hafter.grows.thread, g', away, ?_⟩
    rw [Config.addLive, if_pos rfl]
    exact ha.supply hempty hafter hsup (fun hne => absurd rfl hne) (fun B hB => ⟨B, hB, rfl⟩)
      (hafter.grows.heads hrelist)
  · have hpos := halloc.ptr_pos
    obtain ⟨g', hafter⟩ := halloc.after
    refine ⟨fun hz => by omega, fun _ => ?_, hafter.grows.thread, g', away, ?_⟩
    · have hu := halloc.usable
      rw [← usableSize_relist h' fun _ => 0]
      unfold usableSize
      rw [show h'.relist (fun _ => 0) = h'.mute from rfl, hu]
    · rw [Config.addLive, if_neg hpos.ne']
      exact ha.supply hempty hafter hsup (fun _ => ⟨_, List.mem_cons_self, rfl⟩)
        (fun B hB => ⟨B, List.mem_cons_of_mem _ hB, rfl⟩) (hafter.grows.heads hrelist)

theorem mallocMemory {size : Word} (ha : Audited D g away live h)
    (hm : h.globalMemoryManager t = some m) (hn : n ≤ mallocUsable size) :
    Spec (mallocMemory t size) h (Provided D live (EmptyWord size) n (mallocUsable size) h)
      fun _ => True := by
  refine (ha.drained hm (mallocMemory_drained t size)).imp ?_
  rintro r h' ⟨h₁, he, hrun, hrelist⟩
  obtain ⟨g₁, away₁, ha₁, -⟩ := he.audited
  obtain ⟨⟨m₁, hm₁⟩, hdrain⟩ := he.muted
  have hsup := (mallocMemory_supplied ha₁.inv.layout.excluded hdrain).of_ok hrun
  refine (ha₁.allocated he.heads hrelist hsup ?_).after_drain he
  rcases (mallocMemory_spec ha₁.inv ha₁.ready hm₁ hn).of_ok hrun with
    ⟨hr, hhuge, hzero, hafter⟩ | ⟨-, halloc⟩
  · exact .inl ⟨hr, ⟨hhuge, hzero⟩, hafter⟩
  · exact .inr halloc

theorem mallocMemoryCSI {realSize CSI : Word} {inLoop : Bool} (ha : Audited D g away live h)
    (hm : h.globalMemoryManager t = some m) (hCSI : CSI.toNat ≠ allOnes)
    (hn : n ≤ regularUsable realSize) :
    Spec (mallocMemoryCSI t realSize CSI inLoop) h
      (Provided D live (realSize = 0) n (regularUsable realSize) h) fun _ => True := by
  refine (ha.drained hm (mallocMemoryCSI_drained t realSize CSI inLoop)).imp ?_
  rintro r h' ⟨h₁, he, hrun, hrelist⟩
  obtain ⟨g₁, away₁, ha₁, -⟩ := he.audited
  obtain ⟨-, hdrain⟩ := he.muted
  have hsup := (mallocMemoryCSI_supplied ha₁.inv.layout.excluded hdrain).of_ok hrun
  refine (ha₁.allocated he.heads hrelist hsup ?_).after_drain he
  rcases (mallocMemoryCSI_spec ha₁.inv ha₁.ready hCSI hn).of_ok hrun with
    ⟨hr, hzero, hafter⟩ | ⟨-, halloc⟩
  · exact .inl ⟨hr, hzero, hafter⟩
  · exact .inr halloc

/-- `mallocMemory` of the calling thread. -/
theorem mallocMemory_of_thread {size : Word} (ha : Audited D g away live h) (hs : Started h τ) :
    Spec (do MemoryManager.mallocMemory (← getThreadId τ) size) h
      (fun r h' => ∃ g' away',
        Audited D g' away' (addLive live r (decodedSize size) (usableSize h' r)) h')
      fun _ => True := by
  obtain ⟨-, m, hm⟩ := hs
  refine Spec.bind (getThreadId_spec ?_)
  refine ((ha.addCall ⟨τ, (h.tls τ).threadId⟩).mallocMemory hm
    (decodedSize_le_mallocUsable size)).imp fun r h' hp => ?_
  rw [hp.addLive]
  exact hp.audited

/-- **`css_malloc`** -/
theorem cssMalloc {size : Word} (ha : Audited D g away live h) (hτ : τ ≠ 0) :
    Spec (cssMalloc τ size) h (fun r h' => ∃ g' away',
      Audited D g' away' (addLive live r (decodedSize size) (usableSize h' r)) h')
      fun _ => True := by
  unfold Semalloc.cssMalloc
  refine Spec.seq (ha.ensureThread hτ) ?_
  rintro - h₁ ⟨g₁, ha₁, hs⟩
  exact ha₁.mallocMemory_of_thread hs

/-- Usable sizes of blocks that stay live change by no release and no write. -/
theorem usableSize_of_served {D' : ℕ → Prop} (ha : Audited D g away live h)
    (ha' : Audited D' g' away' live' h') (hB : B ∈ live) (hB' : B' ∈ live')
    (hptr : B'.ptr = B.ptr) (hserved : h'.served = h.served) :
    usableSize h' B.ptr = usableSize h B.ptr := by
  rw [← usableSize_relist h' fun _ => 0, ← usableSize_relist h fun _ => 0]
  exact ha.inv.usableSize_of_served ha'.inv (List.mem_append_left _ hB)
    (List.mem_append_left _ hB') hptr hserved

/-- **`css_calloc`** -/
theorem cssCalloc {nmemb size : Word} (ha : Audited D g away live h) :
    Spec (cssCalloc τ nmemb size) h
      (fun r h' => ∃ g' away', Audited D g' away'
        (addLive live r (nmemb * getRealSize size).toNat (usableSize h' r)) h') fun _ => True := by
  unfold Semalloc.cssCalloc
  dsimp only
  refine Spec.bind (getThreadId_spec ?_)
  have ha₁ := ha.addCall ⟨τ, (h.tls τ).threadId⟩
  rcases hm : h.globalMemoryManager (h.tls τ).threadId with - | m
  · refine Spec.bind ?_
    unfold MemoryManager.mallocMemoryCSI
    exact Spec.bind (drainFreeList_unmanaged hm)
  by_cases hwrap : (nmemb * getRealSize size).toNat ≤ regularUsable (nmemb * getRealSize size)
  · refine Spec.seq (ha₁.mallocMemoryCSI hm (getCSI_ne_allOnes size) hwrap) fun r h₁ hp => ?_
    refine Spec.bind (poke_spec (.inr trivial) fun _ => Spec.pure ?_)
    obtain ⟨g₂, away₂, ha₂⟩ := hp.audited
    have hfill : ∀ a, fill h₁.mem r (nmemb * getRealSize size).toNat 0 a ≠ h₁.mem a →
        r ≤ a ∧ a < r + (nmemb * getRealSize size).toNat := fun a hne => by
      by_contra hout
      exact hne (fill_of_outside (by omega))
    by_cases hr : r = 0
    · -- nothing was asked for, and nothing is filled
      have hnone : fill h₁.mem r (nmemb * getRealSize size).toNat 0 = h₁.mem := by
        funext a
        by_contra hne
        have hin := hfill a hne
        have hzero : (nmemb * getRealSize size).toNat = 0 := by
          rw [hp.null hr]
          rfl
        omega
      rw [hnone, hr]
      rw [Config.addLive, if_pos hr] at ha₂
      exact ⟨g₂, away₂, ha₂⟩
    · rw [Config.addLive, if_neg hr] at ha₂
      have ha₃ := ha₂.writeBlock List.mem_cons_self fun a hne => by
        have := hfill a hne
        exact ⟨this.1, by simp only; omega⟩
      have hu := (ha₂.usableSize_of_served ha₃ List.mem_cons_self List.mem_cons_self rfl rfl).trans
        (hp.usable hr)
      refine ⟨g₂, away₂, ?_⟩
      rw [hu, Config.addLive, if_neg hr]
      exact ha₃
  · -- the rounded size wraps around, and `memset` leaves user space
    have hlarge : 2 ^ 64 - 4096 < (nmemb * getRealSize size).toNat := by
      by_contra hle
      exact hwrap (le_regularUsable (by omega))
    refine Spec.seq (ha₁.mallocMemoryCSI (n := 0) hm (getCSI_ne_allOnes size) (Nat.zero_le _))
      fun r h₁ hp => ?_
    refine Spec.bind (poke_spec (.inr trivial) fun hcov => ?_)
    obtain ⟨g₂, away₂, ha₂⟩ := hp.audited
    have hl := ha₂.layout
    have hfirst := (hl.userSpace r (covers_iff.mp hcov r le_rfl (by omega))).1
    have hlast := (hl.userSpace (r + (2 ^ 64 - 4096))
      (covers_iff.mp hcov _ (by omega) (by omega))).2
    omega

/-! ## Releases -/

/-- **`freeRegularMemory`** of a live block. -/
theorem freeRegularMemory (ha : Audited D g away live h) (hm : h.globalMemoryManager t = some m)
    (hB : B ∈ live) (hfrom : h.ServedFrom B.ptr k) :
    Spec (freeRegularMemory t B.ptr) h (fun _ h' => h'.served = h.served ∧
      ∃ g' away', Audited D g' away' (dropLive live B.ptr) h') fun _ => True := by
  refine (ha.drained hm (freeRegularMemory_drained t B.ptr)).imp ?_
  rintro ⟨⟩ h' ⟨h₁, he, hrun, hrelist⟩
  obtain ⟨g₁, away₁, ha₁, -⟩ := he.audited
  obtain ⟨⟨m₁, hm₁⟩, hdrain⟩ := he.muted
  obtain ⟨b, s, hslot⟩ := ha₁.slotLive (List.mem_append_left _ hB) (hfrom.congr he.served)
  have hspec : Spec (MemoryManager.freeRegularMemory t B.ptr) h₁.mute
      (fun _ h' => ∃ g', After .unshifted (· = B.ptr) g₁ h₁.mute (dropLive (live ++ away₁) B.ptr)
        g' h' ∧ Freed h₁.mute b s (slotSize k.sizeClass) h') fun _ => True := by
    refine freeRegularMemory_spec ha₁.inv ha₁.ready hm₁ hslot (fun hf => hf) (fun _ => trivial) ?_
    intro h₂ g' h' hrun' hafter _ hfreed
    rw [hdrain] at hrun'
    cases hrun'
    exact ⟨g', hafter, hfreed⟩
  obtain ⟨g', hafter, hfreed⟩ := hspec.of_ok hrun
  rw [ha₁.dropLive_live hB] at hafter
  exact ⟨hfreed.served.trans he.served, g', away₁,
    ha₁.freed hB hslot hafter hfreed (hafter.grows.heads hrelist)⟩

/-- **`freeRegularMemory`** of a block that was freed. -/
theorem freeRegularMemory_again {post : Unit → Heap → Prop} (ha : Audited D g away live h)
    (hm : h.globalMemoryManager k.thread = some m) (hfrom : h.ServedFrom p k)
    (hout : Outside live p) :
    Runs (MemoryManager.freeRegularMemory k.thread p) h post (Caught live) := by
  unfold MemoryManager.freeRegularMemory
  refine Runs.bind ((ha.handleFreeList hm).imp fun _ h₁ he => ?_)
  obtain ⟨g₁, away₁, ha₁, hnone⟩ := he.audited
  obtain ⟨hof, haway | hr⟩ := ha₁.header_of_freed (hfrom.congr he.served) hout
  · -- what waited for the owner was drained
    obtain ⟨A, hA, hAp⟩ := haway
    exact absurd ⟨A, hA, hAp, by rw [← hof.threadId]⟩ (hnone p)
  · have hpos := hr.pos
    obtain ⟨b, c, -, ho, hc, -, hbit⟩ := hr
    have hs := ha₁.layout.slotRange_of_reg ho hc
    have hsize := slotSize_ge c.sizeClass
    have hcov : covers h₁.maps (p - headerSize) headerSize = true :=
      ha₁.layout.slot_covers hs le_rfl (by simp only [headerSize]; omega)
    refine Runs.ite (fun hz => absurd hz hpos) fun _ => ?_
    dsimp only
    refine Runs.after_spec (peek_spec (.inl hcov) fun _ => ?_)
    simp only [hbit, Bool.not_false, if_true]
    exact Runs.bind (Runs.throw ⟨rfl, g₁, away₁, ha₁.inv⟩)

/-- A mapping goes back to the kernel. -/
theorem freeHugeMemory (ha : Audited D g away live h) (hB : B ∈ live)
    (hhuge : HugeLive g.own h.mem B) :
    Spec (freeHugeMemory B.ptr) h (fun _ h' => h'.served = h.served ∧
      ∃ g' away', Audited D g' away' (dropLive live B.ptr) h') fun _ => True := by
  have hhuge' : HugeLive g.own h.mute.mem B := hhuge
  have hspec : Spec (MemoryManager.freeHugeMemory B.ptr) h.mute
      (fun _ h' => ∃ g' maps, h' = h.mute.setMaps maps ∧
        After .unshifted (· = B.ptr) g h.mute (dropLive live B.ptr ++ away) g' h')
      fun _ => True := by
    refine freeHugeMemory_spec ha.inv ha.ready hhuge' fun g' hafter => ⟨g', _, rfl, ?_⟩
    rwa [ha.dropLive_live hB] at hafter
  refine (Oblivious.spec (fun f => freeHugeMemory_oblivious B.ptr) hspec).imp ?_
  rintro - h' ⟨-, ⟨g', maps, hmaps, hafter⟩, hrelist⟩
  have hfinal : h' = h.setMaps maps := by
    rw [hrelist, hmaps]
    change (h.mute.relist h.heads).setMaps maps = _
    rw [Heap.mute_relist]
  subst hfinal
  exact ⟨rfl, g', away, ha.unmap hB hhuge hafter⟩

/-- **The release** of a live block. -/
theorem releaseBlock (ha : Audited D g away live h) (hs : Started h τ) (hB : B ∈ live) :
    Spec (releaseBlock τ B.ptr) h (fun _ h' => h'.served = h.served ∧
      ∃ g' away', Audited D g' away' (dropLive live B.ptr) h') fun _ => True := by
  obtain ⟨-, m, hm⟩ := hs
  unfold Semalloc.releaseBlock
  dsimp only
  cases ha.inv.contents.live B (List.mem_append_left _ hB) with
  | huge hhuge =>
    have hhuge' : HugeLive g.own h.mem B := hhuge
    refine Spec.bind (peek_spec (.inl (hhuge.head_covers ha.inv.layout)) fun _ => ?_)
    rw [if_pos hhuge'.isHuge]
    exact ha.freeHugeMemory hB hhuge'
  | @slot b s c hslot =>
    have hslot' : SlotLive .unshifted g.own g.reg g.use h.mem b c s B := hslot
    have hcov := hslot'.block.head_covers ha.layout
    have hfrom := ha.servedFrom (List.mem_append_left _ hB) hslot'
    have ha₁ := ha.addCall ⟨τ, (h.tls τ).threadId⟩
    refine Spec.bind (peek_spec (.inl hcov) fun _ => ?_)
    rw [if_neg (by simp [hslot'.block.notHuge])]
    refine Spec.bind (peek_spec (.inl hcov) fun _ => ?_)
    refine Spec.bind (getThreadId_spec ?_)
    rw [hslot'.block.threadId]
    refine Spec.ite (fun _ => ?_) fun _ => ?_
    · exact ha₁.freeRegularMemory hm hB hfrom
    · obtain ⟨m', hm'⟩ := hslot'.block.owner_exists ha.layout
      have hle := hslot'.block.le_slot
      have hle' := hslot'.block.slot_le
      have hcov' : covers h.maps B.ptr 8 = true :=
        ha.layout.slot_covers (ha.layout.slotRange_of_reg hslot'.block.own hslot'.block.reg)
          (by omega) (by simp only [headerSize] at *; omega)
      unfold freeOtherThreadMemory
      refine Spec.bind (getManager_spec hm' ?_)
      refine Spec.bind (poke_spec (.inl hcov') fun _ => setManager_spec ⟨rfl, g, B :: away, ?_⟩)
      exact ha₁.pushLive hB hslot' hm'

/-- **The release** of a block that was freed: its owner fails, and another thread pushes it. -/
theorem releaseBlock_again (ha : Audited D g away live h) (hs : Started h τ)
    (hfrom : h.ServedFrom p k) (hout : Outside live p) :
    Runs (Semalloc.releaseBlock τ p) h
      (fun _ h' => (h.tls τ).threadId ≠ k.thread ∧
        ∃ g' away', Audited (fun t => D t ∨ t = k.thread) g' away' live h')
      fun e h' => (h.tls τ).threadId = k.thread ∧ Caught live e h' := by
  obtain ⟨-, m, hm⟩ := hs
  obtain ⟨hof, hrest⟩ := ha.header_of_freed hfrom hout
  obtain ⟨e, he, hk, hptr⟩ := id hfrom
  obtain ⟨hle, b, ho, hr⟩ := ha.slot_of_newest he hk hptr
  have ha₁ := ha.addCall ⟨τ, (h.tls τ).threadId⟩
  have hbyte : ∀ a, p - headerSize ≤ a → a < p + 8 → Mapped h.maps a := fun a h₁ h₂ => by
    have hown := ha.layout.slot_head ho h₁ (by simp only [headerSize] at *; omega)
    exact ha.layout.mapped a (by rw [hown]; simp)
  have hcov : covers h.maps (p - headerSize) headerSize = true :=
    covers_iff.mpr fun a h₁ h₂ => hbyte a h₁ (by omega)
  have hcov' : covers h.maps p 8 = true :=
    covers_iff.mpr fun a h₁ h₂ => hbyte a (by omega) (by omega)
  have hclean : HugeHeader.isHuge h.mem (p - headerSize) = false :=
    ha.inv.contents.clean b _ ho
  unfold Semalloc.releaseBlock
  dsimp only
  refine Runs.after_spec (peek_spec (.inl hcov) fun _ => ?_)
  rw [if_neg (by simp [hclean])]
  refine Runs.after_spec (peek_spec (.inl hcov) fun _ => ?_)
  refine Runs.after_spec (getThreadId_spec ?_)
  rw [hof.threadId]
  refine Runs.ite (fun hown => ?_) fun hother => ?_
  · rw [← hown] at hm ha₁ ⊢
    have hfail : Runs (MemoryManager.freeRegularMemory k.thread p) (h.addCall ⟨τ, k.thread⟩)
        (fun _ _ => False) (Caught live) := ha₁.freeRegularMemory_again hm hfrom hout
    exact hfail.mono (fun _ _ hf => hf.elim) fun _ _ hc => ⟨rfl, hc⟩
  · obtain ⟨-, c, -, hc, -, -, -, m', hm'⟩ := ha.layout.slot _ _ _ ho
    rw [hr] at hc
    cases hc
    unfold freeOtherThreadMemory
    refine Runs.after_spec (getManager_spec hm' ?_)
    refine Runs.after_spec (poke_spec (.inl hcov') fun _ => ?_)
    refine Runs.of_spec (setManager_spec ⟨Ne.symm hother, g, away, ?_⟩)
    rcases hrest with ⟨A, hA, rfl⟩ | hrej
    · obtain ⟨b', s, hslot⟩ := ha.slotLive (List.mem_append_right _ hA) hfrom
      exact ha₁.pushAway hA hslot hm'
    · exact ha₁.pushSpent hm' hrej hof.threadId

theorem dropLive_zero (ha : Audited D g away live h) : dropLive live 0 = live :=
  List.filter_eq_self.mpr fun B hB => by
    have := ha.inv.ptr_pos (List.mem_append_left _ hB)
    simp only [ne_eq, decide_not, Bool.not_eq_true', decide_eq_false_iff_not]
    omega

/-- **`css_free`** of a live pointer or null. -/
theorem cssFree (ha : Audited D g away live h) (hτ : τ ≠ 0)
    (hp : p = 0 ∨ ∃ B ∈ live, B.ptr = p) :
    Spec (cssFree τ p) h (fun _ h' => ∃ g' away', Audited D g' away' (dropLive live p) h')
      fun _ => True := by
  unfold Semalloc.cssFree
  refine Spec.seq (ha.ensureThread hτ) ?_
  rintro - h₁ ⟨g₁, ha₁, hs⟩
  refine Spec.ite (fun hz => Spec.pure ⟨g₁, away, ?_⟩) fun hne => ?_
  · rw [hz, ha₁.dropLive_zero]
    exact ha₁
  · obtain ⟨B, hB, rfl⟩ := hp.resolve_left hne
    exact (ha₁.releaseBlock hs hB).imp fun _ _ hr => hr.2

/-- **`css_free`** of a block that was freed, by an initialized thread. -/
theorem cssFree_again (ha : Audited D g away live h) (hs : Started h τ)
    (hfrom : h.ServedFrom p k) (hout : Outside live p) :
    Runs (Semalloc.cssFree τ p) h
      (fun _ h' => (h.tls τ).threadId ≠ k.thread ∧
        ∃ g' away', Audited (fun t => D t ∨ t = k.thread) g' away' live h')
      fun e h' => (h.tls τ).threadId = k.thread ∧ Caught live e h' := by
  have hle := (ha.header_of_freed hfrom hout).1.headerSize_le
  unfold Semalloc.cssFree
  refine Runs.after_spec (hs.ensureThread.imp ?_)
  rintro - h₁ rfl
  refine Runs.ite (fun hz => ?_) fun _ => ha.releaseBlock_again hs hfrom hout
  simp only [headerSize] at hle
  omega

theorem mono {D' : ℕ → Prop} (ha : Audited D g away live h) (hD : ∀ t, D' t → D t) :
    Audited D' g away live h :=
  ⟨ha.inv, ha.ready, ha.slots, ha.records, ha.spent, fun t => by
    obtain ⟨l, y, hlist, hy⟩ := ha.listed t
    exact ⟨l, y, hlist, fun hD' => hy (hD t hD')⟩⟩

/-- A second free by any thread, as an event of a run. -/
theorem cssFree_freed (ha : Audited D g away live h) (hτ : τ ≠ 0) (hfrom : h.ServedFrom p k)
    (hout : Outside live p) :
    Spec (Semalloc.cssFree τ p) h (fun _ h' => ∃ g' away', Audited D g' away' live h')
      fun _ => True := by
  have hle := (ha.header_of_freed hfrom hout).1.headerSize_le
  unfold Semalloc.cssFree
  refine Spec.seq ((ha.ensureThread hτ).both (quiet_ensureThread.spec h)) ?_
  rintro - h₁ ⟨⟨g₁, ha₁, hs⟩, hq⟩
  refine Spec.ite (fun hz => ?_) fun _ => ?_
  · simp only [headerSize] at hle
    omega
  · refine (ha₁.releaseBlock_again hs (hfrom.congr hq.served) hout).spec.mono ?_ fun _ _ => trivial
    rintro - h₂ ⟨-, g₂, away₂, ha₂⟩
    exact ⟨g₂, away₂, ha₂.mono fun t => .inl⟩

/-! ## Reallocation -/

/-- A block resized in place. -/
theorem resize (ha : Audited D g away live h) (hB : B ∈ live)
    (hu : cssMallocUsableSize B.ptr h.mute = .ok u h.mute) (hn : n ≤ u) :
    Audited D g away (resizeLive live B.ptr n) h := by
  have hi := ha.inv.resize hu hn
  have haway : resizeLive away B.ptr n = away := by
    refine (List.map_congr_left fun A hA => ?_).trans (List.map_id away)
    exact if_neg (ha.apart hB hA)
  have hlist : resizeLive (live ++ away) B.ptr n = resizeLive live B.ptr n ++ away := by
    rw [resizeLive, List.map_append]
    exact congrArg (_ ++ ·) haway
  rw [hlist] at hi
  refine ha.keep (z := fun _ => False) ⟨hi, ha.ready, Grows.refl _ _ _⟩ (fun _ _ hf => hf) rfl rfl
    (fun _ _ _ _ _ _ => rfl) fun q _ _ _ _ _ hq A hA => ?_
  rcases List.mem_append.mp hA with hA | hA
  · have hres := hq _ (List.mem_append_left _ (List.mem_map_of_mem hA))
    split at hres
    · exact hres
    · exact hres
  · exact hq A (List.mem_append_right _ hA)

/-- A block that takes the place of another one. -/
theorem moveBlock {size : Word} {oldSize : ℕ} (ha : Audited D g away live h) (hs : Started h τ)
    (hτ : τ ≠ 0) (hB : B ∈ live) (hsize : oldSize < (getRealSize size).toNat) :
    Spec (do
      let newObject ← MemoryManager.mallocMemory (← getThreadId τ) size
      peek B.ptr oldSize fun _ => ()
      poke newObject oldSize (copy · newObject B.ptr oldSize)
      Semalloc.releaseBlock τ B.ptr
      return newObject) h
      (fun r h' => ∃ g' away', Audited D g' away' (reallocLive live B.ptr size r h') h')
      fun _ => True := by
  have hd := realSize_le_decodedSize size
  have hu := decodedSize_le_mallocUsable size
  obtain ⟨htid, m, hm⟩ := hs
  refine Spec.bind (getThreadId_spec ?_)
  have ha₀ := ha.addCall ⟨τ, (h.tls τ).threadId⟩
  refine Spec.seq (ha₀.mallocMemory hm hu) fun r h₁ hp => ?_
  have hr : r ≠ 0 := fun hz => by
    rw [(hp.null hz).2] at hsize
    exact absurd hsize (Nat.not_lt_zero _)
  refine Spec.bind (peek_spec (.inr trivial) fun _ => ?_)
  refine Spec.bind (poke_spec (.inr trivial) fun _ => ?_)
  obtain ⟨g₁, away₁, ha₁⟩ := hp.audited
  rw [Config.addLive, if_neg hr] at ha₁
  have hne : B.ptr ≠ r := by
    have hout := ha₁.inv.outside
    exact hout B (List.mem_append_left _ hB)
  have hcopy : ∀ a, copy h₁.mem r B.ptr oldSize a ≠ h₁.mem a →
      r ≤ a ∧ a < r + mallocUsable size := fun a hchanged => by
    by_contra hout
    exact hchanged (copy_of_outside (by omega))
  have ha₂ := ha₁.writeBlock List.mem_cons_self hcopy
  have hs₂ : Started (h₁.setMem (copy h₁.mem r B.ptr oldSize)) τ := by
    have htls : h₁.tls τ = h.tls τ := hp.thread τ htid
    refine ⟨by rw [Heap.setMem_tls, htls]; exact htid, ?_⟩
    exact ha₂.layout.thread τ hτ (by rw [Heap.setMem_tls, htls]; exact htid)
  refine Spec.seq (ha₂.releaseBlock hs₂ (List.mem_cons_of_mem _ hB)) ?_
  rintro - h₃ ⟨hserved, g₃, away₃, ha₃⟩
  have hdrop : dropLive (⟨r, decodedSize size, mallocUsable size⟩ :: live) B.ptr =
      ⟨r, decodedSize size, mallocUsable size⟩ :: dropLive live B.ptr :=
    List.filter_cons_of_pos (by simpa using hne.symm)
  rw [hdrop] at ha₃
  have hur := (ha₂.usableSize_of_served ha₃ List.mem_cons_self List.mem_cons_self rfl hserved).trans
    ((ha₁.usableSize_of_served ha₂ List.mem_cons_self List.mem_cons_self rfl rfl).trans
      (hp.usable hr))
  refine Spec.pure ⟨g₃, away₃, ?_⟩
  rw [reallocLive, if_neg hne.symm, hur, Config.addLive, if_neg hr]
  exact ha₃

/-- **`css_realloc`** of a live pointer or null. -/
theorem cssRealloc {size : Word} (ha : Audited D g away live h) (hτ : τ ≠ 0)
    (hp : p = 0 ∨ ∃ B ∈ live, B.ptr = p) :
    Spec (cssRealloc τ p size) h
      (fun r h' => ∃ g' away', Audited D g' away' (reallocLive live p size r h') h')
      fun _ => True := by
  unfold Semalloc.cssRealloc
  refine Spec.seq (ha.ensureThread hτ) ?_
  rintro - h₁ ⟨g₁, ha₁, hs⟩
  by_cases hz : p = 0
  · -- an allocation
    rw [if_pos hz]
    refine (ha₁.mallocMemory_of_thread hs).imp fun r h₂ hr => ?_
    have hresize : resizeLive live 0 (getRealSize size).toNat = live := by
      refine (List.map_congr_left fun B hB => ?_).trans (List.map_id live)
      have := ha.inv.ptr_pos (List.mem_append_left _ hB)
      exact if_neg (by omega)
    have hlive : reallocLive live p size r h₂ =
        addLive live r (decodedSize size) (usableSize h₂ r) := by
      rw [reallocLive, hz, hresize, ha.dropLive_zero, Config.addLive]
      split <;> rfl
    rw [hlive]
    exact hr
  obtain ⟨B, hB, rfl⟩ := hp.resolve_left hz
  rw [if_neg hz]
  refine Spec.ite (fun _ => ?_) fun _ => ?_
  · -- a release
    refine Spec.seq (ha₁.cssFree hτ (.inr ⟨B, hB, rfl⟩)) ?_
    rintro - h₂ hr
    refine Spec.pure ?_
    rw [reallocLive, if_neg (Ne.symm hz), Config.addLive, if_pos rfl]
    exact hr
  · obtain ⟨hu, -⟩ := (ha₁.inv.contents.live B (List.mem_append_left _ hB)).usable ha₁.inv.layout
    have hold : Spec (cssMallocUsableSize B.ptr) h₁
        (fun n h₂ => n = usableSize h₁.mute B.ptr ∧ h₂ = h₁) fun _ => True := by
      unfold Spec
      rw [cssMallocUsableSize_of_mute hu]
      exact ⟨rfl, rfl⟩
    refine Spec.seq hold ?_
    rintro oldSize h₂ ⟨rfl, rfl⟩
    dsimp only
    refine Spec.ite (fun hle => Spec.pure ⟨g₁, away, ?_⟩) fun hlt => ?_
    · rw [reallocLive, if_pos rfl]
      exact ha₁.resize hB hu hle
    · exact ha₁.moveBlock hs hτ hB (by omega)

end Audited

end Semalloc
