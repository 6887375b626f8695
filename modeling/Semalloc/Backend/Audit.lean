import Semalloc.Backend.Relisting
import Semalloc.Backend.Integrity
import Semalloc.Backend.Supply

/-!
# Remote free lists with blocks freed twice

A block that is pushed on a remote free list a second time turns the list into a loop, and a block
that was drained before is met with its allocation bit clear. In both cases the drain fails its
double-free check. Until then nothing else may go wrong, so the invariant of the heap is stated of
the muted process, in which no block waits on a remote free list: those that do, and those that such
a list lost, count as live. What the lists hold is stated beside it.

## Main definitions

* `Listed`: a remote free list, up to the null link, to a loop, or to a pointer that fails the check
* `Spent`: the header of a slot whose block was given back
* `Audited`: the muted process satisfies the invariant, and the lists and headers are in order

## Main results

* `Inv.writeData`: data of any slot may be written
* `Listed.transport`: a list whose blocks are left alone
* `Audited.advance`: a step that leaves the lists alone
-/

set_option autoImplicit false

namespace Semalloc

open ByteMemory Region Effect MemoryManager Config

variable {P : Promise} {g g' : Ghost} {live live' away away' : List Block} {h h' : Heap}
  {B : Block} {D : ℕ → Prop} {m m' : ByteMemory} {x y t : ℕ} {l : List ℕ}

/-! ## The muted process -/

theorem Layout.relist {own : ℕ → Owner} {reg : ℕ → Option Compartment} (hl : Layout own reg h)
    (f : ℕ → ℕ) : Layout own reg (h.relist f) where
  excluded := hl.excluded
  mapped := hl.mapped
  userSpace := hl.userSpace
  bibop := hl.bibop
  known := hl.known
  slot a b s ha := by
    obtain ⟨hsa, c, B, hc, hB, has, hok, m, hm⟩ := hl.slot a b s ha
    exact ⟨hsa, c, B, hc, hB, has, hok, _, Heap.manager_relist hm⟩
  manager t m' hm' := by
    obtain ⟨m, hm, rfl⟩ := Heap.manager_of_relist hm'
    exact (hl.manager t m hm).setFreeList
  thread τ hτ hτ' := by
    obtain ⟨m, hm⟩ := hl.thread τ hτ hτ'
    exact ⟨_, Heap.manager_relist hm⟩
  unborn t ht := by simp [hl.unborn t ht]

/-- In the muted process nothing is pending. -/
theorem Inv.pending_eq_nil (hi : Inv P g live h.mute) (t : ℕ) : g.pending t = [] := by
  rcases hm : h.mute.globalMemoryManager t with - | m
  · exact hi.contents.pendingUnborn t hm
  · obtain ⟨m', -, rfl⟩ := Heap.manager_of_relist hm
    exact (hi.contents.pendingChain t _ hm).head_eq_zero.mp rfl

/-- Blocks that are not shifted are the whole data of their slot. -/
theorem SlotBlock.whole {own : ℕ → Owner} {reg : ℕ → Option Compartment} {b s p : ℕ}
    {c : Compartment} (hp : SlotBlock .unshifted own reg m b c s p) : p = s + headerSize ∧
      RegularHeader.isRegular m (p - headerSize) = true ∧
      RegularHeader.isAllocation m (p - headerSize) = true ∧
      RegularHeader.memalignOffset m (p - headerSize) = 0 :=
  hp.kind.resolve_right fun hk => hk.1

/-- **Writes after the headers** of slots keep the invariant, whatever the slots are used for. -/
theorem Inv.writeData (hi : Inv .unshifted g live h.mute)
    (hm : ∀ a, m' a ≠ h.mem a → ∃ b s, g.own a = .slot b s ∧ s + headerSize ≤ a) :
    Inv .unshifted g live (h.setMem m').mute := by
  have hl := hi.layout
  have hc := hi.contents
  have hsame : ∀ b s, g.own s = .slot b s → SameHeader h.mem m' s := by
    rintro b s hs a ⟨h₁, h₂⟩
    by_contra hne
    obtain ⟨b', s', ho, hle⟩ := hm a hne
    rw [hl.slot_head hs h₁ (by omega)] at ho
    cases ho
    simp only [headerSize] at hle
    omega
  refine hi.setMem (fun a ha => ?_) (fun b s hs => ?_) (fun b s hs => ?_) (fun t p hp => ?_)
    fun B hB => ?_
  · by_contra hne
    obtain ⟨b, s, ho, -⟩ := hm a hne
    rw [ho] at ha
    exact ha
  · exact (hsame b s hs).isHuge.trans (hc.clean b s hs)
  · exact hsame b s (hc.freeSlot b s hs).1
  · rw [hi.pending_eq_nil t] at hp
    cases hp
  · cases hc.live B hB with
    | @slot b s c hB =>
      have hs := hsame b s hB.block.own
      rwa [hB.block.whole.1, Nat.add_sub_cancel]
    | huge hB =>
      have hge := hB.ptr_ge
      rintro a ⟨h₁, h₂⟩
      by_contra hne
      obtain ⟨b, s, ho, -⟩ := hm a hne
      rw [hB.own a (by simp only [headerSize, pageSize] at *; omega)
        (by simp only [headerSize, pageSize] at *; omega)] at ho
      cases ho

/-- A program that does not look at the heads does not lose them either. -/
theorem Grows.heads {x : ℕ → Prop} (hg : Grows x g h.mute g' h'.mute)
    (hrelist : h' = h'.mute.relist h.heads) : h'.heads = h.heads := by
  funext t
  rcases hm : h.globalMemoryManager t with - | m
  · rcases hm' : h'.globalMemoryManager t with - | m'
    · rw [Heap.heads_of_none hm, Heap.heads_of_none hm']
    · have hmute : h'.mute.globalMemoryManager t = _ := Heap.manager_relist hm'
      have hback : (h'.mute.relist h.heads).globalMemoryManager t = _ := Heap.manager_relist hmute
      rw [← hrelist] at hback
      exact Heap.heads_eq hback
  · obtain ⟨m', hm'⟩ := hg.manager t _ (Heap.manager_relist hm)
    have hback : (h'.mute.relist h.heads).globalMemoryManager t = _ := Heap.manager_relist hm'
    rw [← hrelist] at hback
    exact Heap.heads_eq hback

/-! ## The lists -/

/-- A block of the manager at `t` waits for its drain. -/
def Waits (away : List Block) (m : ByteMemory) (t p : ℕ) : Prop :=
  ∃ B ∈ away, B.ptr = p ∧ RegularHeader.threadId m (p - headerSize) = t

/-- The pointer fails the double-free check of the manager at `t`. -/
def Rejected (g : Ghost) (m : ByteMemory) (t y : ℕ) : Prop :=
  ∃ b c, headerSize ≤ y ∧ g.own (y - headerSize) = .slot b (y - headerSize) ∧
    g.reg b = some c ∧ c.thread = t ∧ RegularHeader.isAllocation m (y - headerSize) = false

/-- The remote free list of the manager at `t`: from `head` it leads through the waiting blocks `l`
to `y`. Either `y` is null and no other block waits, or the drain will fail at `y`. -/
structure Listed (g : Ghost) (away : List Block) (m : ByteMemory) (t head : ℕ) (l : List ℕ)
    (y : ℕ) : Prop where
  segment : Segment (link m) head l y
  nodup : l.Nodup
  waits : ∀ p ∈ l, Waits away m t p
  stop : (y = 0 ∧ ∀ p, Waits away m t p → p ∈ l) ∨ y ∈ l ∨ Rejected g m t y

/-- A list whose blocks keep their headers and links. -/
theorem Listed.transport {head : ℕ} (hl : Listed g away m t head l y)
    (hbytes : ∀ p ∈ l, SameHeader m m' (p - headerSize) ∧ link m' p = link m p)
    (hkeep : ∀ p ∈ l, ∀ B ∈ away, B.ptr = p → ∃ B' ∈ away', B'.ptr = p)
    (hall : ∀ p, Waits away' m' t p → Waits away m t p)
    (hreject : Rejected g m t y → Rejected g' m' t y) : Listed g' away' m' t head l y where
  segment := hl.segment.congr fun p hp => (hbytes p hp).2
  nodup := hl.nodup
  waits p hp := by
    obtain ⟨B, hB, hptr, hthread⟩ := hl.waits p hp
    obtain ⟨B', hB', hptr'⟩ := hkeep p hp B hB hptr
    exact ⟨B', hB', hptr', (hbytes p hp).1.threadId.trans hthread⟩
  stop := hl.stop.imp (fun hnull => ⟨hnull.1, fun p hp => hnull.2 p (hall p hp)⟩)
    (Or.imp_right hreject)

/-! ## The audit -/

/-- The header of a slot of the manager at `t` whose block was given back. -/
structure Spent (m : ByteMemory) (t p : ℕ) : Prop where
  idle : RegularHeader.isAllocation m (p - headerSize) = false
  threadId : RegularHeader.threadId m (p - headerSize) = t

/-- **The audit** of a process in which the drains of the managers in `D` are going to fail. The
blocks `away` were freed, but not by a drain. -/
structure Audited (D : ℕ → Prop) (g : Ghost) (away live : List Block) (h : Heap) : Prop where
  inv : Inv .unshifted g (live ++ away) h.mute
  ready : Ready h
  slots : ∀ B ∈ away, ∃ b c s, SlotLive .unshifted g.own g.reg g.use h.mem b c s B
  records : ∀ e ∈ h.served, ∀ c, e.origin = .pool c → e.ptr = e.range.base + headerSize
  spent : ∀ p e c, h.newest (p - headerSize) = some e → e.origin = .pool c → e.ptr = p →
    Outside (live ++ away) p → Spent h.mem c.thread p
  listed : ∀ t, ∃ l y, Listed g away h.mem t (h.heads t) l y ∧ (D t → y ≠ 0)

/-- Slots keep their headers, but for those of the blocks in `x`. -/
def Still (g : Ghost) (x : ℕ → Prop) (m m' : ByteMemory) : Prop :=
  ∀ b s, g.own s = .slot b s → ¬ x (s + headerSize) → SameHeader m m' s

theorem Rejected.still {x : ℕ → Prop} (hr : Rejected g m t y) (hs : Still g x m m') (hx : ¬ x y)
    (hg : Grows (fun _ => True) g h g' h') : Rejected g' m' t y := by
  obtain ⟨b, c, hle, ho, hc, ht, ha⟩ := hr
  have hsame := hs b _ ho (by rwa [Nat.sub_add_cancel hle])
  exact ⟨b, c, hle, hg.slot _ _ _ ho, hg.reg b c hc, ht, hsame.isAllocation.trans ha⟩

theorem Rejected.pos (hr : Rejected g m t y) : y ≠ 0 := by
  obtain ⟨b, c, hle, -⟩ := hr
  rintro rfl
  simp [headerSize] at hle

theorem Spent.still {x : ℕ → Prop} {p b : ℕ} (hp : Spent m t p) (hs : Still g x m m')
    (hle : headerSize ≤ p) (ho : g.own (p - headerSize) = .slot b (p - headerSize))
    (hx : ¬ x p) : Spent m' t p := by
  have hsame := hs b _ ho (by rwa [Nat.sub_add_cancel hle])
  exact ⟨hsame.isAllocation.trans hp.idle, hsame.threadId.trans hp.threadId⟩

/-- A block that an operation spares keeps its header and its link. -/
theorem SlotLive.bytes {x : ℕ → Prop} {h₁ h₁' : Heap} {b s : ℕ} {c : Compartment}
    (hB : SlotLive P g.own g.reg g.use m b c s B) (hl : Layout g.own g.reg h₁)
    (hg : Grows x g h₁ g' h₁') (hx : ¬ x B.ptr) :
    SameHeader h₁.mem h₁'.mem (B.ptr - headerSize) ∧ link h₁'.mem B.ptr = link h₁.mem B.ptr := by
  have hle := hB.block.slot_le
  have hbyte : ∀ a, B.ptr - headerSize ≤ a → a < B.ptr + headerSize →
      h₁'.mem a = h₁.mem a := fun a ha ha' =>
    hg.held a B.ptr (.slot (hB.block.head_own hl ha ha') hB.use) hx
  simp only [headerSize] at hle hbyte ⊢
  constructor
  · rintro a ⟨ha, ha'⟩
    exact hbyte a ha (by omega)
  · exact readLE_congr fun a ha ha' => hbyte a (by omega) (by omega)

/-- The headers of slots are mapped. -/
theorem Layout.header_mapped {own : ℕ → Owner} {reg : ℕ → Option Compartment}
    (hl : Layout own reg h) {b s a : ℕ} (hs : own s = .slot b s) (h₁ : s ≤ a) (h₂ : a < s + 16) :
    Mapped h.maps a := by
  have ho := hl.slot_head hs h₁ (by omega)
  exact hl.mapped a (by rw [ho]; simp)

/-- The first call of a thread writes no mapped byte. -/
theorem quiet_ensureThread {τ : ℕ} : Keeps Quiet (ensureThread τ) := by
  have hR := quiet_housekeeping
  have hsame : ∀ f : Heap → Heap, (∀ h, (f h).served = h.served ∧ (f h).maps = h.maps ∧
      (f h).mem = h.mem) → Keeps Quiet (modify f : Proc PUnit) := fun f hf =>
    .modify fun h => ⟨(hf h).1, fun a ha => by rwa [(hf h).2.1], fun a _ => by rw [(hf h).2.2]⟩
  unfold ensureThread initThread
  refine hR.bind (.get hR.refl) fun h => .ite ?_ (hR.pure _)
  refine hR.bind (.get hR.refl) fun h₁ => hR.bind (hsame _ fun _ => ⟨rfl, rfl, rfl⟩) fun _ => ?_
  refine hR.bind (hR.allocateMemoryManager _) fun m => .ite (hR.bind (hR.throw _) fun _ => ?_) ?_
  all_goals exact hR.bind (hR.setManager _ _) fun _ => hsame _ fun _ => ⟨rfl, rfl, rfl⟩

namespace Audited

/-- The record of the last block of a slot leads to the slot. -/
theorem slot_of_newest (ha : Audited D g away live h) {p : ℕ} {e : Served} {c : Compartment}
    (he : h.newest (p - headerSize) = some e) (hc : e.origin = .pool c) (hp : e.ptr = p) :
    headerSize ≤ p ∧ ∃ b, g.own (p - headerSize) = .slot b (p - headerSize) ∧
      g.reg b = some c := by
  have hmem := Heap.newest_mem he
  have hptr := ha.records e hmem c hc
  obtain ⟨b, hr, ho, -⟩ := ha.inv.history.origin e hmem c hc
  have hbase : e.range.base = p - headerSize := by omega
  rw [hbase] at ho
  exact ⟨by omega, b, ho, hr⟩

/-- **A step that leaves the lists alone** and the blocks on them. -/
theorem advance {x z : ℕ → Prop} (ha : Audited D g away live h)
    (hafter : After .unshifted z g h.mute (live' ++ away) g' h'.mute)
    (hz : ∀ B ∈ away, ¬ z B.ptr) (hheads : h'.heads = h.heads)
    (hrecords : ∀ e ∈ h'.served, ∀ c, e.origin = .pool c → e.ptr = e.range.base + headerSize)
    (hstill : Still g x h.mem h'.mem)
    (hreject : ∀ t y, h.heads t ≠ 0 → Rejected g h.mem t y → ¬ x y)
    (hspent : ∀ p e c, h'.newest (p - headerSize) = some e → e.origin = .pool c → e.ptr = p →
      Outside (live' ++ away) p → Spent h'.mem c.thread p) : Audited D g' away live' h' := by
  have hbytes : ∀ B ∈ away, SameHeader h.mem h'.mem (B.ptr - headerSize) ∧
      link h'.mem B.ptr = link h.mem B.ptr := fun B hB => by
    obtain ⟨b, c, s, hslot⟩ := ha.slots B hB
    have hkept := hslot.bytes ha.inv.layout hafter.grows (hz B hB)
    exact hkept
  refine ⟨hafter.inv, hafter.ready, fun B hB => ?_, hrecords, hspent, fun t => ?_⟩
  · obtain ⟨b, c, s, hslot⟩ := ha.slots B hB
    have hslot : SlotLive .unshifted g.own g.reg g.use h.mute.mem b c s B := hslot
    have hslot' := hslot.grows ha.inv.layout hafter.grows (hz B hB)
    exact ⟨b, c, s, hslot'⟩
  · obtain ⟨l, y, hlist, hy⟩ := ha.listed t
    rw [hheads]
    refine ⟨l, y, hlist.transport (fun p hp => ?_) (fun p _ B hB hptr => ⟨B, hB, hptr⟩)
      (fun p hp => ?_) fun hr => ?_, hy⟩
    · obtain ⟨B, hB, rfl, -⟩ := hlist.waits p hp
      exact hbytes B hB
    · obtain ⟨B, hB, rfl, hthread⟩ := hp
      exact ⟨B, hB, rfl, (hbytes B hB).1.threadId.symm.trans hthread⟩
    · refine hr.still hstill (hreject t y (fun hzero => ?_) hr) (hafter.grows.mono fun _ _ => trivial)
      have hseg := hlist.segment
      rw [hzero] at hseg
      exact hr.pos hseg.of_zero.2

/-! ## Steps that leave the lists alone -/

/-- A waiting block is not one of the clients. -/
theorem apart (ha : Audited D g away live h) {A : Block} (hB : B ∈ live) (hA : A ∈ away) :
    A.ptr ≠ B.ptr := by
  have hnodup := ha.inv.contents.liveNodup
  rw [List.map_append, List.nodup_append] at hnodup
  exact (hnodup.2.2 B.ptr (List.mem_map_of_mem hB) A.ptr (List.mem_map_of_mem hA)).symm

/-- A pointer whose last record is the same keeps its header, unless it is in `x`. -/
theorem spent_of_still (ha : Audited D g away live h) {x : ℕ → Prop} {p : ℕ} {e : Served}
    {c : Compartment} (hstill : Still g x h.mem h'.mem) (hx : ¬ x p)
    (he : h.newest (p - headerSize) = some e) (hc : e.origin = .pool c) (hp : e.ptr = p)
    (hout : Outside (live ++ away) p) : Spent h'.mem c.thread p := by
  obtain ⟨hle, b, ho, -⟩ := ha.slot_of_newest he hc hp
  exact (ha.spent p e c he hc hp hout).still hstill hle ho hx

/-- **A step that hands nothing out** and changes no header of a slot. -/
theorem keep {z : ℕ → Prop} (ha : Audited D g away live h)
    (hafter : After .unshifted z g h.mute (live' ++ away) g' h'.mute)
    (hz : ∀ B ∈ away, ¬ z B.ptr) (hheads : h'.heads = h.heads) (hserved : h'.served = h.served)
    (hstill : Still g (fun _ => False) h.mem h'.mem)
    (hout : ∀ p e c, h.newest (p - headerSize) = some e → e.origin = .pool c → e.ptr = p →
      Outside (live' ++ away) p → Outside (live ++ away) p) : Audited D g' away live' h' := by
  refine ha.advance hafter hz hheads (by rw [hserved]; exact ha.records) hstill
    (fun _ _ _ _ hf => hf) fun p e c he hc hp hp' => ?_
  have hnewest : h'.newest (p - headerSize) = h.newest (p - headerSize) := by
    unfold Heap.newest
    rw [hserved]
  rw [hnewest] at he
  exact ha.spent_of_still hstill (fun hf => hf) he hc hp (hout p e c he hc hp hp')

theorem still_of_quiet (ha : Audited D g away live h)
    (hm : ∀ a, Mapped h.maps a → h'.mem a = h.mem a) :
    Still g (fun _ => False) h.mem h'.mem := by
  rintro b s ho - a ⟨h₁, h₂⟩
  exact hm a (ha.inv.layout.header_mapped ho h₁ h₂)

theorem addCall (ha : Audited D g away live h) (u : ManagerCall) :
    Audited D g away live (h.addCall u) := by
  obtain ⟨hi, hg⟩ := ha.inv.addCall (x := Spared) u
  have hafter : After .unshifted Spared g h.mute (live ++ away) g (h.addCall u).mute :=
    ⟨hi, ha.ready, hg⟩
  refine ha.keep hafter (fun _ _ hf => hf) rfl rfl ?_ fun _ _ _ _ _ _ hp => hp
  exact ha.still_of_quiet fun _ _ => rfl

/-- **A write of a client** inside its block. -/
theorem writeBlock (ha : Audited D g away live h) (hB : B ∈ live)
    (hm : ∀ a, m' a ≠ h.mem a → B.ptr ≤ a ∧ a < B.ptr + B.limit) :
    Audited D g away live (h.setMem m') := by
  have hB' : B ∈ live ++ away := List.mem_append_left _ hB
  have hl := ha.inv.layout
  obtain ⟨hi, hg⟩ := ha.inv.writeBlock hB' hm
  have hafter : After .unshifted (· = B.ptr) g h.mute (live ++ away) g (h.setMem m').mute :=
    ⟨hi, ha.ready, hg⟩
  refine ha.keep hafter (fun A hA => ha.apart hB hA) rfl rfl ?_ fun _ _ _ _ _ _ hp => hp
  rintro b s ho - a ⟨h₁, h₂⟩
  by_contra hne
  obtain ⟨hscratch, hheld⟩ : Scratch g (live ++ away) a ∧ Held g a B.ptr :=
    (ha.inv.contents.live B hB').scratch hl (hm a hne).1 (hm a hne).2
  have hslot := hl.slot_head ho h₁ (by omega)
  cases hscratch with
  | limbo ho' hu =>
    cases hheld with
    | slot ho'' hu' =>
      rw [ho'] at ho''
      cases ho''
      rw [hu] at hu'
      cases hu'
    | huge ho'' => rw [ho'] at ho''; cases ho''
  | data ho' _ hs =>
    rw [hslot] at ho'
    cases ho'
    omega
  | huge ho' => rw [hslot] at ho'; cases ho'

/-- **An allocation** by a manager whose list is empty. -/
theorem supply (ha : Audited D g away live h) {i r : ℕ} (hempty : h.heads i = 0)
    (hafter : After .unshifted Spared g h.mute (live' ++ away) g' h'.mute)
    (hsup : Supplied i h.mute r h'.mute) (hr : r ≠ 0 → ∃ B ∈ live', B.ptr = r)
    (hsub : ∀ B ∈ live, ∃ B' ∈ live', B'.ptr = B.ptr) (hheads : h'.heads = h.heads) :
    Audited D g' away live' h' := by
  have hspared : ∀ B ∈ away, ¬ Spared B.ptr := fun _ _ hf => hf
  have hout : ∀ p, Outside (live' ++ away) p → Outside (live ++ away) p := by
    intro p hp B hB
    rcases List.mem_append.mp hB with hB | hB
    · obtain ⟨B', hB', hptr⟩ := hsub B hB
      rw [← hptr]
      exact hp B' (List.mem_append_left _ hB')
    · exact hp B (List.mem_append_right _ hB)
  cases hsup with
  | none hq =>
    exact ha.keep hafter hspared hheads hq.served (ha.still_of_quiet hq.mem)
      fun p _ _ _ _ _ hp => hout p hp
  | @some e hserved hptr hpool hmem =>
    have hserved : h'.served = e :: h.served := hserved
    have hmem' : e ∈ h'.served := by
      rw [hserved]
      exact List.mem_cons_self
    -- a byte of a slot in the range of a slot record is a byte of that slot
    have hbase : ∀ {c b s a}, e.origin = .pool c → g.own a = .slot b s → e.range.Contains a →
        e.range.base = s ∧ g'.reg b = some c := by
      intro c b s a hc ho hin
      obtain ⟨b', hr', ho', hlen⟩ := hafter.inv.history.origin e hmem' c hc
      have hrange := (hafter.inv.layout.slotRange_of_reg ho' hr').own a hin.1
        (by rw [← hlen]; exact hin.2)
      rw [hafter.grows.slot _ _ _ ho] at hrange
      cases hrange
      exact ⟨rfl, hr'⟩
    have hstill : Still g (fun p => (∃ c, e.origin = .pool c) ∧ p = r) h.mem h'.mem := by
      rintro b s ho hx a ⟨h₁, h₂⟩
      rcases hmem a (ha.inv.layout.header_mapped ho h₁ h₂) with hsame | ⟨⟨c, hc⟩, hin⟩
      · exact hsame
      · refine absurd ⟨⟨c, hc⟩, ?_⟩ hx
        have hslot := ha.inv.layout.slot_head ho h₁ (by omega)
        rw [← hptr, (hpool c hc).2, (hbase hc hslot hin).1]
    refine ha.advance hafter hspared hheads ?_ hstill ?_ ?_
    · intro e' he' c hc
      rw [hserved] at he'
      rcases List.mem_cons.mp he' with rfl | he'
      · exact (hpool c hc).2
      · exact ha.records e' he' c hc
    · -- the new slot is one of the manager at `i`, whose list is empty
      rintro t y hne ⟨b, k, hle, ho, hk, ht, -⟩ ⟨⟨c, hc⟩, hy⟩
      obtain ⟨hthread, heq⟩ := hpool c hc
      have hy' : e.range.base = y - headerSize := by omega
      obtain ⟨b', hr', ho', hlen⟩ := hafter.inv.history.origin e hmem' c hc
      have hslot := hafter.grows.slot _ _ _ ho
      rw [← hy', ho'] at hslot
      cases hslot
      rw [hafter.grows.reg b k hk] at hr'
      cases hr'
      rw [← ht, hthread] at hne
      exact hne hempty
    · intro p e' c he' hc hp hp'
      have hnewest : h'.newest (p - headerSize) =
          if e.range.Contains (p - headerSize) then some e else h.newest (p - headerSize) := by
        unfold Heap.newest
        rw [hserved, List.find?_cons]
        by_cases hin : e.range.Contains (p - headerSize) <;> simp [hin]
      rw [hnewest] at he'
      have hnotnew : (∃ c, e.origin = .pool c) → p ≠ r := by
        rintro ⟨c, hc⟩ rfl
        obtain ⟨B, hB, hB'⟩ := hr (by
          have := (hpool c hc).2
          simp only [headerSize] at this
          omega)
        exact hp' B (List.mem_append_left _ hB) hB'
      split at he'
      · cases he'
        exact absurd (hp.symm.trans hptr) (hnotnew ⟨c, hc⟩)
      · exact ha.spent_of_still hstill (fun hx => hnotnew hx.1 hx.2) he' hc hp (hout p hp')

/-! ## The calling thread -/

theorem heads_unborn (ha : Audited D g away live h) : h.heads h.threadBump = 0 := by
  rcases hm : h.globalMemoryManager h.threadBump with - | m
  · exact Heap.heads_of_none hm
  · have hunborn := ha.inv.layout.unborn h.threadBump le_rfl
    have hborn : h.mute.globalMemoryManager h.threadBump = _ := Heap.manager_relist hm
    rw [hunborn] at hborn
    cases hborn

/-- **The first call** of a thread. -/
theorem ensureThread {τ : ℕ} (ha : Audited D g away live h) (hτ : τ ≠ 0) :
    Spec (ensureThread τ) h (fun _ h' => ∃ g', Audited D g' away live h' ∧ Started h' τ)
      fun _ => True := by
  have hmuted := muted_spec (m := Semalloc.ensureThread τ) (h := h) ?_ ?_
    (ensureThread_spec ha.inv ha.ready hτ).any
  · refine (hmuted.both (quiet_ensureThread.spec h)).imp ?_
    rintro - h' ⟨⟨-, ⟨g', hafter, hs⟩, hrelist⟩, hq⟩
    refine ⟨g', ha.keep hafter (fun _ _ hf => hf) (hafter.grows.heads hrelist)
      hq.served (ha.still_of_quiet hq.mem) fun _ _ _ _ _ _ hp => hp, hs.1, ?_⟩
    obtain ⟨m, hm⟩ := hs.2
    obtain ⟨m', hm', -⟩ := Heap.manager_of_relist hm
    exact ⟨m', hm'⟩
  · have hrun := ensureThread_relist (h := h.mute) τ (f := h.heads) ha.heads_unborn
    rwa [Heap.mute_relist] at hrun
  · have hrun := ensureThread_relist (h := h.mute) τ (f := fun _ => 0) rfl
    change Semalloc.ensureThread τ h.mute.mute = _ at hrun
    rwa [Heap.mute_mute] at hrun

/-! ## Releases -/

theorem dropLive_live (ha : Audited D g away live h) (hB : B ∈ live) :
    dropLive (live ++ away) B.ptr = dropLive live B.ptr ++ away := by
  have haway : dropLive away B.ptr = away :=
    List.filter_eq_self.mpr fun A hA => by simpa using ha.apart hB hA
  rw [dropLive, List.filter_append]
  exact congrArg (_ ++ ·) haway

theorem dropLive_away (ha : Audited D g away live h) (hB : B ∈ away) :
    dropLive (live ++ away) B.ptr = live ++ dropLive away B.ptr := by
  have hlive : dropLive live B.ptr = live :=
    List.filter_eq_self.mpr fun A hA => by simpa using (ha.apart hA hB).symm
  rw [dropLive, List.filter_append]
  exact congrArg (· ++ _) hlive

/-- A mapping is unmapped. -/
theorem unmap (ha : Audited D g away live h) (hB : B ∈ live) (hhuge : HugeLive g.own h.mem B)
    {maps : List Region}
    (hafter : After .unshifted (· = B.ptr) g h.mute (dropLive live B.ptr ++ away) g'
      (h.setMaps maps).mute) : Audited D g' away (dropLive live B.ptr) (h.setMaps maps) := by
  refine ha.keep hafter (fun A hA => ha.apart hB hA) rfl rfl (fun _ _ _ _ _ _ => rfl) ?_
  intro p e c he hc hp hp' B' hB'
  rcases List.mem_append.mp hB' with hB' | hB'
  · by_cases heq : B'.ptr = B.ptr
    · -- the record of a mapping is not one of a slot
      rintro rfl
      obtain ⟨-, b, ho, -⟩ := ha.slot_of_newest he hc hp
      have hge := hhuge.ptr_ge
      rw [heq, hhuge.own (B.ptr - headerSize) (by simp only [headerSize, pageSize] at *; omega)
        (by simp only [headerSize, pageSize] at *; omega)] at ho
      cases ho
    · exact hp' B' (List.mem_append_left _ (List.mem_filter.mpr ⟨hB', by simpa using heq⟩))
  · exact hp' B' (List.mem_append_right _ hB')

end Audited

/-! ## Slots given back -/

section Freed

variable {b s n : ℕ} {c : Compartment}

theorem Freed.served (hf : Freed h b s n h') : h'.served = h.served := by
  obtain ⟨B, m₁, -, -, rfl⟩ := hf
  rfl

theorem Freed.mem_eq (hf : Freed h b s n h') (hn : headerSize ≤ n) {a : ℕ}
    (ha : a < s ∨ s + n ≤ a ∨ s + 8 ≤ a ∧ a < s + 14 ∨ a = s + 15) : h'.mem a = h.mem a := by
  obtain ⟨B, m₁, -, hm₁, rfl⟩ := hf
  simp only [headerSize] at hn
  change RegularHeader.setFree m₁ s a = h.mem a
  rw [setFree_of_ne _ (by omega)]
  rcases ha with ha | ha | ha | rfl
  · exact hm₁.outside a (.inl ha)
  · exact hm₁.outside a (.inr ha)
  · exact hm₁.header a ha.1 (by simp only [headerSize]; omega)
  · exact hm₁.header _ (by omega) (by simp only [headerSize]; omega)

/-- The header of a slot that was given back keeps its thread. -/
theorem Freed.spent (hf : Freed h b s n h') (hn : headerSize ≤ n) :
    Spent h'.mem (RegularHeader.threadId h.mem s) (s + headerSize) := by
  refine ⟨?_, ?_⟩
  · rw [Nat.add_sub_cancel]
    obtain ⟨B, m₁, -, -, rfl⟩ := hf
    exact isAllocation_setFree m₁ s
  · rw [Nat.add_sub_cancel]
    exact readLE_congr fun a h₁ h₂ => hf.mem_eq hn (.inr (.inr (.inl (by omega))))

theorem Freed.still (hf : Freed h b s (slotSize c.sizeClass) h') (hl : Layout g.own g.reg h)
    (hs : SlotRange g.own g.reg b c s) : Still g (· = s + headerSize) h.mem h'.mem := by
  have hn := slotSize_ge c.sizeClass
  rintro b' s' ho hne a ⟨h₁, h₂⟩
  refine hf.mem_eq (by simp only [headerSize]; omega) ?_
  by_contra hin
  have hown := hl.slot_head ho h₁ (by omega)
  rw [hs.own a (by omega) (by omega)] at hown
  cases hown
  exact hne rfl

end Freed

namespace Audited

/-- A slot that was given back has its header changed, and no other slot. -/
theorem spent_of_freed (ha : Audited D g away live h) {b s : ℕ} {c : Compartment}
    (hB : SlotLive .unshifted g.own g.reg g.use h.mem b c s B)
    (hf : Freed h.mute b s (slotSize c.sizeClass) h'.mute) {p : ℕ} {e : Served} {k : Compartment}
    (he : h'.newest (p - headerSize) = some e) (hk : e.origin = .pool k) (hp : e.ptr = p)
    (hout : p ≠ B.ptr → Outside (live ++ away) p) : Spent h'.mem k.thread p := by
  have hl := ha.inv.layout
  have hs := hl.slotRange_of_reg hB.block.own hB.block.reg
  have hn := slotSize_ge c.sizeClass
  obtain ⟨hptr, -⟩ := hB.block.whole
  have hnewest : h'.newest (p - headerSize) = h.newest (p - headerSize) := by
    unfold Heap.newest
    exact congrArg _ hf.served
  rw [hnewest] at he
  by_cases hpB : p = B.ptr
  · have hspent := hf.spent (by simp only [headerSize]; omega)
    obtain ⟨-, b', ho', hr'⟩ := ha.slot_of_newest he hk hp
    have hhead : p - headerSize = s := by omega
    rw [hhead, hB.block.own] at ho'
    cases ho'
    rw [hB.block.reg] at hr'
    cases hr'
    have hthread := hB.block.threadId
    rw [← hpB, hhead] at hthread
    rw [hpB, hptr, ← hthread]
    exact hspent
  · refine ha.spent_of_still (hf.still hl hs) ?_ he hk hp (hout hpB)
    rwa [← hptr]

/-- **A block of the calling thread** is given back. -/
theorem freed (ha : Audited D g away live h) (hB : B ∈ live) {b s : ℕ} {c : Compartment}
    (hslot : SlotLive .unshifted g.own g.reg g.use h.mem b c s B)
    (hafter : After .unshifted (· = B.ptr) g h.mute (dropLive live B.ptr ++ away) g' h'.mute)
    (hf : Freed h.mute b s (slotSize c.sizeClass) h'.mute) (hheads : h'.heads = h.heads) :
    Audited D g' away (dropLive live B.ptr) h' := by
  have hs := ha.inv.layout.slotRange_of_reg hslot.block.own hslot.block.reg
  obtain ⟨hptr, -, halloc, -⟩ := hslot.block.whole
  refine ha.advance hafter (fun A hA => ha.apart hB hA) hheads ?_ (hf.still ha.inv.layout hs) ?_ ?_
  · rw [show h'.served = h.served from hf.served]
    exact ha.records
  · rintro t y - ⟨b', c', -, -, -, -, hbit⟩ rfl
    rw [hptr, hbit] at halloc
    cases halloc
  · intro p e k he hk hp hout
    refine ha.spent_of_freed hslot hf he hk hp fun hne B' hB' => ?_
    rcases List.mem_append.mp hB' with hB' | hB'
    · rintro rfl
      exact hout B' (List.mem_append_left _ (List.mem_filter.mpr ⟨hB', by simpa using hne⟩)) rfl
    · exact hout B' (List.mem_append_right _ hB')

end Audited

end Semalloc
