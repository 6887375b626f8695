import Semalloc.Backend.MemoryManager

/-!
# Housekeeping

To serve a request the allocator maps memory, makes BIBOPs, and updates its tables, before it writes
the header of the one block. All of this leaves the mapped bytes alone. What each of those updates
keeps, the programs that are made of them keep.

## Main definitions

* `Housekeeping R`: what a relation between processes has to survive
* `Quiet`: mapped bytes and the history are the same

## Main results

* `Housekeeping.allocateFrom`, `Housekeeping.allocateMemoryManager`, …: the programs
* `quiet_housekeeping`: mapped bytes survive
-/

set_option autoImplicit false

namespace Semalloc

open ByteMemory Region Effect MemoryManager

variable {h h₁ h' : Heap} {R : Heap → Heap → Prop} {α β : Type}

/-- The relation survives the updates that write no mapped byte. -/
structure Housekeeping (R : Heap → Heap → Prop) : Prop where
  refl : ∀ h, R h h
  trans : ∀ h h₁ h₂, R h h₁ → R h₁ h₂ → R h h₂
  mapping : ∀ h a len, Fresh h.maps a len → R h (h.addMapping a len)
  attempt : ∀ h : Heap, R h { h with mmapCount := h.mmapCount + 1 }
  bibop : ∀ h b B, R h (h.setBIBOP b B)
  manager : ∀ h t m, R h (h.setManager t m)

namespace Housekeeping

variable (hR : Housekeeping R)
include hR

/-! ## The machine -/

theorem bind {m : Proc α} {f : α → Proc β} (hm : Keeps R m) (hf : ∀ a, Keeps R (f a)) :
    Keeps R (m >>= f) := Keeps.bind hR.trans hm hf

theorem pure (a : α) : Keeps R (Pure.pure a : Proc α) := Keeps.pure hR.refl a

theorem throw (e : Halt) : Keeps R (MonadExcept.throw e : Proc α) := Keeps.throw hR.refl e

theorem peek (a n : ℕ) (f : ByteMemory → α) : Keeps R (peek a n f) :=
  hR.bind (.get hR.refl) fun _ => .ite (hR.pure _) (hR.throw _)

/-- A write that changes nothing only checks the mapping. -/
theorem touch (a n : ℕ) : Keeps R (poke a n id) :=
  hR.bind (.get hR.refl) fun _ => .ite (.modify hR.refl) (hR.throw _)

theorem mmap (len : ℕ) : Keeps R (mmap len) := by
  intro h
  unfold Semalloc.mmap
  rw [run_get]
  cases hmap : h.os.mmap h.mmapCount h.maps len with
  | some a => exact hR.mapping h a len (h.os.mmap_fresh hmap)
  | none =>
    cases hfail : h.os.failure with
    | excluded => exact hR.attempt h
    | returned => exact hR.attempt h

theorem getBIBOP (b : ℕ) : Keeps R (getBIBOP b) := by
  refine hR.bind (.get hR.refl) fun h => ?_
  split
  · exact hR.pure _
  · exact hR.throw _

theorem setBIBOP (b : ℕ) (B : SingleBIBOP) : Keeps R (setBIBOP b B) :=
  .modify fun h => hR.bibop h b B

theorem getManager (t : ℕ) : Keeps R (getManager t) := by
  refine hR.bind (.get hR.refl) fun h => ?_
  split
  · exact hR.pure _
  · exact hR.throw _

theorem setManager (t : ℕ) (m : MemoryManager) : Keeps R (setManager t m) :=
  .modify fun h => hR.manager h t m

/-! ## BIBOPs and pools -/

theorem allocateObject (b : ℕ) : Keeps R (SingleBIBOP.allocateObject b) := by
  unfold SingleBIBOP.allocateObject
  refine hR.bind (hR.getBIBOP b) fun B => .ite ?_ ?_
  · exact hR.bind (hR.peek _ _ _) fun _ => hR.bind (hR.setBIBOP _ _) fun _ => hR.pure _
  · exact hR.bind (hR.setBIBOP _ _) fun _ => .ite (hR.pure _) (hR.pure _)

theorem allocateSingleBIBOP (base objectSize capacity : ℕ) :
    Keeps R (SingleBIBOP.allocateSingleBIBOP base objectSize capacity) := by
  unfold SingleBIBOP.allocateSingleBIBOP
  refine hR.bind (hR.mmap _) fun sb => .ite (hR.bind (hR.throw _) fun _ => ?_) ?_
  all_goals
    exact hR.bind (hR.touch _ _) fun _ => hR.bind (hR.setBIBOP _ _) fun _ => hR.pure _

theorem allocateMemoryPool (size : ℕ) : Keeps R (MemoryPool.allocateMemoryPool size) := by
  unfold MemoryPool.allocateMemoryPool
  exact hR.bind (hR.mmap _) fun _ => hR.bind (hR.touch _ _) fun _ =>
    hR.bind (hR.mmap _) fun _ => hR.pure _

/-! ## The managers -/

theorem acquireIndividualDataPool (this : ℕ) : Keeps R (acquireIndividualDataPool this) := by
  unfold MemoryManager.acquireIndividualDataPool
  refine hR.bind (hR.getManager _) fun m => hR.bind (hR.setManager _ _) fun _ =>
    .ite (hR.bind (hR.getManager _) fun _ => hR.bind (hR.setManager _ _) fun _ =>
      .ite (hR.bind (hR.throw _) fun _ => ?_) ?_) (hR.pure _)
  all_goals
    exact hR.bind (hR.allocateMemoryPool _) fun _ => hR.bind (hR.getManager _) fun _ =>
      hR.bind (hR.setManager _ _) fun _ => hR.pure _

theorem allocateIndividualBIBOP (this objectSize : ℕ) :
    Keeps R (allocateIndividualBIBOP this objectSize) := by
  unfold MemoryManager.allocateIndividualBIBOP
  exact hR.bind (hR.getManager _) fun _ => hR.bind (hR.setManager _ _) fun _ =>
    hR.bind (hR.acquireIndividualDataPool _) fun _ => hR.bind (hR.touch _ _) fun _ =>
    hR.bind (hR.setBIBOP _ _) fun _ => hR.pure _

theorem enterIndividualBIBOP (this index k : ℕ) (CSI : Word) :
    Keeps R (enterIndividualBIBOP this index k CSI) := by
  unfold MemoryManager.enterIndividualBIBOP
  exact hR.bind (hR.allocateIndividualBIBOP _ _) fun _ => hR.bind (hR.getManager _) fun _ =>
    hR.bind (hR.setManager _ _) fun _ => hR.pure _

theorem probeIndividualBIBOP (this : ℕ) (CSI : Word) (k n : ℕ) :
    Keeps R (probeIndividualBIBOP this CSI k n) := by
  induction n with
  | zero => exact hR.throw _
  | succ n ih =>
    unfold MemoryManager.probeIndividualBIBOP
    refine hR.bind (hR.getManager _) fun _ => .ite (.ite (hR.pure _) ?_) (.ite ?_ ih)
    all_goals exact hR.enterIndividualBIBOP _ _ _ _

theorem probeLazyPool (this : ℕ) (CSI : Word) (n : ℕ) : Keeps R (probeLazyPool this CSI n) := by
  induction n with
  | zero => exact hR.throw _
  | succ n ih =>
    unfold MemoryManager.probeLazyPool
    refine hR.bind (hR.getManager _) fun _ => .ite (.ite ?_ (hR.pure _)) (.ite ?_ ih)
    all_goals exact hR.bind (hR.setManager _ _) fun _ => hR.pure _

theorem allocateFrom (this b : ℕ) : Keeps R (allocateFrom this b) := by
  unfold MemoryManager.allocateFrom
  refine hR.bind (hR.allocateObject _) fun _ => .ite ?_ (hR.pure _)
  exact hR.bind (hR.acquireIndividualDataPool _) fun _ =>
    hR.bind (hR.bind (hR.getBIBOP _) fun _ => hR.setBIBOP _ _) fun _ => hR.allocateObject _

theorem allocateMemoryManager (t : ℕ) : Keeps R (allocateMemoryManager t) := by
  have hglobal : ∀ n objects, Keeps R (initGlobalBIBOP objects n) := by
    intro n
    induction n with
    | zero => exact fun _ => hR.pure _
    | succ n ih =>
      intro objects
      unfold initGlobalBIBOP
      exact hR.bind (hR.mmap _) fun _ => hR.bind (hR.allocateSingleBIBOP _ _ _) fun _ => ih _
  unfold MemoryManager.allocateMemoryManager
  exact hR.bind (hR.mmap _) fun _ => hR.bind (hR.touch _ _) fun _ =>
    hR.bind (hR.allocateMemoryPool _) fun _ => hR.bind (hR.allocateMemoryPool _) fun _ =>
    hR.bind (hR.touch _ _) fun _ => hR.bind (hglobal _ _) fun _ => hR.pure _

end Housekeeping

/-! ## Mapped bytes -/

/-- Nothing was handed out, and mapped bytes stay mapped and unchanged. -/
structure Quiet (h h' : Heap) : Prop where
  served : h'.served = h.served
  mapped : ∀ a, Mapped h.maps a → Mapped h'.maps a
  mem : ∀ a, Mapped h.maps a → h'.mem a = h.mem a

theorem Fresh.not_mapped {maps : List Region} {a len x : ℕ} (hf : Fresh maps a len) (h₁ : a ≤ x)
    (h₂ : x < a + pageCeil len) : ¬ Mapped maps x := by
  rintro ⟨r, hr, h₃, h₄⟩
  have := hf.2.2.2.2 r hr
  omega

theorem Quiet.addMapping {a len : ℕ} (hf : Fresh h.maps a len) : Quiet h (h.addMapping a len) where
  served := rfl
  mapped _ hx := mapped_cons.mpr (.inr hx)
  mem x hx := by
    refine fill_of_outside ?_
    by_contra hin
    exact hf.not_mapped (by omega) (by omega) hx

theorem quiet_housekeeping : Housekeeping Quiet where
  refl _ := ⟨rfl, fun _ ha => ha, fun _ _ => rfl⟩
  trans _ _ _ ha hb := ⟨hb.served.trans ha.served, fun x hx => hb.mapped x (ha.mapped x hx),
    fun x hx => (hb.mem x (ha.mapped x hx)).trans (ha.mem x hx)⟩
  mapping _ _ _ hf := .addMapping hf
  attempt _ := ⟨rfl, fun _ ha => ha, fun _ _ => rfl⟩
  bibop _ _ _ := ⟨rfl, fun _ ha => ha, fun _ _ => rfl⟩
  manager _ _ _ := ⟨rfl, fun _ ha => ha, fun _ _ => rfl⟩

end Semalloc
