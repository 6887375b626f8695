import Semalloc.Backend.Housekeeping
import Semalloc.Backend.EntrySpec

/-!
# What an allocation writes

An allocation records one slot or mapping and hands out a pointer into it. Of the bytes that were
mapped before, it writes those of the header of that slot, and no others.

## Main definitions

* `Supplied`: the record of the allocation, and the bytes it left alone

## Main results

* `mallocMemory_supplied`, `mallocMemoryCSI_supplied`: both overloads, after the drain
-/

set_option autoImplicit false

namespace Semalloc

open ByteMemory Region Effect MemoryManager

variable {h h₁ h' : Heap} {this : ℕ}

/-- What an allocation by the manager at `this` that answered `r` leaves. -/
inductive Supplied (this : ℕ) (h : Heap) (r : ℕ) (h' : Heap) : Prop
  | none (hq : Quiet h h')
  | some {e : Served} (hserved : h'.served = e :: h.served) (hptr : e.ptr = r)
      (hpool : ∀ c, e.origin = .pool c → c.thread = this ∧ e.ptr = e.range.base + headerSize)
      (hmem : ∀ a, Mapped h.maps a →
        h'.mem a = h.mem a ∨ (∃ c, e.origin = .pool c) ∧ e.range.Contains a)

/-- The header initializations stay inside the header. -/
theorem writeHeader_outside {m : ByteMemory} {s t b a : ℕ} {c : BitVec 8}
    (ha : a < s ∨ s + headerSize ≤ a) : writeHeader m s t b c a = m a := by
  simp only [headerSize] at ha
  unfold writeHeader
  rw [writeLE_of_outside (by omega), writeByte_of_ne _ (by omega), writeLE_of_outside (by omega),
    writeLE_of_outside (by omega)]

/-- A slot gets its header and is recorded. -/
theorem Quiet.serve (hq : Quiet h h₁) {ptr k : ℕ} {context : Option Word} {m : ByteMemory}
    (hm : ∀ a, a < ptr ∨ ptr + headerSize ≤ a → m a = h₁.mem a) :
    Supplied this h (ptr + headerSize) ((h₁.setMem m).addServed
      ⟨.pool ⟨this, context, k⟩, ⟨ptr, slotSize k⟩, ptr + headerSize⟩) := by
  have hsize := slotSize_ge k
  refine .some (congrArg _ hq.served) rfl ?_ fun a ha => ?_
  · rintro c ho
    cases ho
    exact ⟨rfl, rfl⟩
  · by_cases hin : a < ptr ∨ ptr + headerSize ≤ a
    · exact .inl ((hm a hin).trans (hq.mem a ha))
    · refine .inr ⟨⟨_, rfl⟩, ?_⟩
      simp only [headerSize] at hin
      exact ⟨by simp only; omega, by simp only; omega⟩

theorem allocateGlobal_supplied (this realSize : ℕ) (h : Heap) :
    Spec (allocateGlobal this realSize) h (Supplied this h) fun _ => True := by
  have hR := quiet_housekeeping
  unfold allocateGlobal
  refine Spec.seq ((hR.getManager this).spec h) fun m h₁ hq₁ => ?_
  refine Spec.seq ((hR.allocateFrom this _).spec h₁) fun ptr h₂ hq₂ => ?_
  refine Spec.seq ((hR.getManager this).spec h₂) fun m' h₃ hq₃ => ?_
  refine Spec.bind (poke_spec (.inr trivial) fun _ => Spec.bind (serve_spec (Spec.pure ?_)))
  refine (hR.trans _ _ _ (hR.trans _ _ _ hq₁ hq₂) hq₃).serve fun a ha => ?_
  rw [initGlobal_eq]
  exact writeHeader_outside ha

theorem allocateIndividual_supplied (this realSize : ℕ) (CSI : Word) (h : Heap) :
    Spec (allocateIndividual this realSize CSI) h (Supplied this h) fun _ => True := by
  have hR := quiet_housekeeping
  unfold allocateIndividual getIndividualBIBOPbyCSI
  refine Spec.seq ((hR.probeIndividualBIBOP this CSI _ _).spec h) fun b h₁ hq₁ => ?_
  refine Spec.seq ((hR.allocateFrom this _).spec h₁) fun ptr h₂ hq₂ => ?_
  refine Spec.seq ((hR.getManager this).spec h₂) fun m' h₃ hq₃ => ?_
  refine Spec.bind (poke_spec (.inr trivial) fun _ => Spec.bind (serve_spec (Spec.pure ?_)))
  refine (hR.trans _ _ _ (hR.trans _ _ _ hq₁ hq₂) hq₃).serve fun a ha => ?_
  rw [initIndividual_eq]
  exact writeHeader_outside ha

theorem Supplied.after_quiet {r : ℕ} (hs : Supplied this h₁ r h') (hq : Quiet h h₁) :
    Supplied this h r h' := by
  cases hs with
  | none hq' => exact .none (quiet_housekeeping.trans _ _ _ hq hq')
  | some hserved hptr hpool hmem =>
    refine .some (by rw [hserved, hq.served]) hptr hpool fun a ha => ?_
    rw [← hq.mem a ha]
    exact hmem a (hq.mapped a ha)

theorem allocateRegular_supplied (this realSize : ℕ) (CSI : Word) (inLoop : Bool) (h : Heap) :
    Spec (allocateRegular this realSize CSI inLoop) h (Supplied this h) fun _ => True := by
  unfold allocateRegular
  dsimp only
  refine Spec.ite (fun _ => ?_) fun _ => ?_
  · unfold tryPutToLazyPool
    refine Spec.bind (Spec.seq ((quiet_housekeeping.probeLazyPool this CSI _).spec h) ?_)
    intro kept h₁ hq
    refine Spec.pure (Spec.ite (fun _ => ?_) fun _ => ?_)
    · exact (allocateIndividual_supplied this realSize CSI h₁).imp
        fun _ _ hs => hs.after_quiet hq
    · exact (allocateGlobal_supplied this realSize h₁).imp fun _ _ hs => hs.after_quiet hq
  · exact Spec.bind (Spec.pure (allocateGlobal_supplied this realSize h))

theorem allocateHuge_supplied (this : ℕ) (size : Word) (hos : h.os.failure = .excluded) :
    Spec (allocateHuge size) h (Supplied this h) fun _ => True := by
  unfold allocateHuge
  dsimp only
  refine Spec.bind (mmap_spec hos trivial fun a hf => ?_)
  refine Spec.ite (fun _ => Spec.bind (Spec.throw trivial)) fun _ => ?_
  refine Spec.bind (poke_spec (.inr trivial) fun _ => ?_)
  refine Spec.bind (poke_spec (.inr trivial) fun _ => ?_)
  refine Spec.bind (serve_spec (Spec.pure ?_))
  refine .some rfl rfl (fun c ho => by cases ho) fun x hx => .inl ?_
  -- the header lies on the first page of the new mapping
  obtain ⟨hpos, -, hpage, htop, -⟩ := id hf
  have hlen : 4096 ≤ pageCeil (((size + 4096#64 - 1#64) &&& ~~~4095#64) + 4096#64).toNat := by
    unfold pageCeil
    omega
  have hdata : (a + pageSize) % 2 ^ 64 = a + 4096 := Nat.mod_eq_of_lt (by
    simp only [pageSize]
    omega)
  have hout : x < (a + pageSize) % 2 ^ 64 - headerSize ∨
      (a + pageSize) % 2 ^ 64 - headerSize + 16 ≤ x := by
    rw [hdata]
    simp only [headerSize]
    by_contra hin
    exact hf.not_mapped (by omega) (by omega) hx
  have hheader : ∀ m : ByteMemory, ∀ n, HugeHeader.setHuge (HugeHeader.setSize m
      ((a + pageSize) % 2 ^ 64 - headerSize) n) ((a + pageSize) % 2 ^ 64 - headerSize) x = m x :=
    fun m n => (writeByte_of_ne _ (by omega)).trans (writeLE_of_outside (by omega))
  simp only [Heap.addServed_mem, Heap.setMem_mem]
  rw [hheader]
  exact (Quiet.addMapping hf).mem x hx

theorem mallocMemory_supplied {size : Word} (hos : h.os.failure = .excluded)
    (hdrain : handleFreeList this h = .ok () h) :
    Spec (mallocMemory this size) h (Supplied this h) fun _ => True := by
  have hdrained : Spec (handleFreeList this) h (fun _ h' => h' = h) fun _ => True := by
    unfold Spec
    rw [hdrain]
  unfold mallocMemory
  refine Spec.seq hdrained ?_
  rintro - _ rfl
  refine Spec.ite (fun _ => allocateHuge_supplied this _ hos) fun _ => ?_
  refine Spec.ite (fun _ => Spec.pure (.none (quiet_housekeeping.refl _))) fun _ => ?_
  exact Spec.ite (fun _ => allocateHuge_supplied this _ hos) fun _ =>
    allocateRegular_supplied this _ _ _ _

theorem mallocMemoryCSI_supplied {realSize CSI : Word} {inLoop : Bool}
    (hos : h.os.failure = .excluded) (hdrain : handleFreeList this h = .ok () h) :
    Spec (mallocMemoryCSI this realSize CSI inLoop) h (Supplied this h) fun _ => True := by
  have hdrained : Spec (handleFreeList this) h (fun _ h' => h' = h) fun _ => True := by
    unfold Spec
    rw [hdrain]
  unfold mallocMemoryCSI
  refine Spec.seq hdrained ?_
  rintro - _ rfl
  refine Spec.ite (fun _ => Spec.pure (.none (quiet_housekeeping.refl _))) fun _ => ?_
  exact Spec.ite (fun _ => allocateHuge_supplied this _ hos) fun _ =>
    allocateRegular_supplied this _ _ _ _

end Semalloc
