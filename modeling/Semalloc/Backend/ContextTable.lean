import Semalloc.Backend.ManagerSpec
import Semalloc.Library.Probing

/-!
# The context table

`getIndividualBIBOPbyCSI` finds the BIBOP of a context and a size class in an open-addressing table
by the low 16 bits of the context, and makes one when there is none. A context gets the first empty
slot from its hash on, and a BIBOP for each size class in that slot. Nothing is ever removed, so a
search for a context that was entered stops at its slot, also when the table is full.

## Main definitions

* `MemoryManager.getIndividualBIBOPs`: a sequence of calls with their answers
* `ContextTable.Initialized`: a manager as it is created
* `ContextTable.Entry`: the BIBOP that the table has for a context and a size class
* `ContextTable.Holds`: what the table holds after a sequence of calls
* `ContextTable.LooksUp`: the answers of a sequence tell contexts and size classes apart

## Main results

* `ContextTable.getIndividualBIBOPbyCSI_stops`: a call acts at the slot its search stops at
* `ContextTable.getIndividualBIBOPbyCSI_holds`: one call
* `ContextTable.context_table_lookup`: a sequence of calls
-/

set_option autoImplicit false

namespace Semalloc

open Effect Region

namespace MemoryManager

/-- Calls of `getIndividualBIBOPbyCSI` one after the other, with their answers. -/
def getIndividualBIBOPs (this : ℕ) : List (Word × ℕ) → Proc (List ℕ)
  | [] => return []
  | (CSI, objectSize) :: rest => do
    let answer ← getIndividualBIBOPbyCSI this CSI objectSize
    let answers ← getIndividualBIBOPs this rest
    return answer :: answers

end MemoryManager

namespace ContextTable

open MemoryManager Probing

/-! ## Size classes -/

/-- The size of the class of a request: the least `16 * 2 ^ k` that holds it. -/
def ClassSize (n size : ℕ) : Prop := IsLeast {x | n ≤ x ∧ ∃ k, x = 16 * 2 ^ k} size

theorem computeSizeIndex_le {n k : ℕ} (hn : n ≤ 16 * 2 ^ k) : BIBOP.computeSizeIndex n ≤ k := by
  unfold BIBOP.computeSizeIndex log2
  split
  · exact Nat.zero_le k
  · have hpow : 16 * 2 ^ k = 2 ^ (4 + k) := by
      rw [pow_add]
      norm_num
    have hsize : (n - 1).size ≤ 4 + k := Nat.size_le.mpr (by omega)
    omega

/-- **`computeSizeIndex`** is the class of the size. -/
theorem classSize_iff {n size : ℕ} :
    ClassSize n size ↔ size = minBagSize <<< BIBOP.computeSizeIndex n := by
  have hleast : ClassSize n (minBagSize <<< BIBOP.computeSizeIndex n) := by
    refine ⟨⟨le_computeSizeIndex n, BIBOP.computeSizeIndex n, Nat.shiftLeft_eq _ _⟩, ?_⟩
    rintro x ⟨hn, k, rfl⟩
    rw [Nat.shiftLeft_eq]
    exact Nat.mul_le_mul_left 16 (Nat.pow_le_pow_right (by decide) (computeSizeIndex_le hn))
  constructor
  · intro h
    exact h.unique hleast
  · rintro rfl
    exact hleast

theorem sameClass_iff {n n' : ℕ} : (∃ size, ClassSize n size ∧ ClassSize n' size) ↔
    BIBOP.computeSizeIndex n = BIBOP.computeSizeIndex n' := by
  simp only [classSize_iff]
  constructor
  · rintro ⟨_, rfl, heq⟩
    rw [Nat.shiftLeft_eq, Nat.shiftLeft_eq] at heq
    exact Nat.pow_right_injective le_rfl (Nat.eq_of_mul_eq_mul_left (by decide) heq)
  · intro heq
    exact ⟨_, rfl, by rw [heq]⟩

/-! ## Where a call stops -/

/-- The contexts of the table, by their slots. -/
def keys (table : ℕ → IndividualBIBOPEntry) (k : ℕ) : Option Word :=
  if (table k).CSI.toNat = allOnes then none else some (table k).CSI

/-- The search for a context stops at a slot. -/
def StopsAt (table : ℕ → IndividualBIBOPEntry) (CSI : Word) (k : ℕ) : Prop :=
  First individualBIBOPMaxN (Stops (keys table) CSI) (hash CSI) k

variable {this k j n : ℕ} {CSI : Word} {h : Heap} {m m' : MemoryManager}
  {table : ℕ → IndividualBIBOPEntry}

theorem keys_eq_some : keys table k = some CSI ↔ (table k).CSI = CSI ∧ CSI.toNat ≠ allOnes := by
  unfold keys
  split
  · rename_i hones
    constructor
    · rintro ⟨⟩
    · rintro ⟨rfl, hne⟩
      exact absurd hones hne
  · rename_i hne
    rw [Option.some_inj]
    constructor
    · rintro rfl
      exact ⟨rfl, hne⟩
    · exact fun h => h.1

theorem keys_eq_none : keys table k = none ↔ (table k).CSI.toNat = allOnes := by
  unfold keys
  split <;> simp_all

/-- What a call does at the slot it stops at. -/
def atSlot (this : ℕ) (m : MemoryManager) (CSI : Word) (j k : ℕ) : Proc ℕ :=
  if keys m.individualBIBOP k = some CSI ∧ (m.individualBIBOP k).ptr j ≠ allOnes then
    return (m.individualBIBOP k).ptr j
  else enterIndividualBIBOP this k j CSI

theorem getManager_bind {α : Type} {f : MemoryManager → Proc α}
    (hm : h.globalMemoryManager this = some m) : (getManager this >>= f) h = f m h := by
  have hrun : getManager this h = .ok m h := by
    have hspec : Spec (getManager this) h (fun m' t => m' = m ∧ t = h) fun _ => False :=
      getManager_spec hm ⟨rfl, rfl⟩
    obtain ⟨m', t, hok, rfl, rfl⟩ := hspec.exists_ok
    exact hok
  change EStateM.bind (getManager this) f h = f m h
  unfold EStateM.bind
  rw [hrun]

/-- The probing loop acts at the slot it stops at. -/
theorem probeIndividualBIBOP_stops {i : ℕ} (hm : h.globalMemoryManager this = some m)
    (hCSI : CSI.toNat ≠ allOnes) (hi : i < individualBIBOPMaxN) (hn : n ≤ individualBIBOPMaxN)
    (hleft : individualBIBOPMaxN - n ≤ i)
    (hp : Stops (keys m.individualBIBOP) CSI ((i + hash CSI) % individualBIBOPMaxN))
    (hbefore : ∀ l < i, ¬ Stops (keys m.individualBIBOP) CSI
      ((l + hash CSI) % individualBIBOPMaxN)) :
    probeIndividualBIBOP this CSI j n h =
      atSlot this m CSI j ((i + hash CSI) % individualBIBOPMaxN) h := by
  induction n with
  | zero => omega
  | succ n ih =>
    unfold probeIndividualBIBOP
    dsimp only
    rw [getManager_bind hm, Nat.add_comm (hash CSI)]
    by_cases heq : individualBIBOPMaxN - (n + 1) = i
    · rw [heq]
      unfold atSlot
      generalize (i + hash CSI) % individualBIBOPMaxN = l at hp
      by_cases hid : (m.individualBIBOP l).CSI = CSI
      · rw [if_pos hid]
        simp only [keys_eq_some.mpr ⟨hid, hCSI⟩, true_and]
      · have hnone : keys m.individualBIBOP l = none :=
          hp.resolve_left fun hsome => hid (keys_eq_some.mp hsome).1
        rw [if_neg hid, if_pos (keys_eq_none.mp hnone), if_neg]
        rw [hnone]
        simp
    · have hskip := hbefore (individualBIBOPMaxN - (n + 1)) (by omega)
      have hid : (m.individualBIBOP ((individualBIBOPMaxN - (n + 1) + hash CSI) %
          individualBIBOPMaxN)).CSI ≠ CSI := fun hid => hskip (.inl (keys_eq_some.mpr ⟨hid, hCSI⟩))
      have hempty : (m.individualBIBOP ((individualBIBOPMaxN - (n + 1) + hash CSI) %
          individualBIBOPMaxN)).CSI.toNat ≠ allOnes := fun hempty =>
        hskip (.inr (keys_eq_none.mpr hempty))
      rw [if_neg hid, if_neg hempty]
      exact ih (by omega) (by omega)

/-- **A call acts at the slot its search stops at.** -/
theorem getIndividualBIBOPbyCSI_stops (hm : h.globalMemoryManager this = some m)
    (hCSI : CSI.toNat ≠ allOnes) (hk : StopsAt m.individualBIBOP CSI k) :
    getIndividualBIBOPbyCSI this CSI n h =
      atSlot this m CSI (BIBOP.computeSizeIndex n) k h := by
  obtain ⟨i, hi, rfl, hp, hbefore⟩ := hk
  exact probeIndividualBIBOP_stops hm hCSI hi le_rfl
    ((Nat.sub_self individualBIBOPMaxN).le.trans (Nat.zero_le i)) hp hbefore

/-! ## A new BIBOP -/

/-- Why a call may end the process: the data pools are used up, or a mapping failed. A failure that
is not seen is taken for an address. -/
def Exhausted (h : Heap) (e : Halt) : Prop :=
  e = .dataPoolMax ∨ (e = .mmapExcluded ∨ e = .segv ∧ h.os.failure = .returned)

/-- The manager keeps its table and its metadata pool while memory is mapped for it. -/
structure Mapping (this : ℕ) (m : MemoryManager) (h : Heap) (m' : MemoryManager) (h' : Heap) :
    Prop where
  manager : h'.globalMemoryManager this = some m'
  table : m'.individualBIBOP = m.individualBIBOP
  metadataPool : m'.metadataPool = m.metadataPool
  bibops : h'.bibops = h.bibops
  maps : ∀ x, Mapped h.maps x → Mapped h'.maps x
  failure : h'.os.failure = h.os.failure

namespace Mapping

variable {m₁ m₂ : MemoryManager} {h₁ h₂ : Heap}

theorem refl (hm : h.globalMemoryManager this = some m) : Mapping this m h m h :=
  ⟨hm, rfl, rfl, rfl, fun _ hx => hx, rfl⟩

theorem trans (ha : Mapping this m h m₁ h₁) (hb : Mapping this m₁ h₁ m₂ h₂) :
    Mapping this m h m₂ h₂ :=
  ⟨hb.manager, hb.table.trans ha.table, hb.metadataPool.trans ha.metadataPool,
    hb.bibops.trans ha.bibops, fun x hx => hb.maps x (ha.maps x hx), hb.failure.trans ha.failure⟩

/-- The manager is replaced by one with the same table and metadata pool. -/
theorem set (ha : Mapping this m h m₁ h₁) (m₂ : MemoryManager)
    (htable : m₂.individualBIBOP = m₁.individualBIBOP) (hpool : m₂.metadataPool = m₁.metadataPool) : Mapping this m h m₂ (h₁.setManager this m₂) :=
  ha.trans ⟨by simp, htable, hpool, rfl, fun _ hx => hx, rfl⟩

theorem exhausted (ha : Mapping this m h m₁ h₁) : Exhausted h₁ = Exhausted h := by
  unfold Exhausted
  rw [ha.failure]

end Mapping

theorem mmap_mapping {len : ℕ} (hm : h.globalMemoryManager this = some m) :
    Spec (mmap len) h (fun a h' => Mapping this m h m h' ∧
      (covers h'.maps a len = true ∨ h'.os.failure = .returned)) (Exhausted h) := by
  unfold mmap
  refine Spec.bind (Spec.get ?_)
  cases hmap : h.os.mmap h.mmapCount h.maps len with
  | some a =>
    refine Spec.bind (Spec.modify (Spec.pure ⟨?_, .inl (covers_iff.mpr fun x hx hx' => ?_)⟩))
    · exact ⟨hm, rfl, rfl, rfl, fun x hx => mapped_cons.mpr (.inr hx), rfl⟩
    · have hpage := le_pageCeil len
      exact mapped_cons.mpr (.inl ⟨hx, by dsimp only; omega⟩)
  | none =>
    refine Spec.bind (Spec.modify ?_)
    cases hos : h.os.failure with
    | excluded => exact Spec.throw (.inr (.inl rfl))
    | returned => exact Spec.pure ⟨⟨hm, rfl, rfl, rfl, fun _ hx => hx, rfl⟩, .inr hos⟩

/-- **`AllocateMemoryPool`** maps memory and changes nothing else. -/
theorem allocateMemoryPool_mapping {initSize : ℕ} (hm : h.globalMemoryManager this = some m) :
    Spec (MemoryPool.allocateMemoryPool initSize) h (fun _ h' => Mapping this m h m h')
      (Exhausted h) := by
  unfold MemoryPool.allocateMemoryPool
  refine Spec.seq (mmap_mapping hm) ?_
  rintro mp h₁ ⟨hobject, hcovers⟩
  have hwritten : Mapping this m h m (h₁.setMem (id h₁.mem)) :=
    hobject.trans ⟨hobject.manager, rfl, rfl, rfl, fun _ hx => hx, rfl⟩
  refine Spec.bind (poke_spec ?_ fun _ => ?_)
  · rw [← hobject.exhausted]
    exact hcovers.imp_right fun hreturned => .inr (.inr ⟨rfl, hreturned⟩)
  · rw [← hwritten.exhausted]
    refine Spec.seq (mmap_mapping hwritten.manager) ?_
    rintro base h₂ ⟨hmemory, -⟩
    exact Spec.pure (hwritten.trans hmemory)

/-- **`acquireIndividualDataPool`** keeps the table and the metadata pool. -/
theorem acquireIndividualDataPool_mapping (hm : h.globalMemoryManager this = some m) :
    Spec (acquireIndividualDataPool this) h (fun _ h' => ∃ m', Mapping this m h m' h')
      (Exhausted h) := by
  unfold acquireIndividualDataPool
  refine Spec.bind (getManager_spec hm ?_)
  dsimp only
  refine Spec.bind (setManager_spec ?_)
  generalize (m.individualDataPool m.individualDatPoolBump).allocateMemory individualBIBOPSize = r
  have hfirst := (Mapping.refl hm).set
    { m with
      individualDataPool := Function.update m.individualDataPool m.individualDatPoolBump r.1 }
    rfl rfl
  refine Spec.ite (fun _ => ?_) fun _ => Spec.pure ⟨_, hfirst⟩
  refine Spec.bind (getManager_spec hfirst.manager ?_)
  refine Spec.bind (setManager_spec ?_)
  refine Spec.ite (fun _ => Spec.bind (Spec.throw (.inl rfl))) fun _ => ?_
  -- a new pool
  have hsecond := hfirst.set
    { m with
      individualDataPool := Function.update m.individualDataPool m.individualDatPoolBump r.1
      individualDatPoolBump := m.individualDatPoolBump + 1 }
    rfl rfl
  rw [← hsecond.exhausted]
  refine Spec.seq (allocateMemoryPool_mapping hsecond.manager) fun fresh h₁ hpool => ?_
  refine Spec.bind (getManager_spec hpool.manager ?_)
  refine Spec.bind (setManager_spec (Spec.pure ?_))
  exact ⟨_, (hsecond.trans hpool).set _ rfl rfl⟩

/-- The process after a BIBOP of an object size was made at the bump pointer of the metadata pool. -/
structure Made (this objectSize : ℕ) (m : MemoryManager) (h : Heap) (m' : MemoryManager) (h' : Heap) :
    Prop where
  manager : h'.globalMemoryManager this = some m'
  table : m'.individualBIBOP = m.individualBIBOP
  bump : m'.metadataPool.bumpMemory = m.metadataPool.bumpMemory + 40
  boundary : m'.metadataPool.boundaryMemory = m.metadataPool.boundaryMemory
  bibop : ∃ B, h'.bibops m.metadataPool.bumpMemory = some B ∧ B.objectSize = objectSize + headerSize
  bibops : ∀ b, b ≠ m.metadataPool.bumpMemory → h'.bibops b = h.bibops b
  maps : ∀ x, Mapped h.maps x → Mapped h'.maps x
  failure : h'.os.failure = h.os.failure

/-- **`allocateIndividualBIBOP`** makes one when the metadata pool has room for it. -/
theorem allocateIndividualBIBOP_made {objectSize : ℕ} (hm : h.globalMemoryManager this = some m)
    (hroom : m.metadataPool.bumpMemory + 40 ≤ m.metadataPool.boundaryMemory)
    (htop : m.metadataPool.boundaryMemory ≤ 2 ^ 63)
    (hmapped : covers h.maps m.metadataPool.bumpMemory 40 = true) :
    Spec (allocateIndividualBIBOP this objectSize) h
      (fun b h' => b = m.metadataPool.bumpMemory ∧ ∃ m', Made this objectSize m h m' h')
      (Exhausted h) := by
  have hobject : m.metadataPool.allocateMemory 40 =
      ({ m.metadataPool with bumpMemory := m.metadataPool.bumpMemory + 40 },
        m.metadataPool.bumpMemory) := by
    unfold MemoryPool.allocateMemory
    dsimp only
    rw [Nat.mod_eq_of_lt (by omega), if_neg (by omega)]
  unfold allocateIndividualBIBOP
  refine Spec.bind (getManager_spec hm ?_)
  rw [hobject]
  dsimp only
  refine Spec.bind (setManager_spec ?_)
  refine Spec.seq (acquireIndividualDataPool_mapping (m := { m with
    metadataPool := { m.metadataPool with bumpMemory := m.metadataPool.bumpMemory + 40 } })
    (Function.update_self ..)) ?_
  rintro data h₁ ⟨m₁, hmap⟩
  refine Spec.bind (poke_spec (.inl ?_) fun _ => Spec.bind (setBIBOP_spec (Spec.pure ?_)))
  · exact covers_iff.mpr fun x hx hx' => hmap.maps x (covers_iff.mp hmapped x hx hx')
  · refine ⟨rfl, m₁, hmap.manager, hmap.table, ?_, ?_, ?_, ?_, hmap.maps, hmap.failure⟩
    · rw [hmap.metadataPool]
    · rw [hmap.metadataPool]
    · exact ⟨_, Function.update_self .., rfl⟩
    · intro b hb
      exact (Function.update_of_ne hb _ _).trans (congrFun hmap.bibops b)

/-! ## The table after a sequence of calls -/

/-- The table has the BIBOP at `b` for a context and a size class. -/
def Entry (table : ℕ → IndividualBIBOPEntry) (CSI : Word) (j b : ℕ) : Prop :=
  b ≠ allOnes ∧ ∃ k < individualBIBOPMaxN, keys table k = some CSI ∧ (table k).ptr j = b

/-- The contexts and size classes that were called for. -/
def pairs (calls : List (Word × ℕ)) : Finset (Word × ℕ) :=
  (calls.map fun call => (call.1, BIBOP.computeSizeIndex call.2)).toFinset

/-- The bytes of the metadata pool for all BIBOPs that the table may get. -/
def objectBytes : ℕ := 40 * (individualBIBOPMaxN * globalBagN)

/-- **The manager after the calls `past`**, for the first address of its BIBOP objects. -/
structure Holds (this base : ℕ) (past : List (Word × ℕ)) (m : MemoryManager) (h : Heap) : Prop where
  manager : h.globalMemoryManager this = some m
  placed : Placed individualBIBOPMaxN hash (keys m.individualBIBOP)
  known : ∀ k < individualBIBOPMaxN, ∀ c, keys m.individualBIBOP k = some c →
    c ∈ (past.map Prod.fst).toFinset
  blank : ∀ k < individualBIBOPMaxN, keys m.individualBIBOP k = none →
    ∀ j, (m.individualBIBOP k).ptr j = allOnes
  entered : ∀ call ∈ past, ∃ b, Entry m.individualBIBOP call.1 (BIBOP.computeSizeIndex call.2) b
  asked : ∀ c j b, Entry m.individualBIBOP c j b → (c, j) ∈ pairs past
  bibop : ∀ c j b, Entry m.individualBIBOP c j b → b < m.metadataPool.bumpMemory ∧
    ∃ B, h.bibops b = some B ∧ B.objectSize = slotSize j
  apart : ∀ c j c' j' b, Entry m.individualBIBOP c j b → Entry m.individualBIBOP c' j' b →
    c = c' ∧ j = j'
  bump : m.metadataPool.bumpMemory = base + 40 * (pairs past).card
  room : base + objectBytes ≤ m.metadataPool.boundaryMemory
  top : m.metadataPool.boundaryMemory ≤ 2 ^ 63
  mapped : covers h.maps base objectBytes = true

/-- The table after a BIBOP was entered at a slot. -/
def enter (table : ℕ → IndividualBIBOPEntry) (k j : ℕ) (CSI : Word) (b : ℕ) :
    ℕ → IndividualBIBOPEntry :=
  Function.update table k { ptr := Function.update (table k).ptr j b, CSI := CSI }

theorem keys_enter {b : ℕ} (hCSI : CSI.toNat ≠ allOnes) :
    keys (enter table k j CSI b) = Function.update (keys table) k (some CSI) := by
  funext l
  unfold enter
  by_cases hl : l = k
  · subst hl
    rw [Function.update_self, keys_eq_some]
    exact ⟨by simp, hCSI⟩
  · unfold keys
    rw [Function.update_of_ne hl, Function.update_of_ne hl]

section Enter

variable {b c' j' b' : ℕ} (hk : k < individualBIBOPMaxN) (hCSI : CSI.toNat ≠ allOnes)
  (hstop : Stops (keys table) CSI k)
  (hblank : keys table k = none → ∀ j, (table k).ptr j = allOnes)
  (hnew : (table k).ptr j = allOnes) (hb : b ≠ allOnes)
include hk hCSI hstop hblank hnew hb

/-- The table has its old BIBOPs and the new one. -/
theorem entry_enter {c : Word} : Entry (enter table k j CSI b) c j' b' ↔
    Entry table c j' b' ∨ c = CSI ∧ j' = j ∧ b' = b := by
  unfold Entry
  rw [keys_enter hCSI]
  unfold enter
  constructor
  · rintro ⟨hne, l, hl, hkey, hptr⟩
    by_cases hlk : l = k
    · subst hlk
      rw [Function.update_self, Option.some_inj] at hkey
      rw [Function.update_self] at hptr
      by_cases hj : j' = j
      · subst hj
        exact .inr ⟨hkey.symm, rfl, by simpa using hptr.symm⟩
      · -- a slot with a BIBOP of another class is not empty
        simp only [Function.update_of_ne hj] at hptr
        have hsome : keys table l = some CSI :=
          hstop.resolve_right fun hnone => hne (hptr ▸ hblank hnone j')
        exact .inl ⟨hne, l, hl, by rw [hsome, hkey], hptr⟩
    · rw [Function.update_of_ne hlk] at hkey hptr
      exact .inl ⟨hne, l, hl, hkey, hptr⟩
  · rintro (⟨hne, l, hl, hkey, hptr⟩ | ⟨rfl, rfl, rfl⟩)
    · refine ⟨hne, l, hl, ?_⟩
      by_cases hlk : l = k
      · subst hlk
        have hc : CSI = c := by
          rcases hstop with hsome | hnone
          · rw [hsome, Option.some_inj] at hkey
            exact hkey
          · rw [hnone] at hkey
            cases hkey
        have hj : j' ≠ j := by
          rintro rfl
          exact hne (hptr ▸ hnew)
        rw [Function.update_self, Function.update_self, hc]
        exact ⟨rfl, (Function.update_of_ne hj _ _).trans hptr⟩
      · rw [Function.update_of_ne hlk, Function.update_of_ne hlk]
        exact ⟨hkey, hptr⟩
    · exact ⟨hb, k, hk, by simp, by simp⟩

end Enter

/-! ## One call -/

variable {base b : ℕ} {past rest : List (Word × ℕ)}

theorem Entry.unique (hplaced : Placed individualBIBOPMaxN hash (keys table)) {b' : ℕ}
    (h : Entry table CSI j b) (h' : Entry table CSI j b') : b = b' := by
  obtain ⟨-, k, hk, hkey, hptr⟩ := h
  obtain ⟨-, l, hl, hkey', hptr'⟩ := h'
  rw [hplaced.unique hk hl hkey hkey', hptr'] at hptr
  exact hptr.symm

theorem Holds.stops_of_entry (hh : Holds this base past m h) (he : Entry m.individualBIBOP CSI j b) :
    ∃ k, StopsAt m.individualBIBOP CSI k ∧ keys m.individualBIBOP k = some CSI ∧
      (m.individualBIBOP k).ptr j = b := by
  obtain ⟨-, k, hk, hkey, hptr⟩ := he
  exact ⟨k, hh.placed k hk CSI hkey, hkey, hptr⟩

/-- **A call for a context and a size class that the table has** answers with its BIBOP. -/
theorem Holds.answers (hh : Holds this base past m h)
    (he : Entry m.individualBIBOP CSI (BIBOP.computeSizeIndex n) b) (hCSI : CSI.toNat ≠ allOnes) :
    getIndividualBIBOPbyCSI this CSI n h = .ok b h := by
  obtain ⟨k, hstop, hkey, hptr⟩ := hh.stops_of_entry he
  rw [getIndividualBIBOPbyCSI_stops hh.manager hCSI hstop]
  unfold atSlot
  rw [if_pos ⟨hkey, by rw [hptr]; exact he.1⟩, hptr]
  rfl

theorem mem_pairs {calls : List (Word × ℕ)} {c : Word} :
    (c, j) ∈ pairs calls ↔ ∃ call ∈ calls, call.1 = c ∧ BIBOP.computeSizeIndex call.2 = j := by
  unfold pairs
  rw [List.mem_toFinset, List.mem_map]
  simp only [Prod.mk.injEq]

/-- There are at most as many pairs as the table has pointers. -/
theorem card_pairs_le {calls : List (Word × ℕ)} (hsize : ∀ call ∈ calls, call.2 < bagThreshold)
    (hcard : (calls.map Prod.fst).toFinset.card ≤ individualBIBOPMaxN) :
    (pairs calls).card ≤ individualBIBOPMaxN * globalBagN := by
  have hsub : pairs calls ⊆ (calls.map Prod.fst).toFinset ×ˢ Finset.range globalBagN := by
    rintro ⟨c, j⟩ hmem
    obtain ⟨call, hcall, rfl, rfl⟩ := mem_pairs.mp hmem
    rw [Finset.mem_product, List.mem_toFinset, Finset.mem_range]
    exact ⟨List.mem_map.mpr ⟨call, hcall, rfl⟩, computeSizeIndex_lt (hsize call hcall)⟩
  refine (Finset.card_le_card hsub).trans ?_
  rw [Finset.card_product, Finset.card_range]
  exact Nat.mul_le_mul_right _ hcard

theorem pairs_snoc (past : List (Word × ℕ)) (call : Word × ℕ) :
    pairs (past ++ [call]) = insert (call.1, BIBOP.computeSizeIndex call.2) (pairs past) := by
  ext ⟨c, j⟩
  rw [Finset.mem_insert, mem_pairs, mem_pairs, Prod.mk.injEq]
  simp only [List.mem_append, List.mem_singleton]
  constructor
  · rintro ⟨d, hd | rfl, rfl, rfl⟩
    · exact .inr ⟨d, hd, rfl, rfl⟩
    · exact .inl ⟨rfl, rfl⟩
  · rintro (⟨rfl, rfl⟩ | ⟨d, hd, rfl, rfl⟩)
    · exact ⟨call, .inr rfl, rfl, rfl⟩
    · exact ⟨d, .inl hd, rfl, rfl⟩

/-- The search for a context stops, when there is room for it. -/
theorem Holds.exists_stop (hh : Holds this base past m h)
    (hcard : ((past ++ [(CSI, n)]).map Prod.fst).toFinset.card ≤ individualBIBOPMaxN) :
    ∃ k, StopsAt m.individualBIBOP CSI k := by
  by_cases hmem : CSI ∈ past.map Prod.fst
  · obtain ⟨call, hcall, rfl⟩ := List.mem_map.mp hmem
    obtain ⟨b, he⟩ := hh.entered call hcall
    obtain ⟨k, hstop, -, -⟩ := hh.stops_of_entry he
    exact ⟨k, hstop⟩
  · -- a new context finds a table with an empty slot
    refine hh.placed.exists_stop hh.known ?_ CSI
    have hinsert : ((past ++ [(CSI, n)]).map Prod.fst).toFinset =
        insert CSI (past.map Prod.fst).toFinset := by
      ext c
      simp
    rw [hinsert, Finset.card_insert_of_notMem (by rwa [List.mem_toFinset])] at hcard
    omega

/-- What a call leaves: its BIBOP is in the table, and nothing that was there is lost. -/
def Answered (this base : ℕ) (past : List (Word × ℕ)) (m : MemoryManager) (h : Heap)
    (call : Word × ℕ) (b : ℕ) (h' : Heap) : Prop :=
  ∃ m', Holds this base (past ++ [call]) m' h' ∧ h'.os.failure = h.os.failure ∧
    Entry m'.individualBIBOP call.1 (BIBOP.computeSizeIndex call.2) b ∧
    ∀ c j b, Entry m.individualBIBOP c j b → Entry m'.individualBIBOP c j b

/-- A call that changes nothing. -/
theorem Holds.answered_of_entry (hh : Holds this base past m h)
    (he : Entry m.individualBIBOP CSI (BIBOP.computeSizeIndex n) b) :
    Answered this base past m h (CSI, n) b h := by
  have hpairs : pairs (past ++ [(CSI, n)]) = pairs past := by
    rw [pairs_snoc]
    exact Finset.insert_eq_of_mem (hh.asked CSI _ b he)
  refine ⟨m, ⟨hh.manager, hh.placed, fun k hk c hc => ?_, hh.blank, fun call hcall => ?_, ?_,
    hh.bibop, hh.apart, ?_, hh.room, hh.top, hh.mapped⟩, rfl, he, fun _ _ _ h => h⟩
  · have hknown := hh.known k hk c hc
    rw [List.mem_toFinset] at hknown ⊢
    rw [List.map_append]
    exact List.mem_append_left _ hknown
  · rcases List.mem_append.mp hcall with hold | hnew
    · exact hh.entered call hold
    · obtain rfl := List.mem_singleton.mp hnew
      exact ⟨b, he⟩
  · rw [hpairs]
    exact hh.asked
  · rw [hpairs]
    exact hh.bump

/-- **A call that makes a BIBOP**, at the slot its search stops at. -/
theorem Holds.enter_answered (hh : Holds this base past m h) (hCSI : CSI.toNat ≠ allOnes)
    (hk : StopsAt m.individualBIBOP CSI k)
    (hnew : ∀ b, ¬ Entry m.individualBIBOP CSI (BIBOP.computeSizeIndex n) b)
    (hroom : (pairs past).card < individualBIBOPMaxN * globalBagN) :
    Spec (enterIndividualBIBOP this k (BIBOP.computeSizeIndex n) CSI) h
      (Answered this base past m h (CSI, n)) (Exhausted h) := by
  have hbump := hh.bump
  have hbytes := hh.room
  have htop := hh.top
  unfold objectBytes at hbytes
  have hcovers : covers h.maps m.metadataPool.bumpMemory 40 = true := by
    refine covers_iff.mpr fun x hx hx' => covers_iff.mp hh.mapped x (by omega) ?_
    unfold objectBytes
    omega
  unfold enterIndividualBIBOP
  refine Spec.seq (allocateIndividualBIBOP_made hh.manager (by omega) hh.top hcovers) ?_
  rintro b h₁ ⟨hb, m₁, hmade⟩
  refine Spec.bind (getManager_spec hmade.manager (Spec.bind (setManager_spec (Spec.pure ?_))))
  rw [hmade.table]
  -- the slot, and the new BIBOP
  have hblank := hh.blank k hk.lt
  have hpointer : (m.individualBIBOP k).ptr (BIBOP.computeSizeIndex n) = allOnes := by
    rcases hk.holds with hkey | hnone
    · by_contra hne
      exact hnew _ ⟨hne, k, hk.lt, hkey, rfl⟩
    · exact hblank hnone _
  have hones : b ≠ allOnes := by
    unfold allOnes
    omega
  have hentry : ∀ {c : Word} {j' b' : ℕ},
      Entry (enter m.individualBIBOP k (BIBOP.computeSizeIndex n) CSI b) c j' b' ↔
        Entry m.individualBIBOP c j' b' ∨ c = CSI ∧ j' = BIBOP.computeSizeIndex n ∧ b' = b :=
    entry_enter hk.lt hCSI hk.holds hblank hpointer hones
  have hown := hentry.mpr (.inr ⟨rfl, rfl, rfl⟩)
  have hbelow : ∀ {c : Word} {j' b' : ℕ}, Entry m.individualBIBOP c j' b' → b' < b :=
    fun he => hb ▸ (hh.bibop _ _ _ he).1
  have hpairs : (CSI, BIBOP.computeSizeIndex n) ∉ pairs past := by
    intro hmem
    obtain ⟨call, hcall, rfl, hj⟩ := mem_pairs.mp hmem
    obtain ⟨b', he⟩ := hh.entered call hcall
    exact hnew b' (hj ▸ he)
  refine ⟨_, ⟨Function.update_self .., ?_, ?_, ?_, ?_, ?_, ?_, ?_, ?_, ?_, ?_, ?_⟩, hmade.failure,
    hown, fun c j' b' he => hentry.mpr (.inl he)⟩
  · -- the keys
    change Placed _ _ (keys (enter m.individualBIBOP k (BIBOP.computeSizeIndex n) CSI b))
    rw [keys_enter hCSI]
    rcases hk.holds with hkey | hnone
    · rw [← hkey, Function.update_eq_self]
      exact hh.placed
    · exact hh.placed.insert hk hnone
  · change ∀ l < individualBIBOPMaxN, ∀ c,
      keys (enter m.individualBIBOP k (BIBOP.computeSizeIndex n) CSI b) l = some c → _
    rw [keys_enter hCSI]
    intro l hl c hc
    rw [List.mem_toFinset, List.map_append, List.mem_append]
    by_cases hlk : l = k
    · subst hlk
      rw [Function.update_self, Option.some_inj] at hc
      exact .inr (by simp [hc])
    · rw [Function.update_of_ne hlk] at hc
      exact .inl (List.mem_toFinset.mp (hh.known l hl c hc))
  · change ∀ l < individualBIBOPMaxN,
      keys (enter m.individualBIBOP k (BIBOP.computeSizeIndex n) CSI b) l = none → ∀ j',
        (enter m.individualBIBOP k (BIBOP.computeSizeIndex n) CSI b l).ptr j' = allOnes
    rw [keys_enter hCSI]
    intro l hl hnone j'
    have hlk : l ≠ k := by
      rintro rfl
      rw [Function.update_self] at hnone
      cases hnone
    rw [Function.update_of_ne hlk] at hnone
    unfold enter
    rw [Function.update_of_ne hlk]
    exact hh.blank l hl hnone j'
  · -- the calls
    intro call hcall
    rcases List.mem_append.mp hcall with hold | hlast
    · obtain ⟨b', he⟩ := hh.entered call hold
      exact ⟨b', hentry.mpr (.inl he)⟩
    · obtain rfl := List.mem_singleton.mp hlast
      exact ⟨b, hown⟩
  · intro c j' b' he
    rw [pairs_snoc, Finset.mem_insert]
    rcases hentry.mp he with hold | ⟨rfl, rfl, rfl⟩
    · exact .inr (hh.asked c j' b' hold)
    · exact .inl rfl
  · -- the BIBOPs
    intro c j' b' he
    dsimp only
    rw [hmade.bump]
    rcases hentry.mp he with hold | ⟨rfl, rfl, rfl⟩
    · obtain ⟨hlt, B, hB, hsize⟩ := hh.bibop c j' b' hold
      refine ⟨by omega, B, ?_, hsize⟩
      rw [← hB]
      exact hmade.bibops b' (by omega)
    · rw [hb]
      exact ⟨by omega, hmade.bibop⟩
  · intro c j' c' j'' b' he he'
    rcases hentry.mp he with hold | ⟨rfl, rfl, rfl⟩
    · rcases hentry.mp he' with hold' | ⟨rfl, rfl, rfl⟩
      · exact hh.apart c j' c' j'' b' hold hold'
      · exact absurd (hbelow hold) (lt_irrefl _)
    · rcases hentry.mp he' with hold' | ⟨rfl, rfl, -⟩
      · exact absurd (hbelow hold') (lt_irrefl _)
      · exact ⟨rfl, rfl⟩
  · -- the pool
    dsimp only
    rw [hmade.bump, pairs_snoc, Finset.card_insert_of_notMem hpairs, hbump]
    omega
  · dsimp only
    rw [hmade.boundary]
    exact hh.room
  · dsimp only
    rw [hmade.boundary]
    exact hh.top
  · exact covers_iff.mpr fun x hx hx' => hmade.maps x (covers_iff.mp hh.mapped x hx hx')

/-- The calls are for contexts of 30 bits and sizes below the threshold, with at most as many
contexts as the table has slots. -/
structure Admissible (calls : List (Word × ℕ)) : Prop where
  context : ∀ call ∈ calls, call.1.toNat < 2 ^ 30
  size : ∀ call ∈ calls, call.2 < bagThreshold
  contexts : (calls.map Prod.fst).toFinset.card ≤ individualBIBOPMaxN

theorem Admissible.left (h : Admissible (past ++ rest)) : Admissible past where
  context call hcall := h.context call (List.mem_append_left _ hcall)
  size call hcall := h.size call (List.mem_append_left _ hcall)
  contexts := by
    refine (Finset.card_le_card fun c hc => ?_).trans h.contexts
    rw [List.mem_toFinset] at hc ⊢
    rw [List.map_append]
    exact List.mem_append_left _ hc

theorem Admissible.ne_allOnes (h : Admissible rest) {call : Word × ℕ} (hcall : call ∈ rest) :
    call.1.toNat ≠ allOnes := by
  have hlt := h.context call hcall
  unfold allOnes
  omega

/-- **One call.** -/
theorem getIndividualBIBOPbyCSI_holds (hh : Holds this base past m h)
    (hcalls : Admissible (past ++ [(CSI, n)])) :
    Spec (getIndividualBIBOPbyCSI this CSI n) h (Answered this base past m h (CSI, n))
      (Exhausted h) := by
  have hCSI : CSI.toNat ≠ allOnes :=
    hcalls.ne_allOnes (List.mem_append_right _ (List.mem_singleton_self (CSI, n)))
  by_cases he : ∃ b, Entry m.individualBIBOP CSI (BIBOP.computeSizeIndex n) b
  · obtain ⟨b, he⟩ := he
    have hrun : getIndividualBIBOPbyCSI this CSI n h = (pure b : Proc ℕ) h := hh.answers he hCSI
    exact Spec.congr_run hrun (Spec.pure (hh.answered_of_entry he))
  · push Not at he
    obtain ⟨k, hk⟩ := hh.exists_stop hcalls.contexts
    refine Spec.congr_run (getIndividualBIBOPbyCSI_stops hh.manager hCSI hk) ?_
    unfold atSlot
    rw [if_neg fun hfound => he _ ⟨hfound.2, k, hk.lt, hfound.1, rfl⟩]
    refine hh.enter_answered hCSI hk he ?_
    -- a pair more than there were
    have hnot : (CSI, BIBOP.computeSizeIndex n) ∉ pairs past := by
      intro hmem
      obtain ⟨call, hcall, rfl, hj⟩ := mem_pairs.mp hmem
      obtain ⟨b, hb⟩ := hh.entered call hcall
      exact he b (hj ▸ hb)
    have hle := card_pairs_le hcalls.size hcalls.contexts
    rw [pairs_snoc, Finset.card_insert_of_notMem hnot] at hle
    omega

/-! ## Sequences of calls -/

/-- **A sequence of calls**: each answer is the BIBOP that the table has in the end. -/
theorem getIndividualBIBOPs_holds (hh : Holds this base past m h)
    (hcalls : Admissible (past ++ rest)) :
    Spec (getIndividualBIBOPs this rest) h
      (fun answers h' => ∃ m', Holds this base (past ++ rest) m' h' ∧
        (∀ c j b, Entry m.individualBIBOP c j b → Entry m'.individualBIBOP c j b) ∧
        List.Forall₂ (fun call b => Entry m'.individualBIBOP call.1
          (BIBOP.computeSizeIndex call.2) b) rest answers) (Exhausted h) := by
  induction rest generalizing past m h with
  | nil =>
    rw [List.append_nil]
    exact Spec.pure ⟨m, hh, fun _ _ _ he => he, .nil⟩
  | cons call rest ih =>
    obtain ⟨CSI, n⟩ := call
    rw [← List.singleton_append, ← List.append_assoc] at hcalls ⊢
    unfold getIndividualBIBOPs
    refine Spec.seq (getIndividualBIBOPbyCSI_holds hh hcalls.left) ?_
    rintro b h₁ ⟨m₁, hh₁, hfailure, hentry, hkeep⟩
    have hhalt : Exhausted h = Exhausted h₁ := by
      unfold Exhausted
      rw [hfailure]
    rw [hhalt]
    refine Spec.seq (ih hh₁ hcalls) ?_
    rintro answers h₂ ⟨m₂, hh₂, hkeep₂, hanswers⟩
    exact Spec.pure ⟨m₂, hh₂, fun c j b' he => hkeep₂ c j b' (hkeep c j b' he),
      .cons (hkeep₂ _ _ _ hentry) hanswers⟩

/-- A manager as it is created: the table is empty, and the metadata pool has mapped memory for all
BIBOPs that the table may get. -/
structure Initialized (this : ℕ) (m : MemoryManager) (h : Heap) : Prop where
  manager : h.globalMemoryManager this = some m
  table : ∀ k, m.individualBIBOP k = ⟨fun _ => allOnes, BitVec.ofNat 64 allOnes⟩
  room : m.metadataPool.bumpMemory + objectBytes ≤ m.metadataPool.boundaryMemory
  top : m.metadataPool.boundaryMemory ≤ 2 ^ 63
  mapped : covers h.maps m.metadataPool.bumpMemory objectBytes = true

theorem Initialized.holds (hi : Initialized this m h) :
    Holds this m.metadataPool.bumpMemory [] m h := by
  have hnone : keys m.individualBIBOP = fun _ => none := by
    funext k
    rw [keys_eq_none, hi.table k]
    rfl
  have hempty : ∀ c j b, ¬ Entry m.individualBIBOP c j b := by
    rintro c j b ⟨-, k, -, hkey, -⟩
    rw [hnone] at hkey
    cases hkey
  refine ⟨hi.manager, hnone ▸ Placed.empty, fun k _ c hc => ?_, fun k _ _ j => ?_,
    fun call hcall => absurd hcall List.not_mem_nil, fun c j b he => absurd he (hempty c j b),
    fun c j b he => absurd he (hempty c j b), fun c j _ _ b he => absurd he (hempty c j b), rfl,
    hi.room, hi.top, hi.mapped⟩
  · rw [hnone] at hc
    cases hc
  · rw [hi.table k]

/-- The mappings stay, and failures of `mmap` are left out. -/
def Remaps (h h' : Heap) : Prop :=
  (∀ x, Mapped h.maps x → Mapped h'.maps x) ∧ h'.os.failure = .excluded

theorem Remaps.trans {h₁ h₂ : Heap} (ha : Remaps h h₁) (hb : Remaps h₁ h₂) : Remaps h h₂ :=
  ⟨fun x hx => hb.1 x (ha.1 x hx), hb.2⟩

theorem mmap_remaps {len : ℕ} (hos : h.os.failure = .excluded) :
    Spec (mmap len) h (fun _ h' => Remaps h h') fun _ => True :=
  mmap_spec hos trivial fun _ _ => ⟨fun _ hx => mapped_cons.mpr (.inr hx), hos⟩

theorem allocateSingleBIBOP_remaps {start objectSize capacity : ℕ}
    (hos : h.os.failure = .excluded) :
    Spec (SingleBIBOP.allocateSingleBIBOP start objectSize capacity) h (fun _ h' => Remaps h h')
      fun _ => True := by
  unfold SingleBIBOP.allocateSingleBIBOP
  refine Spec.seq (mmap_remaps hos) fun sb h₁ hmap => ?_
  refine Spec.ite (fun _ => Spec.bind (Spec.throw trivial)) fun _ => ?_
  refine Spec.bind (poke_spec (.inr trivial) fun _ => Spec.bind (setBIBOP_spec (Spec.pure ?_)))
  exact hmap

theorem initGlobalBIBOP_remaps (n : ℕ) (objects : ℕ → ℕ) (hos : h.os.failure = .excluded) :
    Spec (initGlobalBIBOP objects n) h (fun _ h' => Remaps h h') fun _ => True := by
  induction n generalizing objects h with
  | zero => exact Spec.pure ⟨fun _ hx => hx, hos⟩
  | succ n ih =>
    unfold initGlobalBIBOP
    dsimp only
    refine Spec.seq (mmap_remaps hos) fun data h₁ hdata => ?_
    refine Spec.seq (allocateSingleBIBOP_remaps hdata.2) fun sb h₂ hsb => ?_
    exact (ih (Function.update objects (globalBagN - (n + 1)) sb) hsb.2).imp fun _ h₃ hrest =>
      (hdata.trans hsb).trans hrest

/-- **`AllocateMemoryManager`** leaves an initialized manager, when its mappings do not fail. -/
theorem allocateMemoryManager_initialized {threadId : ℕ} (hos : h.os.failure = .excluded) :
    Spec (allocateMemoryManager threadId) h
      (fun m h' => ∀ t, Initialized t m (h'.setManager t m)) fun _ => True := by
  unfold allocateMemoryManager
  refine Spec.seq (mmap_remaps hos) fun mm h₁ hmm => ?_
  refine Spec.bind (poke_spec (.inr trivial) fun _ => ?_)
  refine Spec.bind (allocateMemoryPool_spec hmm.2 individualDataPoolSize_mod fun mp data _ _ => ?_).any
  have hmod : metadataPoolSize % 4096 = 0 := by norm_num [metadataPoolSize]
  refine Spec.bind (allocateMemoryPool_spec
    (h := (h₁.addMapping mp 24).addMapping data individualDataPoolSize) hmm.2 hmod
    fun mp' base _ hfresh => ?_).any
  have htop := hfresh.2.2.2.1
  have hsize : metadataPoolSize = 2 ^ 33 := rfl
  have hbytes : objectBytes = 36700160 := rfl
  have hpage : pageCeil metadataPoolSize = metadataPoolSize := rfl
  -- the object of the global BIBOPs
  have hobject : (⟨base, base, base + metadataPoolSize⟩ : MemoryPool).allocateMemory 120 =
      (⟨base, base + 120, base + metadataPoolSize⟩, base) := by
    unfold MemoryPool.allocateMemory
    dsimp only
    rw [Nat.mod_eq_of_lt (by omega), if_neg (by omega)]
  rw [hobject]
  refine Spec.bind (poke_spec (.inr trivial) fun _ => ?_)
  refine Spec.seq (initGlobalBIBOP_remaps _ _ hmm.2) fun globalBIBOP h₂ hmaps => Spec.pure ?_
  intro t
  refine ⟨Function.update_self .., fun k => rfl, ?_, ?_, ?_⟩
  · dsimp only
    omega
  · dsimp only
    omega
  · refine covers_iff.mpr fun x hx hx' => hmaps.1 x (mapped_cons.mpr (.inl ⟨?_, ?_⟩))
    · dsimp only at hx ⊢
      omega
    · dsimp only at hx' ⊢
      omega

/-- **The first call of a thread** leaves an initialized manager. -/
theorem initThread_initialized {τ : ℕ} (hos : h.os.failure = .excluded) :
    Spec (initThread τ) h (fun _ h' => ∃ m, Initialized (h'.tls τ).threadId m h')
      fun _ => True := by
  unfold initThread
  refine Spec.bind (Spec.get (Spec.bind (Spec.modify ?_)))
  refine Spec.seq (allocateMemoryManager_initialized hos) fun m h₁ hinit => ?_
  refine Spec.ite (fun _ => Spec.bind (Spec.throw trivial)) fun _ => ?_
  refine Spec.bind (setManager_spec (Spec.modify ⟨m, ?_⟩))
  have hm := hinit h.threadBump
  dsimp only [Heap.setThread]
  rw [Function.update_self]
  exact ⟨hm.manager, hm.table, hm.room, hm.top, hm.mapped⟩

/-- The answers of a sequence of calls: they tell contexts and size classes apart, and each is a
BIBOP of its size class. -/
structure LooksUp (calls : List (Word × ℕ)) (answers : List ℕ) (h : Heap) : Prop where
  length : answers.length = calls.length
  same : ∀ p ∈ calls.zip answers, ∀ q ∈ calls.zip answers,
    p.2 = q.2 ↔ p.1.1 = q.1.1 ∧ ∃ size, ClassSize p.1.2 size ∧ ClassSize q.1.2 size
  size : ∀ p ∈ calls.zip answers, ∃ B size, h.bibops p.2 = some B ∧ ClassSize p.1.2 size ∧
    B.objectSize = size + headerSize

theorem Holds.looksUp {answers : List ℕ} {calls : List (Word × ℕ)} (hh : Holds this base past m h)
    (hanswers : List.Forall₂ (fun call b => Entry m.individualBIBOP call.1
      (BIBOP.computeSizeIndex call.2) b) calls answers) : LooksUp calls answers h := by
  have hzip : ∀ p ∈ calls.zip answers,
      Entry m.individualBIBOP p.1.1 (BIBOP.computeSizeIndex p.1.2) p.2 :=
    fun p hp => (List.forall₂_iff_zip.mp hanswers).2 hp
  refine ⟨hanswers.length_eq.symm, fun p hp q hq => ?_, fun p hp => ?_⟩
  · rw [sameClass_iff]
    constructor
    · intro heq
      have hq' := hzip q hq
      rw [← heq] at hq'
      exact hh.apart _ _ _ _ _ (hzip p hp) hq'
    · rintro ⟨hc, hj⟩
      have hq' := hzip q hq
      rw [← hc, ← hj] at hq'
      exact (hzip p hp).unique hh.placed hq'
  · obtain ⟨-, B, hB, hsize⟩ := hh.bibop _ _ _ (hzip p hp)
    exact ⟨B, _, hB, classSize_iff.mpr rfl, hsize⟩

/-- **The context table.** On an initialized manager, a sequence of calls for at most as many contexts
as the table has slots either ends the process because the data pools are used up or a mapping
failed, or tells contexts and size classes apart; and a call for a context and a size class that
were called for before always answers. -/
theorem context_table_lookup {calls : List (Word × ℕ)} (hi : Initialized this m h)
    (hcalls : Admissible calls) :
    (∀ e t, getIndividualBIBOPs this calls h = .error e t → Exhausted h e) ∧
      (∀ answers t, getIndividualBIBOPs this calls h = .ok answers t → LooksUp calls answers t) ∧
      ∀ past call rest answers t, calls = past ++ call :: rest →
        getIndividualBIBOPs this past h = .ok answers t →
        (∃ d ∈ past, d.1 = call.1 ∧ ∃ size, ClassSize d.2 size ∧ ClassSize call.2 size) →
        ∃ b, getIndividualBIBOPbyCSI this call.1 call.2 t = .ok b t := by
  have hadmissible : Admissible ([] ++ calls) := by rwa [List.nil_append]
  have hall := getIndividualBIBOPs_holds hi.holds hadmissible
  refine ⟨fun e t hrun => hall.of_error hrun, fun answers t hrun => ?_, ?_⟩
  · obtain ⟨m', hh, -, hanswers⟩ := hall.of_ok hrun
    exact hh.looksUp hanswers
  · rintro past call rest answers t rfl hrun ⟨d, hd, hc, hclass⟩
    have hbefore : Admissible ([] ++ past) := hcalls.left
    have hpast := getIndividualBIBOPs_holds hi.holds hbefore
    obtain ⟨m', hh, -, -⟩ := hpast.of_ok hrun
    obtain ⟨b, he⟩ := hh.entered d hd
    rw [hc, sameClass_iff.mp hclass] at he
    exact ⟨b, hh.answers he (hcalls.ne_allOnes (by simp))⟩

/-- A manager with an empty table, and memory for its objects and its chunks. -/
def createdManager : MemoryManager where
  individualDataPool _ := ⟨4096, 4096, 4096 + individualDataPoolSize⟩
  lazyIdentifiers _ := ⟨0, 0⟩
  metadataPool := ⟨2 ^ 36, 2 ^ 36, 2 ^ 36 + metadataPoolSize⟩
  globalBIBOP _ := 0
  individualDatPoolBump := 0
  individualBIBOP _ := ⟨fun _ => allOnes, BitVec.ofNat 64 allOnes⟩
  freeList := 0
  threadId := 0

def createdHeap : Heap :=
  ((Config.initial (bumpKernel 0 .excluded)).heap.setMaps [⟨4096, 2 ^ 37⟩]).setManager 0
    createdManager

/-- The contexts `7` and `65543` have the same hash, and the sizes `17` and `32` the same class. -/
theorem context_table_lookup_collision :
    (∀ e t, getIndividualBIBOPs 0 [(7, 17), (65543, 17), (7, 32)] createdHeap = .error e t →
        Exhausted createdHeap e) ∧
      (∀ answers t, getIndividualBIBOPs 0 [(7, 17), (65543, 17), (7, 32)] createdHeap =
        .ok answers t → LooksUp [(7, 17), (65543, 17), (7, 32)] answers t) ∧
      ∃ b t, getIndividualBIBOPs 0 [(7, 17), (65543, 17)] createdHeap = .ok [2 ^ 36, 2 ^ 36 + 40] t ∧
        getIndividualBIBOPbyCSI 0 7 32 t = .ok b t := by
  have hcreated : Initialized 0 createdManager createdHeap :=
    ⟨rfl, fun _ => rfl, by decide, by decide, by decide⟩
  have hcalls : Admissible [(7, 17), (65543, 17), (7, 32)] := ⟨by decide, by decide, by decide⟩
  obtain ⟨herror, hanswers, hreturns⟩ := context_table_lookup hcreated hcalls
  obtain ⟨t, hrun⟩ : ∃ t, getIndividualBIBOPs 0 [(7, 17), (65543, 17)] createdHeap =
      .ok [2 ^ 36, 2 ^ 36 + 40] t := ⟨_, rfl⟩
  obtain ⟨b, hb⟩ := hreturns [(7, 17), (65543, 17)] (7, 32) [] _ t rfl hrun
    ⟨(7, 17), by decide, rfl, 32, classSize_iff.mpr rfl, classSize_iff.mpr rfl⟩
  exact ⟨herror, hanswers, b, t, hrun, hb⟩

end ContextTable

end Semalloc
