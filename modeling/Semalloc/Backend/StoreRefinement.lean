import Semalloc.Library.ObjectStore
import Semalloc.Library.Refinement
import Semalloc.Backend.ReallocSpec

/-!
# The allocator as a store of objects

What the clients of `semalloc` rely on, whatever happens in slots, headers, free lists and mappings:
the live blocks are the objects of a store. An allocation adds an object apart from all others, of
which nothing is known, or, of `css_calloc`, that it starts with zeros; a write changes one byte of
one object; a reallocation leaves the object alone, or moves all its bytes to a larger one; a
release removes it. Every run of the model is a run of such a store under the same calls and
answers.

## Main definitions

* `Config.Answers`: the model as a system whose labels are the events and their answers
* `StoreStep`: what the same events do to a store of objects
* `Represents`: the store has the live blocks, and knows no byte that memory does not hold
* `follow`, `SparedAlong`: where an object goes in a run, and the runs that leave one of its bytes alone

## Main results

* `simulates_store`: each event of the model is one of the store
* `object_store_refined`: whole runs
* `written_byte_read`: a written byte is read back, wherever the object has moved meanwhile
-/

set_option autoImplicit false

namespace Semalloc

open ByteMemory Region Effect MemoryManager ObjectStore Refinement Config

variable {P : Promise} {g g' : Ghost} {live live' : List Block} {h h' : Heap} {B : Block}
  {c c' : Config} {s s' : Store (BitVec 8)} {τ p : ℕ} {os : Kernel}

/-! ## Events and answers -/

/-- What a call returned, null if it did not. -/
def valueOf (r : EStateM.Result Halt Heap ℕ) : ℕ :=
  match r with
  | .ok a _ => a
  | .error _ _ => 0

namespace Config

/-- The pointer that answers an event. -/
def answer (c : Config) (e : Event) : ℕ :=
  match e.op with
  | .malloc size => valueOf (cssMalloc e.thread size c.heap)
  | .calloc nmemb size => valueOf (cssCalloc e.thread nmemb size c.heap)
  | .realloc ptr size => valueOf (cssRealloc e.thread ptr size c.heap)
  | .memalign alignment size => valueOf (cssMemalign e.thread alignment size c.heap)
  | .free _ | .write _ _ _ => 0

/-- An event with its answer. -/
def label (c : Config) (e : Event) : Event × ℕ := (e, c.answer e)

/-- One permitted event that honours the promise, with its answer. -/
def Answers (P : Promise) (c : Config) (l : Event × ℕ) (c' : Config) : Prop :=
  c.Permitted l.1 ∧ c.Honours P l.1 ∧ c.step l.1 = some c' ∧ c.answer l.1 = l.2

theorem answers_label {e : Event} (ha : c.Permitted e ∧ c.Honours P e)
    (hs : c.step e = some c') : Answers P c (c.label e) c' :=
  ⟨ha.1, ha.2, hs, rfl⟩

/-- A reachable configuration is at the end of a run with answers. -/
theorem Run.answers (hr : Run P os c) : ∃ ls, Steps (Answers P) (initial os) ls c :=
  Steps.of_reachable (fun _ h => h) label (fun _ _ _ => answers_label) hr

end Config

/-- What an event with its answer does to a store of objects. -/
def StoreStep (s : Store (BitVec 8)) (l : Event × ℕ) (s' : Store (BitVec 8)) : Prop :=
  match l.1.op with
  | .malloc size => s.Allocates (EmptyWord size) (decodedSize size) .blank l.2 s'
  | .calloc nmemb size =>
    let n := (nmemb * getRealSize size).toNat
    s.Allocates (n = 0) n (.filled 0 n) l.2 s'
  | .realloc ptr size =>
    (ptr = 0 ∧ s.Allocates (EmptyWord size) (decodedSize size) .blank l.2 s') ∨
      ∃ o, s.object ptr = some o ∧
        if size = 0 then l.2 = 0 ∧ s' = s.erase ptr
        else if (getRealSize size).toNat ≤ o.size then l.2 = ptr ∧ s' = s
        else l.2 ≠ ptr ∧ (s.erase ptr).Allocates False (decodedSize size) o.resized l.2 s'
  | .free ptr => s' = s.erase ptr
  | .memalign alignment size =>
    l.2 % alignment.toNat = 0 ∧
      s.Allocates (alignment = 0 ∨ alignment.toNat = 2 ^ 63) (getRealSize size).toNat .blank l.2 s'
  | .write ptr offset byte =>
    (∃ o, s.object ptr = some o ∧ offset < o.size) ∧ s' = s.write ptr offset byte

/-- The objects of the store are the live blocks, of their usable sizes, and every byte the store
knows is in memory. -/
structure Represents (s : Store (BitVec 8)) (h : Heap) (live : List Block) : Prop where
  live : ∀ p, (∃ o, s.object p = some o) ↔ ∃ B ∈ live, B.ptr = p
  size : ∀ p o, s.object p = some o → usableSize h p = o.size
  byte : ∀ p o, s.object p = some o → ∀ i b, o.byte i = some b → h.mem (p + i) = b

/-! ## What the events keep -/

/-- The block at `p` keeps its usable size and its usable bytes. -/
def KeepsBlock (h h' : Heap) (p : ℕ) : Prop :=
  usableSize h' p = usableSize h p ∧ ∀ i < usableSize h p, h'.mem (p + i) = h.mem (p + i)

/-- Live blocks that are spared keep their sizes and bytes. -/
theorem Inv.keepsBlock {x : ℕ → Prop} (hi : Inv P g live h) (hi' : Inv P g' live' h')
    (hg : Grows x g h g' h') (hP : ¬ P.shifted) (hB : B ∈ live) (hx : ¬ x B.ptr) :
    KeepsBlock h h' B.ptr := by
  have hlive := hi.contents.live B hB
  constructor
  · have hu := hlive.usable_grows hi.layout hi'.layout hg hx (hlive.usable hi.layout).1
    rw [usableSize, hu]
  · intro i hlt
    refine hg.held _ B.ptr (hlive.held hi.layout hP ?_ (by omega)) hx
    exact le_trans (Nat.sub_le _ _) (Nat.le_add_right _ _)

namespace Represents

/-- The store stays, while its blocks do. -/
theorem kept (hr : Represents s h live) (hlive : ∀ p, (∃ B ∈ live', B.ptr = p) ↔
    ∃ B ∈ live, B.ptr = p) (hkeep : ∀ B ∈ live, KeepsBlock h h' B.ptr) :
    Represents s h' live' := by
  have hobject : ∀ {p o}, s.object p = some o → KeepsBlock h h' p := by
    intro p o ho
    obtain ⟨B, hB, rfl⟩ := (hr.live p).mp ⟨o, ho⟩
    exact hkeep B hB
  refine ⟨fun p => (hr.live p).trans (hlive p).symm, fun p o ho => ?_, fun p o ho i b hb => ?_⟩
  · rw [(hobject ho).1, hr.size p o ho]
  · have hi := o.known_lt i b hb
    rw [(hobject ho).2 i (by rw [hr.size p o ho]; exact hi), hr.byte p o ho i b hb]

/-- The store without one of its objects. -/
theorem erase (hr : Represents s h live) (p : ℕ) : Represents (s.erase p) h (dropLive live p) := by
  refine ⟨fun q => ?_, fun q o ho => ?_, fun q o ho => ?_⟩
  · simp only [Store.object_erase_eq_some, dropLive, List.mem_filter, decide_eq_true_eq]
    constructor
    · rintro ⟨o, hq, ho⟩
      obtain ⟨B, hB, rfl⟩ := (hr.live q).mp ⟨o, ho⟩
      exact ⟨B, ⟨hB, hq⟩, rfl⟩
    · rintro ⟨B, ⟨hB, hne⟩, rfl⟩
      obtain ⟨o, ho⟩ := (hr.live B.ptr).mpr ⟨B, hB, rfl⟩
      exact ⟨o, hne, ho⟩
  · exact hr.size q o (Store.object_erase_eq_some.mp ho).2
  · exact hr.byte q o (Store.object_erase_eq_some.mp ho).2

/-- The place of a new block is fresh. -/
theorem fresh (hr : Represents s h live) (hi' : Inv P g' (B :: live) h') (hP : ¬ P.shifted)
    (hkeep : ∀ B ∈ live, KeepsBlock h h' B.ptr) : s.Fresh B.ptr (usableSize h' B.ptr) := by
  have hout := hi'.outside
  refine ⟨(hi'.ptr_pos List.mem_cons_self).ne', ?_, fun q o ho => ?_⟩
  · rw [Option.eq_none_iff_forall_ne_some]
    intro o ho
    obtain ⟨B', hB', hptr⟩ := (hr.live _).mp ⟨o, ho⟩
    exact hout B' hB' hptr
  · obtain ⟨B', hB', rfl⟩ := (hr.live q).mp ⟨o, ho⟩
    have hd : Integral ⟨h', B :: live⟩ := hi'.integral hP
    have hsize : usableSize h' B'.ptr = o.size := by rw [(hkeep B' hB').1, hr.size _ o ho]
    rw [← hsize]
    exact hd.disjoint B List.mem_cons_self B' (List.mem_cons_of_mem _ hB') (hout B' hB').symm

/-- **One more block** is one more object, of which memory holds what is known. -/
theorem insert {o : Object (BitVec 8)} (hr : Represents s h live)
    (hkeep : ∀ B ∈ live, KeepsBlock h h' B.ptr) (hfresh : s.Fresh B.ptr o.size)
    (hsize : usableSize h' B.ptr = o.size)
    (hbyte : ∀ i b, o.byte i = some b → h'.mem (B.ptr + i) = b) :
    Represents (s.insert B.ptr o hfresh) h' (B :: live) := by
  have hr' := hr.kept (fun _ => Iff.rfl) hkeep
  -- an object of the new store is the new one, or was there before
  have hcases : ∀ {q o'}, (s.insert B.ptr o hfresh).object q = some o' →
      (q = B.ptr ∧ o' = o) ∨ q ≠ B.ptr ∧ s.object q = some o' := by
    intro q o' ho
    by_cases hq : q = B.ptr
    · subst hq
      rw [Store.object_insert_self] at ho
      exact .inl ⟨rfl, (Option.some.inj ho).symm⟩
    · rw [Store.object_insert_of_ne hfresh hq] at ho
      exact .inr ⟨hq, ho⟩
  refine ⟨fun q => ⟨?_, ?_⟩, fun q o' ho => ?_, fun q o' ho => ?_⟩
  · rintro ⟨o', ho⟩
    rcases hcases ho with ⟨rfl, -⟩ | ⟨-, ho⟩
    · exact ⟨B, List.mem_cons_self, rfl⟩
    · obtain ⟨B', hB', hptr⟩ := (hr.live q).mp ⟨o', ho⟩
      exact ⟨B', List.mem_cons_of_mem _ hB', hptr⟩
  · rintro ⟨B', hB', rfl⟩
    rcases List.mem_cons.mp hB' with rfl | hB'
    · exact ⟨o, Store.object_insert_self hfresh⟩
    · obtain ⟨o', ho⟩ := (hr.live _).mpr ⟨B', hB', rfl⟩
      refine ⟨o', ?_⟩
      rw [Store.object_insert_of_ne hfresh, ho]
      intro hptr
      rw [hptr, hfresh.vacant] at ho
      cases ho
  · rcases hcases ho with ⟨rfl, rfl⟩ | ⟨-, ho⟩
    · exact hsize
    · exact hr'.size q o' ho
  · rcases hcases ho with ⟨rfl, rfl⟩ | ⟨-, ho⟩
    · exact hbyte
    · exact hr'.byte q o' ho

/-- A write to a byte of a live block. -/
theorem write {o : Object (BitVec 8)} {i : ℕ} {b : BitVec 8} (hr : Represents s h live)
    (ho : s.object p = some o) (hi : i < o.size)
    (hlive : ∀ q, (∃ B ∈ live', B.ptr = q) ↔ ∃ B ∈ live, B.ptr = q)
    (hkeep : ∀ B ∈ live, B.ptr ≠ p → KeepsBlock h h' B.ptr)
    (hsize : usableSize h' p = usableSize h p)
    (hmem : ∀ j < o.size, h'.mem (p + j) = if j = i then b else h.mem (p + j)) :
    Represents (s.write p i b) h' live' := by
  have hcases : ∀ {q o'}, (s.write p i b).object q = some o' →
      (q = p ∧ o' = o.write i b) ∨ q ≠ p ∧ s.object q = some o' := by
    intro q o' ho'
    by_cases hq : q = p
    · subst hq
      rw [Store.object_write_self, ho] at ho'
      exact .inl ⟨rfl, (Option.some.inj ho').symm⟩
    · rw [Store.object_write_of_ne s hq] at ho'
      exact .inr ⟨hq, ho'⟩
  have hother : ∀ {q o'}, q ≠ p → s.object q = some o' → KeepsBlock h h' q := by
    intro q o' hq ho'
    obtain ⟨B, hB, rfl⟩ := (hr.live q).mp ⟨o', ho'⟩
    exact hkeep B hB hq
  refine ⟨fun q => ?_, fun q o' ho' => ?_, fun q o' ho' j b' hb => ?_⟩
  · rw [hlive, ← hr.live]
    by_cases hq : q = p
    · subst hq
      simp [Store.object_write_self, ho]
    · rw [Store.object_write_of_ne s hq]
  · rcases hcases ho' with ⟨rfl, rfl⟩ | ⟨hq, ho'⟩
    · rw [hsize, hr.size _ o ho]
      rfl
    · rw [(hother hq ho').1, hr.size q o' ho']
  · rcases hcases ho' with ⟨rfl, rfl⟩ | ⟨hq, ho'⟩
    · have hj := (o.write i b).known_lt j b' hb
      rw [hmem j hj]
      by_cases hji : j = i
      · subst hji
        rw [Object.byte_write_self hi] at hb
        rw [if_pos rfl]
        exact Option.some.inj hb
      · rw [Object.byte_write_of_ne hji] at hb
        rw [if_neg hji]
        exact hr.byte _ o ho j b' hb
    · have hj := o'.known_lt j b' hb
      rw [(hother hq ho').2 j (by rw [hr.size q o' ho']; exact hj), hr.byte q o' ho' j b' hb]

end Represents

/-! ## The simulation -/

/-- A block handed out is an object allocated. -/
theorem Represents.allocated {null : Prop} {k : ℕ} {make : ℕ → Object (BitVec 8)}
    (hr : Represents s h live) (hi' : Inv P g' (B :: live) h') (hP : ¬ P.shifted)
    (hkeep : ∀ B ∈ live, KeepsBlock h h' B.ptr) (hnull : ¬ null) (hk : k ≤ usableSize h' B.ptr)
    (hmake : ∀ m, (make m).size = m)
    (hbyte : ∀ i b, (make (usableSize h' B.ptr)).byte i = some b → h'.mem (B.ptr + i) = b) :
    ∃ s', s.Allocates null k make B.ptr s' ∧ Represents s' h' (B :: live) := by
  have hfresh := hr.fresh hi' hP hkeep
  rw [← hmake (usableSize h' B.ptr)] at hfresh
  exact ⟨_, .inr ⟨hnull, _, hk, hfresh, rfl⟩, hr.insert hkeep hfresh (hmake _).symm hbyte⟩

/-- **An allocation entry point** adds an object, or answers null. -/
theorem Represents.handed {null null' : Prop} {n l u k : ℕ} {make : ℕ → Object (BitVec 8)}
    (hr : Represents s h live) (hi : Inv P g live h) (hP : ¬ P.shifted)
    (hh : Handed P g h live null n l u p h') (hnull : null ↔ null') (hk : p ≠ 0 → k ≤ u)
    (hmake : ∀ m, (make m).size = m)
    (hbyte : p ≠ 0 → ∀ i b, (make u).byte i = some b → h'.mem (p + i) = b) :
    ∃ s', s.Allocates null' k make p s' ∧ Represents s' h' (addLive live p n l) := by
  rcases hh with ⟨rfl, hz, g', ha⟩ | ⟨hp, hnot, ⟨g', ha⟩, hu⟩
  · refine ⟨s, .inl ⟨rfl, hnull.mp hz, rfl⟩, hr.kept (fun _ => Iff.rfl) fun B hB => ?_⟩
    exact hi.keepsBlock ha.inv ha.grows hP hB not_false
  · have hval : usableSize h' p = u := by rw [usableSize, hu]
    rw [addLive, if_neg hp.ne']
    refine hr.allocated ha.inv hP (fun B hB => ?_) (fun hz => hnot (hnull.mpr hz)) ?_ hmake ?_
    · exact hi.keepsBlock ha.inv ha.grows hP hB fun hout => hout B hB rfl
    · rw [hval]
      exact hk hp.ne'
    · rw [hval]
      exact hbyte hp.ne'

/-- `css_malloc`, and `css_realloc` of null. -/
theorem Represents.malloc {size : Word} (hr : Represents s h live) (hi : Inv P g live h)
    (hP : ¬ P.shifted) (hh : Handed P g h live (EmptyWord size) (decodedSize size)
      (mallocUsable size) (mallocUsable size) p h') :
    ∃ s', s.Allocates (EmptyWord size) (decodedSize size) .blank p s' ∧
      Represents s' h' (addLive live p (decodedSize size) (usableSize h' p)) := by
  rw [hh.usable]
  exact hr.handed hi hP hh Iff.rfl (fun _ => decodedSize_le_mallocUsable size) (fun _ => rfl)
    fun _ _ _ hb => by cases hb

/-- The size of an aligned request wraps around to zero only for the largest alignment. -/
theorem memalignSize_eq_zero {alignment realSize : Word} (hreal : realSize.toNat < 2 ^ 32) :
    memalignSize alignment realSize = 0 ↔ alignment = 0 ∨ alignment.toNat = 2 ^ 63 := by
  have heq := memalignSize_eq alignment realSize
  rw [Nat.mod_eq_of_lt (show realSize.toNat + 16 < 2 ^ 64 by omega)] at heq
  have hdiv := Nat.div_mul_le_self (realSize.toNat + 16) alignment.toNat
  have hlt := alignment.isLt
  rw [BitVec.toNat_eq, BitVec.toNat_eq, heq, show (0 : Word).toNat = 0 from rfl]
  constructor
  · intro hz
    by_cases hlarge : 2 ^ 62 < alignment.toNat
    · rw [Nat.div_eq_of_lt (by omega)] at hz
      omega
    · omega
  · rintro (hz | hz) <;> rw [hz]
    · rfl
    · rw [Nat.div_eq_of_lt (by omega)]
      rfl

/-- The clients write no byte past the usable ones. -/
theorem LiveBlock.limit_le (hB : LiveBlock P g.own g.reg g.use h.mem B)
    (hl : Layout g.own g.reg h) (hP : ¬ P.shifted) : B.limit ≤ usableSize h B.ptr := by
  cases hB with
  | @slot b s k hB =>
    have hu : usableSize h B.ptr = minBagSize <<< k.sizeClass := by
      rw [usableSize, hB.block.usableSize hl]
    obtain ⟨hptr, -⟩ := hB.block.kind.resolve_right fun hk => hP hk.1
    have hlimit := hB.limit_le
    have hclass := slotSize_sub k.sizeClass
    omega
  | huge hB =>
    have hu : usableSize h B.ptr = HugeHeader.size h.mem (B.ptr - headerSize) := by
      rw [usableSize, hB.usableSize hl]
    rw [hu]
    exact hB.limit_le

/-- A live block whose header stays keeps its usable size. -/
theorem LiveBlock.usableSize_setMem {m : ByteMemory}
    (hB : LiveBlock P g.own g.reg g.use h.mem B) (hl : Layout g.own g.reg h)
    (hsame : SameHeader h.mem m (B.ptr - headerSize)) (hl' : Layout g.own g.reg (h.setMem m)) :
    usableSize (h.setMem m) B.ptr = usableSize h B.ptr := by
  cases hB with
  | slot hB =>
    rw [usableSize, usableSize, hB.block.usableSize hl, (hB.block.congr hsame).usableSize hl']
  | huge hB =>
    rw [usableSize, usableSize, hB.usableSize hl, usableSize_of_huge (h := h.setMem m)
      (hB.head_covers hl) (hsame.isHuge.trans hB.isHuge)]
    exact hsame.size

/-- A block handed out holds what was asked for. -/
theorem Handed.le_usable {null : Prop} {n l u : ℕ} (hh : Handed P g h live null n l u p h')
    (hP : ¬ P.shifted) (hp : p ≠ 0) : n ≤ u ∧ l ≤ u := by
  rcases hh with ⟨hz, -⟩ | ⟨-, -, ⟨g', ha⟩, hu⟩
  · exact absurd hz hp
  · have hB := ha.inv.contents.live _ List.mem_cons_self
    have hcount := (hB.usable ha.inv.layout).2
    have hlimit := hB.limit_le ha.inv.layout hP
    rw [usableSize, hu] at hcount hlimit
    exact ⟨hcount, hlimit⟩

/-- What `css_realloc` of a live block does to the store. -/
theorem Represents.realloc {size : Word} {r : ℕ} (hr : Represents s h live)
    (hi : Inv P g live h) (hready : Ready h) (hP : ¬ P.shifted) (hkept : ∀ k, ¬ P.kept k)
    (hτ : τ ≠ 0) (hB : B ∈ live) (hrun : cssRealloc τ B.ptr size h = .ok r h') :
    ∃ s', StoreStep s (⟨τ, .realloc B.ptr size⟩, r) s' ∧
      Represents s' h' (reallocLive live B.ptr size r h') := by
  obtain ⟨e, -, hf, -⟩ := hi.dispatched hB
  obtain ⟨o, ho⟩ := (hr.live B.ptr).mpr ⟨B, hB, rfl⟩
  have hpos := hi.ptr_pos hB
  have hk : ∀ q, Releasable P g q := fun _ _ _ _ _ _ => hkept _
  obtain ⟨⟨g', ha⟩, hanswer⟩ :=
    (cssRealloc_spec hi hready hτ (.inr ⟨B, hB, rfl⟩) fun _ => hk _).of_ok hrun
  -- blocks other than the one passed in are spared
  have hdrop : ∀ B' ∈ dropLive live B.ptr, KeepsBlock h h' B'.ptr := by
    intro B' hB'
    obtain ⟨hB', hne⟩ := List.mem_filter.mp hB'
    refine hi.keepsBlock ha.inv ha.grows hP hB' ?_
    rintro (he | hout)
    · exact of_decide_eq_true hne he
    · exact hout B' hB' rfl
  have herase := (hr.erase B.ptr).kept (fun _ => Iff.rfl) hdrop
  have hsize := hr.size _ o ho
  cases (cssRealloc_traced hi hready hτ hB hf fun _ => hk _).of_ok hrun with
  | freed hz hr0 _ _ =>
    refine ⟨s.erase B.ptr, .inr ⟨o, ho, ?_⟩, ?_⟩
    · rw [if_pos hz]
      exact ⟨hr0, rfl⟩
    · rw [reallocLive, hr0, if_neg hpos.ne, addLive, if_pos rfl]
      exact herase
  | kept hz hle hrp hensure =>
    subst hrp
    refine ⟨s, .inr ⟨o, ho, ?_⟩, ?_⟩
    · rw [if_neg hz, if_pos (hsize ▸ hle)]
      exact ⟨rfl, rfl⟩
    · obtain ⟨g₁, ha₁, -⟩ := (ensureThread_spec hi hready hτ).of_ok hensure
      rw [reallocLive, if_pos rfl]
      refine hr.kept (fun q => ?_) fun B' hB' =>
        hi.keepsBlock ha₁.inv ha₁.grows hP hB' not_false
      simp only [resizeLive, List.mem_map]
      constructor
      · rintro ⟨_, ⟨B', hB', rfl⟩, rfl⟩
        exact ⟨B', hB', by split <;> rfl⟩
      · rintro ⟨B', hB', rfl⟩
        exact ⟨_, ⟨B', hB', rfl⟩, by split <;> rfl⟩
  | moved hlt hne _ _ _ hcontents =>
    have hz : size ≠ 0 := fun hz => by rw [hz] at hlt; exact absurd hlt (Nat.not_lt_zero _)
    have hu : 0 < r ∧ usableSize h' r = mallocUsable size := by
      cases hanswer with
      | null _ hnull =>
        rcases hnull with hz' | ⟨hz', -⟩
        · exact absurd hz' hz
        · omega
      | kept _ hr _ _ => exact absurd hr hne
      | moved _ hr hu => exact ⟨hr, by rw [usableSize, hu]⟩
    have hdecoded := decodedSize_le_mallocUsable size
    have hreal := realSize_le_decodedSize size
    have husable : decodedSize size ≤ usableSize h' r := by rw [hu.2]; exact hdecoded
    have hinv := ha.inv
    rw [reallocLive, if_neg hne, addLive, if_neg hu.1.ne'] at hinv ⊢
    have hin := hf.includes_usable hi.layout hP
    have hbyte : ∀ i b, (o.resized (usableSize h' r)).byte i = some b → h'.mem (r + i) = b := by
      intro i b hb
      rw [Object.byte_resized (show o.size ≤ usableSize h' r by omega)] at hb
      have hi' := o.known_lt i b hb
      rw [hcontents hin i (by omega)]
      exact hr.byte _ o ho i b hb
    obtain ⟨s', hallocates, hr'⟩ :=
      (hr.erase B.ptr).allocated hinv hP hdrop not_false husable (fun _ => rfl) hbyte
    refine ⟨s', .inr ⟨o, ho, ?_⟩, hr'⟩
    rw [if_neg hz, if_neg (by omega)]
    exact ⟨hne, hallocates⟩

/-- **Each event** of the model is one of the store. -/
theorem simulates_store : Simulates (Answers .unshifted) StoreStep
    fun c s => Sound .unshifted c ∧ Represents s c.heap c.live := by
  rintro c ⟨⟨τ, op⟩, r⟩ c' s ⟨hsound, hr⟩ ⟨hp, hh, hs, hanswer⟩
  have hP : ¬ Promise.unshifted.shifted := not_false
  have hsound' := hsound.step hp hh hs
  obtain ⟨g, hi, hready⟩ := hsound
  suffices hstep : ∃ s', StoreStep s (⟨τ, op⟩, r) s' ∧ Represents s' c'.heap c'.live by
    obtain ⟨s', hstep, hr'⟩ := hstep
    exact ⟨s', hstep, hsound', hr'⟩
  have hτ := hp.1
  -- a call is about one block at most, and the others keep their bytes
  have hdrop : ∀ B ∈ c.live, B.ptr ≠ op.pointer → KeepsBlock c.heap c'.heap B.ptr := by
    intro B hB hne
    obtain ⟨g', ha⟩ := step_after hi hready hp hh hs
    refine hi.keepsBlock ha.inv ha.grows hP hB ?_
    rintro (he | hout)
    · exact hne he
    · exact hout B hB rfl
  cases op with
  | malloc size =>
    obtain ⟨r', t, hrun, rfl⟩ := returned_eq hs
    obtain rfl : r' = r := by simpa [answer, hrun, valueOf] using hanswer
    exact hr.malloc hi hP ((cssMalloc_spec hi hready hτ).of_ok hrun)
  | calloc nmemb size =>
    obtain ⟨r', t, hrun, rfl⟩ := returned_eq hs
    obtain rfl : r' = r := by simpa [answer, hrun, valueOf] using hanswer
    have hh := (cssCalloc_spec hi hready).of_ok hrun
    have hzero := (cssCalloc_cleared nmemb size c.heap).of_ok hrun
    rw [hh.usable]
    refine hr.handed hi hP hh ?_ (fun hne => (hh.le_usable hP hne).1) (fun _ => rfl) ?_
    · rw [BitVec.toNat_eq]
      rfl
    · intro _ i b hb
      obtain ⟨⟨hlt, -⟩, rfl⟩ := Object.byte_filled.mp hb
      exact hzero i hlt
  | realloc ptr size =>
    obtain ⟨r', t, hrun, rfl⟩ := returned_eq hs
    obtain rfl : r' = r := by simpa [answer, hrun, valueOf] using hanswer
    rcases hp.2 with hz | ⟨B, hB, hptr⟩
    · obtain rfl : ptr = 0 := hz
      -- without a block it is a call of malloc
      rw [cssRealloc_null] at hrun
      obtain ⟨s', hallocates, hr'⟩ := hr.malloc hi hP ((cssMalloc_spec hi hready hτ).of_ok hrun)
      refine ⟨s', .inl ⟨rfl, hallocates⟩, ?_⟩
      rw [hi.dropLive_zero, hi.resizeLive_zero]
      split
      · rename_i hz
        rw [hz] at hr'
        exact hr'
      · exact hr'
    · obtain rfl : B.ptr = ptr := hptr
      exact hr.realloc hi hready hP (fun _ => id) hτ hB hrun
  | free ptr =>
    obtain ⟨r', t, hrun, rfl⟩ := returned_eq hs
    exact ⟨_, rfl, (hr.erase ptr).kept (fun _ => Iff.rfl) fun B hB =>
      hdrop B (List.mem_filter.mp hB).1 (of_decide_eq_true (List.mem_filter.mp hB).2)⟩
  | memalign alignment size =>
    obtain ⟨r', t, hrun, rfl⟩ := returned_eq hs
    obtain rfl : r' = r := by simpa [answer, hrun, valueOf] using hanswer
    obtain ⟨haligned, hhanded, -⟩ := (cssMemalign_spec hi hready hh).of_ok hrun
    have hreal : (getRealSize size).toNat < 2 ^ 32 := by
      rw [toNat_getRealSize]
      exact Nat.mod_lt _ (by norm_num)
    have hnone : r' ≠ 0 → ∀ i b, (Object.blank (regularUsable (memalignSize alignment
        (getRealSize size)))).byte i = some b → t.mem (r' + i) = b := fun _ _ _ hb => by cases hb
    obtain ⟨s', hallocates, hr'⟩ := hr.handed hi hP hhanded (memalignSize_eq_zero hreal)
      (fun hne => (hhanded.le_usable hP hne).2) (fun _ => rfl) hnone
    exact ⟨s', ⟨haligned, hallocates⟩, hr'⟩
  | write ptr offset byte =>
    obtain rfl := write_eq hs
    obtain ⟨-, B, hB, rfl, hlt⟩ := hp
    have hlive := hi.contents.live B hB
    have hlimit := hlive.limit_le hi.layout hP
    obtain ⟨o, ho⟩ := (hr.live B.ptr).mpr ⟨B, hB, rfl⟩
    have hsize := hr.size _ o ho
    refine ⟨_, ⟨⟨o, ho, by omega⟩, rfl⟩, hr.write ho (by omega) (fun _ => Iff.rfl) hdrop ?_ ?_⟩
    · refine hlive.usableSize_setMem hi.layout ?_ ?_
      · rintro a ⟨h₁, h₂⟩
        have hge := hlive.headerSize_lt
        exact writeByte_of_ne _ (by simp only [headerSize] at *; omega)
      · exact (hi.writeBlock hB fun a hne => by
          by_contra hout
          exact hne (writeByte_of_ne _ (by omega))).1.layout
    · intro j _
      by_cases hj : j = offset
      · rw [hj, if_pos rfl]
        exact writeByte_self _
      · rw [if_neg hj]
        exact writeByte_of_ne _ (by omega)

/-! ## Runs -/

theorem represents_initial (os : Kernel) :
    Represents .empty (initial os).heap (initial os).live := by
  refine ⟨fun p => ?_, fun p o ho => ?_, fun p o ho => ?_⟩
  · simp [initial, Store.empty]
  · cases ho
  · cases ho

/-- **The allocator refines the store of objects**: every run, with the pointers it answers, is a
run of the store, which at its end has just the live blocks, of their usable sizes, and knows no
byte that memory does not hold. -/
theorem object_store_refined (hos : os.failure = .excluded) {ls : List (Event × ℕ)}
    (hls : Steps (Answers .unshifted) (initial os) ls c) :
    ∃ s, Steps StoreStep .empty ls s ∧ Represents s c.heap c.live := by
  obtain ⟨s, hs, -, hr⟩ :=
    simulates_store.steps hls ⟨sound_initial hos, represents_initial os⟩
  exact ⟨s, hs, hr⟩

/-- A block that is written and moved, and another one that is cleared in its place. -/
theorem object_store_refined_moved : ∃ ls c s,
    Steps (Answers .unshifted) (initial (bumpKernel 0 .excluded)) ls c ∧
      c.live.map Block.ptr = [47319765008, 55909707792] ∧
      Steps StoreStep .empty ls s ∧ Represents s c.heap c.live := by
  have hrun : ((Config.run .unshifted (bumpKernel 0 .excluded)
      [⟨1, .malloc 24⟩, ⟨1, .write 47319765008 20 7⟩, ⟨1, .realloc 47319765008 100⟩,
        ⟨1, .calloc 2 12⟩]).map fun c => c.live.map Block.ptr) =
      some [47319765008, 55909707792] := by decide +kernel
  obtain ⟨c, hc, hlive⟩ := Option.map_eq_some_iff.mp hrun
  have hls := Steps.of_exec label (fun _ _ _ => answers_label) hc
  obtain ⟨s, hs, hr⟩ := object_store_refined rfl hls
  exact ⟨_, c, s, hls, hlive, hs, hr⟩

/-- Where the object at `p` is after an event. -/
def follow (p : ℕ) (l : Event × ℕ) : ℕ :=
  match l.1.op with
  | .realloc ptr _ => if ptr = p then l.2 else p
  | _ => p

/-- The event neither writes byte `i` of the object at `p` nor releases the object. -/
def Spares (p i : ℕ) (l : Event × ℕ) : Prop :=
  match l.1.op with
  | .free ptr => ptr ≠ p
  | .write ptr offset _ => ¬ (ptr = p ∧ offset = i)
  | .realloc ptr size => ptr = p → size ≠ 0
  | _ => True

instance (p i : ℕ) (l : Event × ℕ) : Decidable (Spares p i l) :=
  match l with
  | ⟨⟨_, .free _⟩, _⟩ => inferInstanceAs (Decidable (_ ≠ _))
  | ⟨⟨_, .write _ _ _⟩, _⟩ => inferInstanceAs (Decidable (¬ (_ ∧ _)))
  | ⟨⟨_, .realloc _ _⟩, _⟩ => inferInstanceAs (Decidable (_ → _ ≠ _))
  | ⟨⟨_, .malloc _⟩, _⟩ | ⟨⟨_, .calloc _ _⟩, _⟩ | ⟨⟨_, .memalign _ _⟩, _⟩ => .isTrue trivial

/-- No event of the run writes byte `i` of the object that starts out at `p`, wherever it is then,
or releases it. -/
def SparedAlong (i : ℕ) : ℕ → List (Event × ℕ) → Prop
  | _, [] => True
  | p, l :: ls => Spares p i l ∧ SparedAlong i (follow p l) ls

instance (i : ℕ) : ∀ p ls, Decidable (SparedAlong i p ls)
  | _, [] => .isTrue trivial
  | p, l :: ls => @instDecidableAnd _ _ _ (instDecidableSparedAlong i (follow p l) ls)

theorem sparedAlong_concat {i : ℕ} {l : Event × ℕ} {ls : List (Event × ℕ)} :
    SparedAlong i p (ls ++ [l]) ↔ SparedAlong i p ls ∧ Spares (ls.foldl follow p) i l := by
  induction ls generalizing p with
  | nil => simp [SparedAlong]
  | cons l' ls ih => simp [SparedAlong, ih, and_assoc]

/-- **One event** of the store keeps what is known of a byte it spares. -/
theorem StoreStep.known {l : Event × ℕ} {i : ℕ} {b : BitVec 8} {o : Object (BitVec 8)}
    (hs : StoreStep s l s') (ho : s.object p = some o) (hb : o.byte i = some b)
    (hl : Spares p i l) : ∃ o', s'.object (follow p l) = some o' ∧ o'.byte i = some b := by
  obtain ⟨⟨τ, op⟩, r⟩ := l
  have hp : p ≠ 0 := by
    rintro rfl
    rw [s.null] at ho
    cases ho
  cases op with
  | malloc size => exact ⟨o, hs.object_of_ne ho, hb⟩
  | calloc nmemb size => exact ⟨o, Store.Allocates.object_of_ne hs ho, hb⟩
  | memalign alignment size => exact ⟨o, hs.2.object_of_ne ho, hb⟩
  | free ptr =>
    obtain rfl := hs
    exact ⟨o, Store.object_erase_eq_some.mpr ⟨fun he => hl he.symm, ho⟩, hb⟩
  | write ptr offset byte =>
    obtain ⟨-, rfl⟩ := hs
    by_cases hptr : ptr = p
    · subst hptr
      refine ⟨o.write offset byte, ?_, ?_⟩
      · show (s.write ptr offset byte).object ptr = _
        rw [Store.object_write_self, ho]
        rfl
      · rw [Object.byte_write_of_ne fun he => hl ⟨rfl, he.symm⟩, hb]
    · exact ⟨o, (Store.object_write_of_ne s fun he => hptr he.symm).trans ho, hb⟩
  | realloc ptr size =>
    rcases hs with ⟨hz, hallocates⟩ | ⟨o', ho', hs⟩
    · refine ⟨o, ?_, hb⟩
      unfold follow
      dsimp only at hz ⊢
      rw [if_neg (by omega)]
      exact hallocates.object_of_ne ho
    · by_cases hptr : ptr = p
      · subst hptr
        -- the block is kept, or moved with all of its bytes
        obtain rfl : o' = o := Option.some.inj (ho'.symm.trans ho)
        have hfollow : follow ptr (⟨τ, .realloc ptr size⟩, r) = r := if_pos rfl
        rw [if_neg (hl rfl)] at hs
        rw [hfollow]
        split at hs
        · obtain ⟨hr, rfl⟩ := hs
          exact ⟨o', by rw [show r = ptr from hr, ho], hb⟩
        · rename_i hlarge
          obtain ⟨-, ⟨-, hfalse, -⟩ | ⟨-, m, hm, hfresh, rfl⟩⟩ := hs
          · exact hfalse.elim
          · have hreal := realSize_le_decodedSize size
            exact ⟨_, Store.object_insert_self hfresh, by rw [Object.byte_resized (by omega), hb]⟩
      · have hfollow : follow p (⟨τ, .realloc ptr size⟩, r) = p := if_neg hptr
        have herase : (s.erase ptr).object p = some o :=
          Store.object_erase_eq_some.mpr ⟨fun he => hptr he.symm, ho⟩
        refine ⟨o, ?_, hb⟩
        rw [hfollow]
        split at hs
        · rw [hs.2, herase]
        · split at hs
          · rw [hs.2, ho]
          · exact hs.2.object_of_ne herase

/-- A run of the store keeps what is known of a byte it spares. -/
theorem known_of_sparedAlong {ls : List (Event × ℕ)} {i : ℕ} {b : BitVec 8}
    {o : Object (BitVec 8)} (hs : Steps StoreStep s ls s') (ho : s.object p = some o)
    (hb : o.byte i = some b) (hls : SparedAlong i p ls) :
    ∃ o', s'.object (ls.foldl follow p) = some o' ∧ o'.byte i = some b := by
  induction hs with
  | nil => exact ⟨o, ho, hb⟩
  | snoc _ hl ih =>
    obtain ⟨hls, hspares⟩ := sparedAlong_concat.mp hls
    obtain ⟨o₁, ho₁, hb₁⟩ := ih hls
    rw [List.foldl_append]
    exact hl.known ho₁ hb₁ hspares

/-- **A written byte is read back**: in every run, after a client wrote a byte of its block, and
until that byte is written again or the block is released, the byte is found at its offset in the
block, wherever `css_realloc` has moved the block meanwhile, by whichever threads. -/
theorem written_byte_read (hos : os.failure = .excluded) (hr : Config.Run .unshifted os c)
    {i : ℕ} {b : BitVec 8} {c₁ : Config}
    (hp : c.Permitted ⟨τ, .write p i b⟩) (hwrite : c.step ⟨τ, .write p i b⟩ = some c₁)
    {ls : List (Event × ℕ)} (hls : Steps (Answers .unshifted) c₁ ls c')
    (hspared : SparedAlong i p ls) :
    (∃ B ∈ c'.live, B.ptr = ls.foldl follow p) ∧ c'.heap.mem (ls.foldl follow p + i) = b := by
  obtain ⟨ls₀, hls₀⟩ := hr.answers
  obtain ⟨s, -, hR⟩ := simulates_store.steps hls₀ ⟨sound_initial hos, represents_initial os⟩
  obtain ⟨s₁, ⟨⟨o, ho, hi⟩, rfl⟩, hR₁⟩ := simulates_store _ (_, 0) _ _ hR ⟨hp, trivial, hwrite, rfl⟩
  obtain ⟨s', hs, -, hrep⟩ := simulates_store.steps hls hR₁
  have hwritten : (s.write p i b).object p = some (o.write i b) := by
    rw [Store.object_write_self, show s.object p = some o from ho]
    rfl
  obtain ⟨o', ho', hb'⟩ := known_of_sparedAlong hs hwritten (Object.byte_write_self hi) hspared
  exact ⟨(hrep.live _).mp ⟨o', ho'⟩, hrep.byte _ o' ho' i b hb'⟩

/-- A byte of a block that another thread moves, while a third block takes its place. -/
theorem written_byte_read_moved : ∃ (c' : Config) (ls : List (Event × ℕ)),
    ls.foldl follow 47319765008 = 159064096784 ∧
      (∃ B ∈ c'.live, B.ptr = ls.foldl follow 47319765008) ∧
      c'.heap.mem (ls.foldl follow 47319765008 + 20) = 7 := by
  have hrun : ((Config.run .unshifted (bumpKernel 0 .excluded) [⟨1, .malloc 24⟩]).bind fun c =>
      (c.step ⟨1, .write 47319765008 20 7⟩).bind fun c₁ =>
      (Transition.exec (fun c e => c.Permitted e ∧ c.Honours .unshifted e) Config.step c₁
        [⟨2, .realloc 47319765008 100⟩, ⟨1, .calloc 2 12⟩]).map fun _ =>
      let ls := Steps.labels Config.step label c₁
        [⟨2, .realloc 47319765008 100⟩, ⟨1, .calloc 2 12⟩]
      (decide (c.Permitted ⟨1, .write 47319765008 20 7⟩), decide (SparedAlong 20 47319765008 ls),
        ls.foldl follow 47319765008)) =
      some (true, true, 159064096784) := by decide +kernel
  obtain ⟨c, hc, hrun⟩ := Option.bind_eq_some_iff.mp hrun
  obtain ⟨c₁, hc₁, hrun⟩ := Option.bind_eq_some_iff.mp hrun
  obtain ⟨c', hc', hrun⟩ := Option.map_eq_some_iff.mp hrun
  obtain ⟨hp, hrun⟩ := Prod.mk.inj hrun
  obtain ⟨hspared, hfollow⟩ := Prod.mk.inj hrun
  have hls := Steps.of_exec label (fun _ _ _ => answers_label) hc'
  exact ⟨c', _, hfollow, written_byte_read rfl (.of_run hc) (of_decide_eq_true hp) hc₁ hls
    (of_decide_eq_true hspared)⟩

end Semalloc
