import Semalloc.Backend.AlignmentSpec

/-!
# Runs keep the invariant

One event keeps the invariant, so every reachable configuration satisfies it. A class of runs is
given by a promise, which each of its events honours.

## Main definitions

* `Honours`: an event that keeps the promise
* `Config.Run`: the configurations reachable by permitted events that honour a promise

## Main results

* `Config.step_after`: one event
* `Config.Run.sound`: every reachable configuration
-/

set_option autoImplicit false

namespace Semalloc

open ByteMemory Region Effect MemoryManager

variable {P : Promise} {g : Ghost} {c c' : Config} {e : Event}

/-- The runs in which `css_memalign` never shifts an address. -/
def Promise.unshifted : Promise := ⟨fun _ => False, False⟩

instance : DecidablePred Promise.unshifted.kept := fun _ => .isFalse id

instance : Decidable Promise.unshifted.shifted := .isFalse id

/-- The runs in which `css_memalign` shifts addresses only inside slots, and only where the last
byte of the second header is clear. -/
def Promise.cleanShifts : Promise := ⟨fun _ => False, True⟩

instance : DecidablePred Promise.cleanShifts.kept := fun _ => .isFalse id

instance : Decidable Promise.cleanShifts.shifted := .isTrue trivial

/-- The block an operation is given. -/
def Op.pointer : Op → ℕ
  | .realloc ptr _ => ptr
  | .free ptr => ptr
  | .write ptr _ _ => ptr
  | _ => 0

/-- The record is of a slot of a compartment that satisfies `kept`. -/
def Served.From (kept : Compartment → Prop) (r : Served) : Prop :=
  match r.origin with
  | .pool k => kept k
  | .huge => False

instance (kept : Compartment → Prop) [DecidablePred kept] (r : Served) :
    Decidable (r.From kept) :=
  match r with
  | ⟨.pool k, _, _⟩ => inferInstanceAs (Decidable (kept k))
  | ⟨.huge, _, _⟩ => .isFalse id

theorem Served.from_of_pool {kept : Compartment → Prop} {r : Served} {k : Compartment}
    (hk : r.origin = .pool k) (hkept : kept k) : r.From kept := by
  rw [Served.From, hk]
  exact hkept

theorem Served.From.pool {kept : Compartment → Prop} {r : Served} (hr : r.From kept) :
    ∃ k, r.origin = .pool k ∧ kept k := by
  unfold Served.From at hr
  split at hr
  · exact ⟨_, ‹_›, hr⟩
  · exact hr.elim

namespace Config

/-- The pointer lies in no slot that was served from a kept compartment. -/
def NotKept (P : Promise) (c : Config) (ptr : ℕ) : Prop :=
  ∀ r ∈ c.heap.served, r.From P.kept → ¬ r.range.Contains ptr

/-- `css_realloc` gives the block back: the size is zero, or larger than the block. -/
def Releases (c : Config) (ptr : ℕ) (size : Word) : Prop :=
  size = 0 ∨ usableSize c.heap ptr < (getRealSize size).toNat

/-- What `css_memalign` does with the address it got is within the promise. -/
def Shifts (P : Promise) (c : Config) (τ : ℕ) (alignment size : Word) : Prop :=
  ∀ addr h, mallocMemoryCSI (c.heap.tls τ).threadId (memalignSize alignment (getRealSize size))
    (getCSI size) (inLoop size) (c.heap.addCall ⟨τ, (c.heap.tls τ).threadId⟩) = .ok addr h →
    addr % alignment.toNat = 0 ∨
      P.shifted ∧ CleanShift h.mem addr (shiftedAddress addr alignment)

/-- The event keeps the promise. -/
def Honours (P : Promise) (c : Config) (e : Event) : Prop :=
  match e.op with
  | .realloc ptr size => c.Releases ptr size → c.NotKept P ptr
  | .free ptr => c.NotKept P ptr
  | .memalign alignment size => c.Shifts P e.thread alignment size
  | _ => True

instance [DecidablePred P.kept] (ptr : ℕ) : Decidable (c.NotKept P ptr) :=
  inferInstanceAs (Decidable (∀ r ∈ c.heap.served, r.From P.kept → ¬ r.range.Contains ptr))

instance (ptr : ℕ) (size : Word) : Decidable (c.Releases ptr size) :=
  inferInstanceAs (Decidable (_ ∨ _))

instance [Decidable P.shifted] (τ : ℕ) (alignment size : Word) :
    Decidable (c.Shifts P τ alignment size) :=
  match hrun : mallocMemoryCSI (c.heap.tls τ).threadId
    (memalignSize alignment (getRealSize size)) (getCSI size) (inLoop size)
    (c.heap.addCall ⟨τ, (c.heap.tls τ).threadId⟩) with
  | .ok addr h => decidable_of_iff (addr % alignment.toNat = 0 ∨
      P.shifted ∧ CleanShift h.mem addr (shiftedAddress addr alignment))
      ⟨fun hs _ _ he => by rw [hrun] at he; cases he; exact hs, fun hs => hs addr h hrun⟩
  | .error _ _ => .isTrue fun _ _ he => by rw [hrun] at he; cases he

instance [DecidablePred P.kept] [Decidable P.shifted] : Decidable (c.Honours P e) :=
  match e with
  | ⟨_, .realloc ptr size⟩ => inferInstanceAs (Decidable (c.Releases ptr size → c.NotKept P ptr))
  | ⟨_, .free ptr⟩ => inferInstanceAs (Decidable (c.NotKept P ptr))
  | ⟨τ, .memalign alignment size⟩ => inferInstanceAs (Decidable (c.Shifts P τ alignment size))
  | ⟨_, .malloc _⟩ | ⟨_, .calloc _ _⟩ | ⟨_, .write _ _ _⟩ => .isTrue trivial

/-- The configurations at the end of a run of permitted events that honour the promise. -/
def Run (P : Promise) (os : Kernel) : Config → Prop :=
  Transition.Reachable (· = initial os) (fun c e => c.Permitted e ∧ c.Honours P e) step

/-! ## One event -/

theorem returned_eq {α : Type} {r : EStateM.Result Halt Heap α} {live : α → Heap → List Block}
    (h : returned r live = some c') : ∃ a t, r = .ok a t ∧ c' = ⟨t, live a t⟩ := by
  cases r with
  | ok a t => exact ⟨a, t, rfl, (Option.some.inj h).symm⟩
  | error e t => cases h

/-- A live pointer outside the kept slots may be released. -/
theorem NotKept.releasable {B : Block} (hk : c.NotKept P B.ptr)
    (hi : Inv P g c.live c.heap) (hB : B ∈ c.live) : Releasable P g B.ptr := by
  intro b s k ho hr hkept
  obtain ⟨r, hnewest, hlog⟩ := hi.history.logged B hB
  have hr' := Heap.newest_mem hnewest
  cases hlog with
  | pool horigin hreg hown _ hhead =>
    rw [ho] at hhead
    cases hhead
    rw [hr] at hreg
    cases hreg
    obtain ⟨b', hreg', hown', hlen⟩ := hi.history.origin r hr' _ horigin
    refine hk r hr' (Served.from_of_pool horigin hkept) ?_
    cases hi.contents.live B hB with
    | @slot b₁ s₁ c₁ hB =>
      have hge := hB.block.slot_le
      have hle := hB.block.le_slot
      have hhead := hB.block.head_own hi.layout le_rfl (by simp only [headerSize] at *; omega)
      rw [ho] at hhead
      cases hhead
      have hreg₁ := hB.block.reg
      rw [hr] at hreg₁
      cases hreg₁
      exact ⟨by omega, by rw [hlen]; simp only [headerSize] at hle; omega⟩
    | huge hB =>
      have hge := hB.ptr_ge
      have hhead := hB.own (B.ptr - headerSize) (by simp only [headerSize, pageSize] at *; omega)
        (by simp only [headerSize, pageSize] at *; omega)
      rw [ho] at hhead
      cases hhead
  | huge _ _ _ hhead => rw [ho] at hhead; cases hhead

/-- A pointer that is null, or live outside the kept slots, may be released. -/
theorem NotKept.releasable_owned {ptr : ℕ} (hk : c.NotKept P ptr) (hi : Inv P g c.live c.heap)
    (hptr : c.Owned ptr) : Releasable P g ptr := by
  rcases hptr with rfl | ⟨B, hB, rfl⟩
  · intro b s k ho hr
    have hs := hi.layout.slotRange ho
    obtain ⟨k', hs, hle, -⟩ := hs
    have := hs.page
    simp only [pageSize] at this
    omega
  · exact hk.releasable hi hB

/-- A write of the clients that returned changed the one byte. -/
theorem write_eq {τ ptr offset : ℕ} {byte : BitVec 8}
    (hs : c.step ⟨τ, .write ptr offset byte⟩ = some c') :
    c' = ⟨c.heap.setMem (writeByte c.heap.mem (ptr + offset) byte), c.live⟩ := by
  obtain ⟨r, t, hrun, rfl⟩ := returned_eq hs
  have hpost : Spec (poke (ptr + offset) 1 (writeByte · (ptr + offset) byte)) c.heap
      (fun _ h' => h' = c.heap.setMem (writeByte c.heap.mem (ptr + offset) byte))
      fun _ => True := poke_spec (.inr trivial) fun _ => rfl
  rw [hpost.of_ok hrun]

/-- **One event** keeps the invariant, and every byte of a live block other than the one it is
given. -/
theorem step_after (hi : Inv P g c.live c.heap) (hready : Ready c.heap) (hp : c.Permitted e)
    (hh : c.Honours P e) (hs : c.step e = some c') :
    ∃ g', After P (fun p => p = e.op.pointer ∨ Outside c.live p) g c.heap c'.live g' c'.heap := by
  obtain ⟨τ, op⟩ := e
  obtain ⟨hτ, hp⟩ := hp
  cases op with
  | malloc size =>
    obtain ⟨r, t, hrun, rfl⟩ := returned_eq hs
    have hpost := (cssMalloc_spec hi hready hτ).of_ok hrun
    obtain ⟨g', ha⟩ := hpost.addLive
    rw [← hpost.usable] at ha
    exact ⟨g', ha.mono fun _ ho => .inr ho⟩
  | calloc nmemb size =>
    obtain ⟨r, t, hrun, rfl⟩ := returned_eq hs
    have hpost := (cssCalloc_spec hi hready).of_ok hrun
    obtain ⟨g', ha⟩ := hpost.addLive
    rw [← hpost.usable] at ha
    exact ⟨g', ha.mono fun _ ho => .inr ho⟩
  | realloc ptr size =>
    obtain ⟨r, t, hrun, rfl⟩ := returned_eq hs
    exact ((cssRealloc_spec hi hready hτ hp fun hrel =>
      (hh hrel).releasable_owned hi hp).of_ok hrun).1
  | free ptr =>
    obtain ⟨r, t, hrun, rfl⟩ := returned_eq hs
    obtain ⟨g', ha⟩ := (cssFree_spec hi hready hτ hp
      (NotKept.releasable_owned hh hi hp)).of_ok hrun
    exact ⟨g', ha.mono fun _ ho => .inl ho⟩
  | memalign alignment size =>
    obtain ⟨r, t, hrun, rfl⟩ := returned_eq hs
    obtain ⟨g', ha⟩ := ((cssMemalign_spec hi hready hh).of_ok hrun).2.1.addLive
    exact ⟨g', ha.mono fun _ ho => .inr ho⟩
  | write ptr offset byte =>
    obtain rfl := write_eq hs
    obtain ⟨B, hB, rfl, hlt⟩ := hp
    have hinside : ∀ a, writeByte c.heap.mem (B.ptr + offset) byte a ≠ c.heap.mem a →
        B.ptr ≤ a ∧ a < B.ptr + B.limit := fun a hne => by
      by_contra hout
      exact hne (writeByte_of_ne _ (by omega))
    obtain ⟨hi', hg⟩ := hi.writeBlock hB hinside
    exact ⟨g, hi', hready, hg.mono fun _ ho => .inl ho⟩

/-! ## Runs -/

/-- The ghost view of the process before its first call. -/
def blankGhost : Ghost where
  own _ := .nobody
  reg _ := none
  free _ := []
  pending _ := []
  use _ := .limbo

theorem initial_inv {os : Kernel} (hos : os.failure = .excluded) :
    Inv P blankGhost (initial os).live (initial os).heap := by
  refine ⟨⟨hos, ?_, ?_, ?_, ?_, ?_, ?_, ?_, ?_⟩, ⟨?_, ?_, ?_, ?_, ?_, ?_, ?_, ?_, ?_, ?_, ?_, ?_⟩,
    ⟨?_, ?_, ?_, ?_⟩⟩
  all_goals simp [blankGhost, initial, Mapped]
  · intro τ hτ he
    exact hτ he.symm

/-- The configuration satisfies the invariant, for some ghost view. -/
def Sound (P : Promise) (c : Config) : Prop := ∃ g, Inv P g c.live c.heap ∧ Ready c.heap

theorem sound_initial {os : Kernel} (hos : os.failure = .excluded) : Sound P (initial os) :=
  ⟨_, initial_inv hos, fun b B hB => by cases hB⟩

theorem Sound.step (hs : Sound P c) (hp : c.Permitted e) (hh : c.Honours P e)
    (hstep : c.step e = some c') : Sound P c' := by
  obtain ⟨g, hi, hready⟩ := hs
  obtain ⟨g', ha⟩ := step_after hi hready hp hh hstep
  exact ⟨g', ha.inv, ha.ready⟩

/-- **Every reachable configuration** satisfies the invariant. -/
theorem Run.sound {os : Kernel} (hr : Run P os c) (hos : os.failure = .excluded) : Sound P c := by
  refine Transition.Reachable.invariant hr ?_ fun _ _ _ hs ha hstep => hs.step ha.1 ha.2 hstep
  rintro _ rfl
  exact sound_initial hos

/-- The run of the events, while each is permitted and honours the promise. -/
def run (P : Promise) [DecidablePred P.kept] [Decidable P.shifted] (os : Kernel)
    (es : List Event) : Option Config :=
  Transition.exec (fun c e => c.Permitted e ∧ c.Honours P e) step (initial os) es

theorem Run.of_run [DecidablePred P.kept] [Decidable P.shifted] {os : Kernel} {es : List Event}
    (h : run P os es = some c) : Run P os c :=
  .of_exec (.start rfl) h

end Config

end Semalloc
