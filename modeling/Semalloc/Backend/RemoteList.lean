import Semalloc.Backend.Defines
import Semalloc.Library.Chain
import Semalloc.Library.Transition

/-!
# The remote free list, one atomic access at a time

Other threads push freed blocks on a manager's `FreeList`; the thread that owns the manager pops
them before it allocates or frees. Every atomic load, every write or read of a link and every
compare-exchange is one step here, and a weak compare-exchange may fail for no reason. The link of
a listed block is its first word, which belongs to the clients while the block is live; the BIBOP
free lists are linked through the first word of the header, where the BIBOP itself is named while
the block is not free.

Blocks are the slots of one manager. They are disjoint (see the heap invariant), so each has its
own link word, BIBOP word and control byte here, and which address a fresh slot gets is left open.

## Main definitions

* `Pusher`, `Owner`: where a thread is in `freeOtherThreadMemory`, and the owner in its calls
* `State`, `Act`, `step`: the manager, one step of one thread, and what it does
* `Phase`, `phase`: what the history says about a block
* `Reachable`: the states at the end of an interleaving
-/

set_option autoImplicit false

namespace Semalloc.RemoteList

/-- Where a thread is in `freeOtherThreadMemory(p)`. -/
inductive Pusher
  | idle
  | load (p : ℕ)
  | link (p curHead : ℕ)
  | swap (p curHead : ℕ)
  deriving DecidableEq

/-- What the owner calls: an allocation without a slot (a size of zero, or a huge one), an
allocation from the BIBOP `b`, global or not, with the slot it carves if the free list is empty,
or `freeRegularMemory(p)`. Each runs `handleFreeList` first. -/
inductive Call
  | drain
  | malloc (b : ℕ) (isGlobal : Bool) (fresh : ℕ)
  | free (p : ℕ)
  deriving DecidableEq

/-- Where the owner is. The first five states are the loop of `handleFreeList`, then come the steps
of a release, of a popped block in front of the rest of the loop, or of the block the owner
frees itself. -/
inductive Owner
  | idle
  | test (k : Call)
  | load (k : Call)
  | read (k : Call) (currentPtr : ℕ)
  | swap (k : Call) (currentPtr nxt : ℕ)
  | check (k : Option Call) (p : ℕ)
  | release (k : Option Call) (p : ℕ)
  | clear (k : Option Call) (p : ℕ)
  | resume (k : Call)
  | exited
  | crashed
  deriving DecidableEq

/-- History: what happened to a block. A push and a pop are successful compare-exchanges. -/
inductive Move
  | malloc (b : ℕ)
  | push
  | pop
  | localFree
  | freed (b : ℕ)
  deriving DecidableEq

structure Event where
  block : ℕ
  move : Move
  deriving DecidableEq

/-- The manager, its slots and the threads. `nxt` is the first word of the data at a pointer;
`bibop` and `control` are the first word and the control byte of the header at an address. `live`
is what the clients hold, `carved` the slots that exist, and `log` the history, newest first. -/
structure State (ι : Type) where
  head : ℕ
  nxt : ℕ → ℕ
  bibop : ℕ → ℕ
  control : ℕ → BitVec 8
  freeList : ℕ → ℕ
  objectSize : ℕ → ℕ
  pushers : ι → Pusher
  owner : Owner
  live : ℕ → Bool
  carved : ℕ → Bool
  log : List Event

/-- One step of one thread. -/
inductive Act (ι : Type)
  | remoteFree (θ : ι) (p : ℕ)
  | push (θ : ι) (spurious : Bool)
  | call (k : Call)
  | owner (spurious : Bool)
  | write (p v : ℕ)

/-! ## What the history says -/

/-- The life of a block: unheld, held by the clients or by a thread that frees it, on the remote
list, or on its way to the BIBOP `b` it came from. -/
inductive Phase
  | unheld
  | held (b : ℕ)
  | pushed (b : ℕ)
  | returning (b : ℕ)
  deriving DecidableEq

/-- The phase after a move, undefined where the move does not fit. -/
def Phase.next : Phase → Move → Option Phase
  | .unheld, .malloc b => some (.held b)
  | .held b, .push => some (.pushed b)
  | .held b, .localFree => some (.returning b)
  | .pushed b, .pop => some (.returning b)
  | .returning b, .freed b' => if b = b' then some .unheld else none
  | _, _ => none

/-- The phase of a block, undefined when its moves are out of order. -/
def phase (p : ℕ) : List Event → Option Phase
  | [] => some .unheld
  | e :: log => if e.block = p then (phase p log).bind (·.next e.move) else phase p log

/-! ## Steps -/

variable {ι : Type}

namespace State

@[simps -fullyApplied] def setPusher [DecidableEq ι] (s : State ι) (θ : ι) (a : Pusher) : State ι :=
  { s with pushers := Function.update s.pushers θ a }

@[simps -fullyApplied] def setOwner (s : State ι) (o : Owner) : State ι := { s with owner := o }

@[simps -fullyApplied] def addEvent (s : State ι) (p : ℕ) (m : Move) : State ι :=
  { s with log := ⟨p, m⟩ :: s.log }

/-- The next access of `freeOtherThreadMemory`. -/
def pusherStep [DecidableEq ι] (s : State ι) (θ : ι) (spurious : Bool) : Option (State ι) :=
  match s.pushers θ with
  | .idle => none
  | .load p => some (s.setPusher θ (.link p s.head))
  | .link p curHead =>
    some ({ s with nxt := Function.update s.nxt p curHead }.setPusher θ (.swap p curHead))
  | .swap p curHead =>
    if s.head = curHead ∧ spurious = false then
      some (({ s with head := p }.setPusher θ .idle).addEvent p .push)
    else some (s.setPusher θ (.load p))

/-- `SingleBIBOP::freeObject` of the header at `slot`. -/
def freeObject (s : State ι) (b slot : ℕ) : State ι :=
  { s with
    bibop := Function.update s.bibop slot (s.freeList b)
    freeList := Function.update s.freeList b slot
    nxt :=
      if s.objectSize b - headerSize ≥ memoryReleaseThreshold ∧ (slot + headerSize) % pageSize = 0
      then Function.update s.nxt (slot + headerSize) 0 else s.nxt }

/-- `setFree` of the header at `slot`. -/
@[simps -fullyApplied] def setFree (s : State ι) (slot : ℕ) : State ι :=
  { s with control := Function.update s.control slot (s.control slot &&& 0xFB#8) }

/-- The control byte `mallocMemory` leaves: `setRegular`, `setIndividual` or `setGlobal`, and
`setAllocation`. -/
def initControl (isGlobal : Bool) (c : BitVec 8) : BitVec 8 :=
  (if isGlobal then (c &&& 0xFE#8) ^^^ 0x02#8 else c &&& 0xFE#8 &&& 0xFD#8) ^^^ 0x04#8

/-- `allocateObject` of the BIBOP `b` took `slot`, and `mallocMemory` hands it out. -/
@[simps -fullyApplied] def handOut (s : State ι) (b slot : ℕ) (isGlobal : Bool) : State ι :=
  { s with
    bibop := Function.update s.bibop slot b
    control := Function.update s.control slot (initControl isGlobal (s.control slot))
    live := Function.update s.live (slot + headerSize) true
    carved := Function.update s.carved slot true
    owner := .idle
    log := ⟨slot + headerSize, .malloc b⟩ :: s.log }

/-- The rest of `mallocMemory` after `handleFreeList`: the head of the free list, or a slot that
was not carved before. -/
def allocate (s : State ι) (b : ℕ) (isGlobal : Bool) (fresh : ℕ) : Option (State ι) :=
  if s.freeList b ≠ 0 then
    let slot := s.freeList b
    some ({ s with freeList := Function.update s.freeList b (s.bibop slot) }.handOut b slot isGlobal)
  else if fresh ≠ 0 ∧ s.carved fresh = false then some (s.handOut b fresh isGlobal)
  else none

/-- The next access of the owner. -/
def ownerStep (s : State ι) (spurious : Bool) : Option (State ι) :=
  match s.owner with
  | .idle | .exited | .crashed => none
  | .test k => some (s.setOwner (if s.head ≠ 0 then .load k else .resume k))
  | .load k => some (s.setOwner (.read k s.head))
  | .read k currentPtr =>
    if currentPtr = 0 then some (s.setOwner .crashed)
    else some (s.setOwner (.swap k currentPtr (s.nxt currentPtr)))
  | .swap k currentPtr nxt =>
    if s.head = currentPtr ∧ spurious = false then
      some (({ s with head := nxt }.setOwner (.check (some k) currentPtr)).addEvent currentPtr .pop)
    else some (s.setOwner (.load k))
  | .check k p =>
    if s.control (p - headerSize) &&& 0x04#8 ≠ 0 then some (s.setOwner (.release k p))
    else some (s.setOwner .exited)
  | .release k p =>
    if s.control (p - headerSize) &&& 0x01#8 = 0 then
      let b := s.bibop (p - headerSize)
      some (((s.freeObject b (p - headerSize)).setOwner (.clear k p)).addEvent p (.freed b))
    else some (s.setOwner (.clear k p))
  | .clear k p =>
    match k with
    | some k => some ((s.setFree (p - headerSize)).setOwner (.test k))
    | none => some ((s.setFree (p - headerSize)).setOwner .idle)
  | .resume .drain => some (s.setOwner .idle)
  | .resume (.malloc b isGlobal fresh) => s.allocate b isGlobal fresh
  | .resume (.free p) =>
    if p = 0 then some (s.setOwner .idle)
    else some ((s.setOwner (.check none p)).addEvent p .localFree)

/-- One step of one thread. A block that is freed leaves what the clients hold when the call
starts. -/
def step [DecidableEq ι] (s : State ι) : Act ι → Option (State ι)
  | .remoteFree θ p =>
    match s.pushers θ with
    | .idle => some ({ s with live := Function.update s.live p false }.setPusher θ (.load p))
    | _ => none
  | .push θ spurious => s.pusherStep θ spurious
  | .call k =>
    match s.owner, k with
    | .idle, .free p =>
      some ({ s with live := Function.update s.live p false }.setOwner (.test (.free p)))
    | .idle, k => some (s.setOwner (.test k))
    | _, _ => none
  | .owner spurious => s.ownerStep spurious
  | .write p v => some { s with nxt := Function.update s.nxt p v }

/-- The discipline of the clients: they free, and write to, live blocks only. -/
def Allowed (s : State ι) : Act ι → Prop
  | .remoteFree _ p | .call (.free p) | .write p _ => s.live p = true
  | _ => True

instance (s : State ι) : DecidablePred s.Allowed
  | .remoteFree _ p | .call (.free p) | .write p _ => inferInstanceAs (Decidable (s.live p = true))
  | .push _ _ | .call .drain | .call (.malloc _ _ _) | .owner _ => .isTrue trivial

/-- A manager nobody called yet, with BIBOPs of the given object sizes. -/
def initial (ι : Type) (objectSize : ℕ → ℕ) : State ι where
  head := 0
  nxt _ := 0
  bibop _ := 0
  control _ := 0
  freeList _ := 0
  objectSize := objectSize
  pushers _ := .idle
  owner := .idle
  live _ := false
  carved _ := false
  log := []

/-- The states at the end of an interleaving of any number of threads. -/
def Reachable [DecidableEq ι] (objectSize : ℕ → ℕ) : State ι → Prop :=
  Transition.Reachable (· = initial ι objectSize) Allowed step

end State

end Semalloc.RemoteList
