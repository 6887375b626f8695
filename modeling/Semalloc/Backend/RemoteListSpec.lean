import Semalloc.Backend.RemoteList

/-!
# The remote free list loses and duplicates nothing

The invariant follows every block through its life. The chain from `FreeList` is exactly the list
of pushed blocks; a block that a thread is about to push belongs to that thread alone, so nobody
else writes its link; and only the owner pops, so between the owner's read of a link and its
compare-exchange the block it read stays listed and keeps its link, even when it was popped,
handed out and pushed again before the owner read it.

## Main definitions

* `Valid`: the invariant, over the phases of the blocks and the nodes of the lists
* `pushes`, `pops`, `localFrees`, `releases`: how often something happened to a block

## Main results

* `Valid.step`: every step of every thread keeps the invariant
* `remote_list_exact`: the chain is exactly what was pushed and not popped, and every push is
  popped, and every pop released, at most once
-/

set_option autoImplicit false

namespace Semalloc.RemoteList

variable {ι : Type} {s s' : State ι} {ph : ℕ → Phase} {l : List ℕ}
  {fl : ℕ → List ℕ} {θ : ι} {p q b : ℕ}

/-! ## The invariant -/

/-- The block a thread is about to push. -/
def Pusher.block : Pusher → Option ℕ
  | .idle => none
  | .load p | .link p _ | .swap p _ => some p

/-- The block a call will free. -/
def Call.block : Call → Option ℕ
  | .free p => some p
  | .drain | .malloc _ _ _ => none

/-- The block the owner will free after `handleFreeList`. -/
def Owner.freeing : Owner → Option ℕ
  | .test k | .load k | .read k _ | .swap k _ _ | .resume k => k.block
  | .check (some k) _ | .release (some k) _ | .clear (some k) _ => k.block
  | .check none _ | .release none _ | .clear none _ | .idle | .exited | .crashed => none

/-- The BIBOP a block came from, unless it is unheld. -/
def Phase.bibop : Phase → Option ℕ
  | .unheld => none
  | .held b | .pushed b | .returning b => some b

/-- The block the owner is about to release. -/
def Owner.returning : Owner → Option ℕ
  | .check _ p | .release _ p => some p
  | .idle | .test _ | .load _ | .read _ _ | .swap _ _ _ | .clear _ _ | .resume _ | .exited
  | .crashed => none

/-- Where the owner is, it may be. -/
def OwnerOk (ph : ℕ → Phase) (l : List ℕ) (nxt : ℕ → ℕ) : Owner → Prop
  | .idle | .test _ | .resume _ => True
  | .load _ => l ≠ []
  | .read _ currentPtr => currentPtr ∈ l
  | .swap _ currentPtr n => currentPtr ∈ l ∧ nxt currentPtr = n
  | .check _ p | .release _ p => ∃ b, ph p = .returning b
  | .clear _ p => headerSize < p ∧ ph p = .unheld
  | .exited | .crashed => False

/-- The headers of the slots say which phase their blocks are in. -/
structure Slots (ph : ℕ → Phase) (fl : ℕ → List ℕ) (s : State ι) : Prop where
  header : ∀ p, ph p ≠ .unheld → headerSize < p ∧ s.carved (p - headerSize) = true ∧
    s.control (p - headerSize) &&& 0x04#8 ≠ 0 ∧ s.control (p - headerSize) &&& 0x01#8 = 0
  bibop : ∀ p b, (ph p).bibop = some b → s.bibop (p - headerSize) = b
  uncarved : ∀ x, s.carved x = false → s.control x = 0
  freeChain : ∀ b, Chain s.bibop (s.freeList b) (fl b)
  freeNodup : ∀ b, (fl b).Nodup
  freeSlot : ∀ b x, x ∈ fl b → ph (x + headerSize) = .unheld ∧ s.carved x = true ∧
    (s.control x &&& 0x04#8 = 0 ∨ ∃ k, s.owner = .clear k (x + headerSize))
  freeApart : ∀ b b' x, x ∈ fl b → x ∈ fl b' → b = b'

/-- **The invariant**, for the phases of the blocks, the nodes of the remote list, and those of the
BIBOP free lists. -/
structure Valid (ph : ℕ → Phase) (l : List ℕ) (fl : ℕ → List ℕ) (s : State ι) : Prop where
  history : ∀ p, phase p s.log = some (ph p)
  chain : Chain s.nxt s.head l
  nodup : l.Nodup
  listed : ∀ p, p ∈ l ↔ ∃ b, ph p = .pushed b
  live : ∀ p, s.live p = true → ∃ b, ph p = .held b
  pusher : ∀ θ p, (s.pushers θ).block = some p → (∃ b, ph p = .held b) ∧ s.live p = false
  distinct : ∀ θ θ' p, (s.pushers θ).block = some p → (s.pushers θ').block = some p → θ = θ'
  linked : ∀ θ p h, s.pushers θ = .swap p h → s.nxt p = h
  freeing : ∀ p, s.owner.freeing = some p →
    (∃ b, ph p = .held b) ∧ s.live p = false ∧ ∀ θ, (s.pushers θ).block ≠ some p
  returning : ∀ p b, ph p = .returning b → s.owner.returning = some p
  slots : Slots ph fl s
  owner : OwnerOk ph l s.nxt s.owner

/-- A move of a block in its history. -/
theorem phase_move {log : List Event} {m : Move} {x : Phase}
    (h : ∀ q, phase q log = some (ph q)) (hm : (ph p).next m = some x) (q : ℕ) :
    phase q (⟨p, m⟩ :: log) = some (Function.update ph p x q) := by
  unfold phase
  by_cases hq : p = q
  · subst hq
    rw [if_pos rfl, h p, Function.update_self]
    exact hm
  · rw [if_neg hq, h q, Function.update_of_ne (Ne.symm hq)]

/-! ## Slots -/

namespace Slots

/-- A block that stays away from its BIBOP changes no header. -/
theorem advance (hs : Slots ph fl s) {x : Phase} (hne : ph p ≠ .unheld)
    (hb : x.bibop = (ph p).bibop) : Slots (Function.update ph p x) fl s := by
  refine { hs with header := ?_, bibop := ?_, freeSlot := ?_ }
  · intro q hq
    by_cases hqp : q = p
    · subst hqp
      exact hs.header q hne
    · rw [Function.update_of_ne hqp] at hq
      exact hs.header q hq
  · intro q b' hq
    by_cases hqp : q = p
    · subst hqp
      rw [Function.update_self, hb] at hq
      exact hs.bibop q b' hq
    · rw [Function.update_of_ne hqp] at hq
      exact hs.bibop q b' hq
  · intro b' y hy
    obtain ⟨hfree, hrest⟩ := hs.freeSlot b' y hy
    have hyp : y + headerSize ≠ p := fun hyp => hne (hyp ▸ hfree)
    rw [Function.update_of_ne hyp]
    exact ⟨hfree, hrest⟩

/-- The owner goes on, unless it is about to clear an allocation bit. -/
theorem setOwner (hs : Slots ph fl s) {o : Owner} (hclear : ∀ k p, s.owner ≠ .clear k p) :
    Slots ph fl (s.setOwner o) := by
  refine { hs with freeSlot := ?_ }
  intro b' y hy
  obtain ⟨hfree, hcarved, hbit | ⟨k, hk⟩⟩ := hs.freeSlot b' y hy
  · exact ⟨hfree, hcarved, .inl hbit⟩
  · exact absurd hk (hclear k _)

/-- A slot put on the free list of its BIBOP; its allocation bit is about to be cleared. -/
theorem freeObject (hs : Slots ph fl s) {k : Option Call}
    (hclear : ∀ k q, s.owner ≠ .clear k q) (hp : ph p = .returning b) :
    Slots (Function.update ph p .unheld) (Function.update fl b ((p - headerSize) :: fl b))
      ((s.freeObject b (p - headerSize)).setOwner (.clear k p)) := by
  have hne : ph p ≠ .unheld := by simp [hp]
  obtain ⟨hlt, hcarved, hset, hregular⟩ := hs.header p hne
  have hback : p - headerSize + headerSize = p := by omega
  -- the slot is on no free list yet
  have hout : ∀ b', p - headerSize ∉ fl b' := by
    intro b' hmem
    have hfree := (hs.freeSlot b' _ hmem).1
    rw [hback] at hfree
    exact hne hfree
  have hbibop : ∀ x, x ≠ p - headerSize →
      (s.freeObject b (p - headerSize)).bibop x = s.bibop x := fun x hx =>
    Function.update_of_ne hx ..
  have hchain : ∀ b', Chain (s.freeObject b (p - headerSize)).bibop (s.freeList b') (fl b') :=
    fun b' => (hs.freeChain b').congr fun y hy => hbibop y fun hyp => hout b' (hyp ▸ hy)
  have hkeep : ∀ {q}, q ≠ p → Function.update ph p .unheld q = ph q := fun hq =>
    Function.update_of_ne hq ..
  have hheld : ∀ {q}, Function.update ph p .unheld q ≠ .unheld → q ≠ p ∧ ph q ≠ .unheld := by
    intro q hq
    by_cases hqp : q = p
    · rw [hqp, Function.update_self] at hq
      exact absurd rfl hq
    · rw [hkeep hqp] at hq
      exact ⟨hqp, hq⟩
  refine {
    header := fun q hq => hs.header q (hheld hq).2
    bibop := ?_
    uncarved := hs.uncarved
    freeChain := ?_
    freeNodup := ?_
    freeSlot := ?_
    freeApart := ?_ }
  · intro q b' hq
    have hq' : Function.update ph p .unheld q ≠ .unheld := by
      intro h
      rw [h] at hq
      cases hq
    obtain ⟨hqp, hne'⟩ := hheld hq'
    rw [hkeep hqp] at hq
    have hqlt := (hs.header q hne').1
    exact (hbibop _ (by omega)).trans (hs.bibop q b' hq)
  · intro b'
    change Chain _ (Function.update s.freeList b (p - headerSize) b') _
    by_cases hb : b' = b
    · subst hb
      rw [Function.update_self, Function.update_self]
      refine ⟨rfl, by omega, ?_⟩
      rw [show ((s.freeObject b' (p - headerSize)).setOwner (.clear k p)).bibop (p - headerSize)
        = s.freeList b' from Function.update_self ..]
      exact hchain b'
    · rw [Function.update_of_ne hb, Function.update_of_ne hb]
      exact hchain b'
  · intro b'
    by_cases hb : b' = b
    · subst hb
      rw [Function.update_self]
      exact List.nodup_cons.mpr ⟨hout b', hs.freeNodup b'⟩
    · rw [Function.update_of_ne hb]
      exact hs.freeNodup b'
  · have hrest : ∀ b' x, x ∈ fl b' → Function.update ph p .unheld (x + headerSize) = .unheld ∧
        s.carved x = true ∧ (s.control x &&& 0x04#8 = 0 ∨
          ∃ k', Owner.clear k p = .clear k' (x + headerSize)) := by
      intro b' x hx
      obtain ⟨hfree, hcarved', hbit | ⟨k', hk'⟩⟩ := hs.freeSlot b' x hx
      · refine ⟨?_, hcarved', .inl hbit⟩
        by_cases hxp : x + headerSize = p
        · rw [hxp, Function.update_self]
        · rw [hkeep hxp]
          exact hfree
      · exact absurd hk' (hclear k' _)
    intro b' x hx
    by_cases hb : b' = b
    · subst hb
      rw [Function.update_self] at hx
      rcases List.mem_cons.mp hx with rfl | hx
      · rw [hback]
        exact ⟨Function.update_self .., hcarved, .inr ⟨k, rfl⟩⟩
      · exact hrest b' x hx
    · rw [Function.update_of_ne hb] at hx
      exact hrest b' x hx
  · have hmem : ∀ b' x, x ∈ Function.update fl b ((p - headerSize) :: fl b) b' →
        (x = p - headerSize ∧ b' = b) ∨ x ∈ fl b' := by
      intro b' x hx
      by_cases hb : b' = b
      · subst hb
        rw [Function.update_self] at hx
        rcases List.mem_cons.mp hx with hx | hx
        · exact .inl ⟨hx, rfl⟩
        · exact .inr hx
      · rw [Function.update_of_ne hb] at hx
        exact .inr hx
    intro b₁ b₂ x h₁ h₂
    rcases hmem b₁ x h₁ with ⟨hx, hb₁⟩ | h₁
    · rcases hmem b₂ x h₂ with ⟨-, hb₂⟩ | h₂
      · exact hb₁.trans hb₂.symm
      · exact absurd (hx ▸ h₂) (hout b₂)
    · rcases hmem b₂ x h₂ with ⟨hx, -⟩ | h₂
      · exact absurd (hx ▸ h₁) (hout b₁)
      · exact hs.freeApart b₁ b₂ x h₁ h₂

/-- The allocation bit of a freed slot is cleared. -/
theorem setFree (hs : Slots ph fl s) {k : Option Call} {o : Owner} (ho : s.owner = .clear k p)
    (hp : headerSize < p) (hfree : ph p = .unheld) :
    Slots ph fl ((s.setFree (p - headerSize)).setOwner o) := by
  have hbits : ∀ c : BitVec 8, c &&& 0xFB#8 &&& 0x04#8 = 0 := by decide
  have hback : p - headerSize + headerSize = p := by omega
  have hkeep : ∀ x, x ≠ p - headerSize →
      Function.update s.control (p - headerSize) (s.control (p - headerSize) &&& 0xFB#8) x =
        s.control x := fun x hx => Function.update_of_ne hx ..
  refine { hs with header := ?_, uncarved := ?_, freeSlot := ?_ }
  · intro q hq
    have hqp : q - headerSize ≠ p - headerSize := by
      intro h
      have hlt := (hs.header q hq).1
      have hqp : q = p := by omega
      exact hq (hqp ▸ hfree)
    change headerSize < q ∧ s.carved (q - headerSize) = true ∧
      Function.update s.control _ _ (q - headerSize) &&& 0x04#8 ≠ 0 ∧
      Function.update s.control _ _ (q - headerSize) &&& 0x01#8 = 0
    rw [hkeep _ hqp]
    exact hs.header q hq
  · intro x hx
    change Function.update s.control _ _ x = 0
    by_cases hxp : x = p - headerSize
    · subst hxp
      rw [Function.update_self, hs.uncarved _ hx]
      rfl
    · rw [hkeep x hxp]
      exact hs.uncarved x hx
  · intro b' x hx
    obtain ⟨hun, hcarved, hbit⟩ := hs.freeSlot b' x hx
    refine ⟨hun, hcarved, .inl ?_⟩
    change Function.update s.control _ _ x &&& 0x04#8 = 0
    by_cases hxp : x = p - headerSize
    · subst hxp
      rw [Function.update_self]
      exact hbits _
    · rw [hkeep x hxp]
      rcases hbit with hbit | ⟨k', hk'⟩
      · exact hbit
      · rw [ho] at hk'
        cases hk'
        exact absurd (Nat.add_sub_cancel ..).symm hxp

/-- The head of a free list is taken off it. -/
theorem take (hs : Slots ph fl s) {x : ℕ} {rest : List ℕ} (hb : fl b = x :: rest) :
    Slots ph (Function.update fl b rest)
        { s with freeList := Function.update s.freeList b (s.bibop x) } ∧
      ∀ b', x ∉ Function.update fl b rest b' := by
  have hnodup := hs.freeNodup b
  have hchain := hs.freeChain b
  rw [hb] at hnodup hchain
  obtain ⟨hxrest, hnodup⟩ := List.nodup_cons.mp hnodup
  have hx : x ∈ fl b := hb ▸ List.mem_cons_self
  have hsub : ∀ b' y, y ∈ Function.update fl b rest b' → y ∈ fl b' := by
    intro b' y hy
    by_cases hbb : b' = b
    · subst hbb
      rw [Function.update_self] at hy
      exact hb ▸ List.mem_cons_of_mem x hy
    · rw [Function.update_of_ne hbb] at hy
      exact hy
  refine ⟨{ hs with freeChain := ?_, freeNodup := ?_, freeSlot := ?_, freeApart := ?_ }, ?_⟩
  · intro b'
    change Chain s.bibop (Function.update s.freeList b (s.bibop x) b') _
    by_cases hbb : b' = b
    · subst hbb
      rw [Function.update_self, Function.update_self]
      exact hchain.2.2
    · rw [Function.update_of_ne hbb, Function.update_of_ne hbb]
      exact hs.freeChain b'
  · intro b'
    by_cases hbb : b' = b
    · subst hbb
      rw [Function.update_self]
      exact hnodup
    · rw [Function.update_of_ne hbb]
      exact hs.freeNodup b'
  · exact fun b' y hy => hs.freeSlot b' y (hsub b' y hy)
  · exact fun b₁ b₂ y h₁ h₂ => hs.freeApart b₁ b₂ y (hsub b₁ y h₁) (hsub b₂ y h₂)
  · intro b' hmem
    by_cases hbb : b' = b
    · subst hbb
      rw [Function.update_self] at hmem
      exact hxrest hmem
    · exact hbb (hs.freeApart b' b x (hsub b' x hmem) hx)

/-- A slot that is on no free list is handed out. -/
theorem handOut (hs : Slots ph fl s) {x : ℕ} {isGlobal : Bool} (hx : x ≠ 0)
    (hun : ph (x + headerSize) = .unheld) (hbit : s.control x &&& 0x04#8 = 0)
    (hout : ∀ b', x ∉ fl b') (hclear : ∀ k p, s.owner ≠ .clear k p) :
    Slots (Function.update ph (x + headerSize) (.held b)) fl (s.handOut b x isGlobal) := by
  have hbits : ∀ g : Bool, ∀ c : BitVec 8, c &&& 0x04#8 = 0 →
      State.initControl g c &&& 0x04#8 ≠ 0 ∧ State.initControl g c &&& 0x01#8 = 0 := by decide
  have hkeep : ∀ {q}, q ≠ x + headerSize →
      Function.update ph (x + headerSize) (.held b) q = ph q := fun hq =>
    Function.update_of_ne hq ..
  refine {
    header := ?_
    bibop := ?_
    uncarved := ?_
    freeChain := ?_
    freeNodup := hs.freeNodup
    freeSlot := ?_
    freeApart := hs.freeApart }
  · intro q hq
    rw [State.handOut_carved, State.handOut_control]
    by_cases hqx : q = x + headerSize
    · subst hqx
      rw [Nat.add_sub_cancel, Function.update_self, Function.update_self]
      exact ⟨by omega, rfl, hbits isGlobal _ hbit⟩
    · rw [hkeep hqx] at hq
      have hq' := hs.header q hq
      have hne : q - headerSize ≠ x := by omega
      rw [Function.update_of_ne hne, Function.update_of_ne hne]
      exact hq'
  · intro q b' hq
    rw [State.handOut_bibop]
    by_cases hqx : q = x + headerSize
    · subst hqx
      rw [Function.update_self] at hq
      rw [Nat.add_sub_cancel, Function.update_self]
      exact Option.some.inj hq
    · rw [hkeep hqx] at hq
      have hne' : ph q ≠ .unheld := by
        intro h
        rw [h] at hq
        cases hq
      have hlt := (hs.header q hne').1
      rw [Function.update_of_ne (by omega)]
      exact hs.bibop q b' hq
  · intro y hy
    rw [State.handOut_carved] at hy
    have hyx : y ≠ x := by
      rintro rfl
      rw [Function.update_self] at hy
      cases hy
    rw [Function.update_of_ne hyx] at hy
    rw [State.handOut_control, Function.update_of_ne hyx]
    exact hs.uncarved y hy
  · intro b'
    refine (hs.freeChain b').congr fun y hy => ?_
    rw [State.handOut_bibop, Function.update_of_ne]
    rintro rfl
    exact hout b' hy
  · intro b' y hy
    have hyx : y ≠ x := by
      rintro rfl
      exact hout b' hy
    obtain ⟨hfree, hcarved, hrest⟩ := hs.freeSlot b' y hy
    rw [hkeep (by omega), State.handOut_carved, State.handOut_control,
      Function.update_of_ne hyx, Function.update_of_ne hyx]
    rcases hrest with hrest | ⟨k, hk⟩
    · exact ⟨hfree, hcarved, .inl hrest⟩
    · exact absurd hk (hclear k _)

end Slots

/-! ## The threads that push -/

namespace Valid

theorem not_listed_of_held (hv : Valid ph l fl s) (hp : ph p = .held b) : p ∉ l := by
  intro hmem
  obtain ⟨b', hb'⟩ := (hv.listed p).mp hmem
  rw [hp] at hb'
  cases hb'

theorem ne_zero (hv : Valid ph l fl s) (hp : ph p ≠ .unheld) : p ≠ 0 := by
  have hlt := (hv.slots.header p hp).1
  omega

/-- A write of the first word of a block that is not listed, when nobody has linked it. -/
theorem setNxt (hv : Valid ph l fl s) {v : ℕ} (hp : p ∉ l)
    (hno : ∀ θ h, s.pushers θ ≠ .swap p h) :
    Valid ph l fl { s with nxt := Function.update s.nxt p v } := by
  have hkeep : ∀ y ∈ l, Function.update s.nxt p v y = s.nxt y := by
    intro y hy
    refine Function.update_of_ne ?_ ..
    rintro rfl
    exact hp hy
  have hslots := hv.slots
  refine { hv with
    chain := hv.chain.congr hkeep, linked := ?_, owner := ?_, slots := { hslots with } }
  · intro θ q h hq
    have hqp : q ≠ p := fun hqp => hno θ h (hqp ▸ hq)
    change Function.update s.nxt p v q = h
    rw [Function.update_of_ne hqp]
    exact hv.linked θ q h hq
  · have howner := hv.owner
    change OwnerOk ph l (Function.update s.nxt p v) s.owner
    cases hs : s.owner with
    | swap k c n =>
      rw [hs] at howner
      exact ⟨howner.1, (hkeep c howner.1).trans howner.2⟩
    | _ =>
      rw [hs] at howner
      exact howner

/-- A block that a client frees leaves what the clients hold. -/
theorem setLive (hv : Valid ph l fl s) :
    Valid ph l fl { s with live := Function.update s.live p false } := by
  have hlive : ∀ q, s.live q = false → Function.update s.live p false q = false := by
    intro q hq
    by_cases hqp : q = p
    · rw [hqp, Function.update_self]
    · rw [Function.update_of_ne hqp, hq]
  have hslots := hv.slots
  refine { hv with live := ?_, pusher := ?_, freeing := ?_, slots := { hslots with } }
  · intro q hq
    change Function.update s.live p false q = true at hq
    by_cases hqp : q = p
    · rw [hqp, Function.update_self] at hq
      cases hq
    · exact hv.live q ((Function.update_of_ne hqp ..).symm.trans hq)
  · intro θ q hq
    obtain ⟨hheld, hq'⟩ := hv.pusher θ q hq
    exact ⟨hheld, hlive q hq'⟩
  · intro q hq
    obtain ⟨hheld, hq', hno⟩ := hv.freeing q hq
    exact ⟨hheld, hlive q hq', hno⟩

section Pushers

variable [DecidableEq ι]

/-- A step of a thread that keeps its block. -/
theorem movePusher (hv : Valid ph l fl s) {a : Pusher} (ha : (s.pushers θ).block = a.block)
    (hswap : ∀ p h, a = .swap p h → s.nxt p = h) : Valid ph l fl (s.setPusher θ a) := by
  have hblock : ∀ θ', ((s.setPusher θ a).pushers θ').block = (s.pushers θ').block := fun θ' => by
    by_cases hθ : θ' = θ
    · subst hθ
      rw [State.setPusher_pushers, Function.update_self, ha]
    · rw [State.setPusher_pushers, Function.update_of_ne hθ]
  have hslots := hv.slots
  refine { hv with
    pusher := ?_, distinct := ?_, linked := ?_, freeing := ?_, slots := { hslots with } }
  · intro θ' p hp
    rw [hblock] at hp
    exact hv.pusher θ' p hp
  · intro θ₁ θ₂ p h₁ h₂
    rw [hblock] at h₁ h₂
    exact hv.distinct θ₁ θ₂ p h₁ h₂
  · intro θ' p h hp
    by_cases hθ : θ' = θ
    · subst hθ
      rw [State.setPusher_pushers, Function.update_self] at hp
      exact hswap p h hp
    · rw [State.setPusher_pushers, Function.update_of_ne hθ] at hp
      exact hv.linked θ' p h hp
  · intro p hp
    obtain ⟨hheld, hlive, hno⟩ := hv.freeing p hp
    refine ⟨hheld, hlive, fun θ' => ?_⟩
    rw [hblock]
    exact hno θ'

/-- A thread starts to free a block that is no longer live, and that nobody else frees. -/
theorem remoteFree (hv : Valid ph l fl s) (hheld : ∃ b, ph p = .held b) (hlive : s.live p = false)
    (hno : ∀ θ', (s.pushers θ').block ≠ some p) (howner : s.owner.freeing ≠ some p) :
    Valid ph l fl (s.setPusher θ (.load p)) := by
  have hblock : ∀ {θ' q}, (Function.update s.pushers θ (.load p) θ').block = some q →
      (θ' = θ ∧ q = p) ∨ (s.pushers θ').block = some q := by
    intro θ' q hq
    by_cases hθ : θ' = θ
    · rw [hθ, Function.update_self] at hq
      exact .inl ⟨hθ, (Option.some.inj hq).symm⟩
    · rw [Function.update_of_ne hθ] at hq
      exact .inr hq
  have hslots := hv.slots
  refine { hv with
    pusher := ?_, distinct := ?_, linked := ?_, freeing := ?_, slots := { hslots with } }
  · intro θ' q hq
    rcases hblock hq with ⟨-, rfl⟩ | hq
    · exact ⟨hheld, hlive⟩
    · exact hv.pusher θ' q hq
  · intro θ₁ θ₂ q h₁ h₂
    rcases hblock h₁ with ⟨rfl, rfl⟩ | hb₁
    · rcases hblock h₂ with ⟨rfl, -⟩ | hb₂
      · rfl
      · exact absurd hb₂ (hno θ₂)
    · rcases hblock h₂ with ⟨rfl, rfl⟩ | hb₂
      · exact absurd hb₁ (hno θ₁)
      · exact hv.distinct θ₁ θ₂ q hb₁ hb₂
  · intro θ' q h hq
    by_cases hθ : θ' = θ
    · rw [hθ, State.setPusher_pushers, Function.update_self] at hq
      cases hq
    · rw [State.setPusher_pushers, Function.update_of_ne hθ] at hq
      exact hv.linked θ' q h hq
  · intro q hq
    obtain ⟨hheld', hlive', hno'⟩ := hv.freeing q hq
    refine ⟨hheld', hlive', fun θ' hθ' => ?_⟩
    rcases hblock hθ' with ⟨-, rfl⟩ | hθ'
    · exact howner hq
    · exact hno' θ' hθ'

/-- **A push** is a successful compare-exchange of the head the block is linked to. -/
theorem push (hv : Valid ph l fl s) (hθ : s.pushers θ = .swap p s.head) :
    ∃ ph' l', Valid ph' l' fl
      ((State.setPusher { s with head := p } θ .idle).addEvent p .push) := by
  have hblock : (s.pushers θ).block = some p := by
    rw [hθ]
    rfl
  obtain ⟨⟨b, hb⟩, hlive⟩ := hv.pusher θ p hblock
  have hne : ph p ≠ .unheld := by simp [hb]
  have hout := hv.not_listed_of_held hb
  -- the other holders hold other blocks
  have hpusher : ∀ {θ' q}, θ' ≠ θ → (s.pushers θ').block = some q → q ≠ p := fun hθ' hq hqp =>
    hθ' (hv.distinct _ _ p (hqp ▸ hq) hblock)
  have hidle : ∀ {θ' q}, (Function.update s.pushers θ .idle θ').block = some q →
      θ' ≠ θ ∧ (s.pushers θ').block = some q := fun {θ' q} hq => by
    by_cases hθ' : θ' = θ
    · rw [hθ', Function.update_self] at hq
      cases hq
    · rw [Function.update_of_ne hθ'] at hq
      exact ⟨hθ', hq⟩
  have hkeep : ∀ {q}, q ≠ p → Function.update ph p (.pushed b) q = ph q := fun hq =>
    Function.update_of_ne hq ..
  have hslots := hv.slots.advance (x := .pushed b) hne (by rw [hb]; rfl)
  refine ⟨Function.update ph p (.pushed b), p :: l, {
    history := phase_move hv.history (by rw [hb]; rfl)
    chain := hv.chain.push (hv.ne_zero hne) (hv.linked θ p s.head hθ) fun _ _ => rfl
    nodup := List.nodup_cons.mpr ⟨hout, hv.nodup⟩
    listed := ?_
    live := ?_
    pusher := ?_
    distinct := ?_
    linked := ?_
    freeing := ?_
    returning := ?_
    slots := { hslots with }
    owner := ?_ }⟩
  · intro q
    rw [List.mem_cons]
    by_cases hqp : q = p
    · subst hqp
      simp
    · rw [hkeep hqp, hv.listed q]
      simp [hqp]
  · intro q hq
    have hqp : q ≠ p := fun hqp => by
      change s.live q = true at hq
      rw [hqp, hlive] at hq
      cases hq
    rw [hkeep hqp]
    exact hv.live q hq
  · intro θ' q hq
    obtain ⟨hθ', hq'⟩ := hidle hq
    rw [hkeep (hpusher hθ' hq')]
    exact hv.pusher θ' q hq'
  · intro θ₁ θ₂ q h₁ h₂
    exact hv.distinct θ₁ θ₂ q (hidle h₁).2 (hidle h₂).2
  · intro θ' q h hq
    change Function.update s.pushers θ .idle θ' = .swap q h at hq
    by_cases hθ' : θ' = θ
    · rw [hθ', Function.update_self] at hq
      cases hq
    · rw [Function.update_of_ne hθ'] at hq
      exact hv.linked θ' q h hq
  · intro q hq
    obtain ⟨hheld, hlive', hno⟩ := hv.freeing q hq
    have hqp : q ≠ p := fun hqp => hno θ (hqp ▸ hblock)
    rw [hkeep hqp]
    exact ⟨hheld, hlive', fun θ' hθ' => hno θ' (hidle hθ').2⟩
  · intro q b' hq
    have hqp : q ≠ p := fun hqp => by
      rw [hqp, Function.update_self] at hq
      cases hq
    rw [hkeep hqp] at hq
    exact hv.returning q b' hq
  · have howner := hv.owner
    change OwnerOk _ _ s.nxt s.owner
    cases ho : s.owner with
    | load k => exact List.cons_ne_nil p l
    | read k c =>
      rw [ho] at howner
      exact List.mem_cons_of_mem p howner
    | swap k c n =>
      rw [ho] at howner
      exact ⟨List.mem_cons_of_mem p howner.1, howner.2⟩
    | check k c | release k c =>
      rw [ho] at howner
      obtain ⟨b', hb'⟩ := howner
      have hcp : c ≠ p := fun hcp => by rw [hcp, hb] at hb'; cases hb'
      exact ⟨b', (hkeep hcp).trans hb'⟩
    | clear k c =>
      rw [ho] at howner
      have hcp : c ≠ p := fun hcp => hne (hcp ▸ howner.2)
      exact ⟨howner.1, (hkeep hcp).trans howner.2⟩
    | idle | test k | resume k => trivial
    | exited | crashed =>
      rw [ho] at howner
      exact howner

end Pushers

/-! ## The owner -/

section Owners

variable {k : Call} {c n : ℕ}

/-- A step of the owner that moves no block. -/
theorem setOwner (hv : Valid ph l fl s) {o : Owner} (hclear : ∀ k p, s.owner ≠ .clear k p)
    (hfreeing : o.freeing = s.owner.freeing) (hreturning : o.returning = s.owner.returning)
    (hok : OwnerOk ph l s.nxt o) : Valid ph l fl (s.setOwner o) := by
  refine { hv with
    freeing := ?_, returning := ?_, slots := hv.slots.setOwner hclear, owner := hok }
  · intro p hp
    rw [State.setOwner_owner, hfreeing] at hp
    exact hv.freeing p hp
  · intro p b hp
    rw [State.setOwner_owner, hreturning]
    exact hv.returning p b hp

/-- **A pop** takes the block the owner read, and its link: while the owner held them, nobody else
took a block off the list, so the block was listed all along. -/
theorem pop (hv : Valid ph l fl s) (ho : s.owner = .swap k c n) (hc : s.head = c) :
    ∃ ph' l', Valid ph' l' fl
      ((State.setOwner { s with head := n } (.check (some k) c)).addEvent c .pop) := by
  have hok := hv.owner
  rw [ho] at hok
  obtain ⟨hmem, hlink⟩ := hok
  obtain ⟨b, hb⟩ := (hv.listed c).mp hmem
  have hne : ph c ≠ .unheld := by simp [hb]
  obtain ⟨l', rfl, hchain⟩ := hv.chain.pop (hc ▸ hv.ne_zero hne)
  rw [hc, hlink] at hchain
  have hnodup := List.nodup_cons.mp hv.nodup
  rw [hc] at hnodup
  have hkeep : ∀ {q}, q ≠ c → Function.update ph c (.returning b) q = ph q := fun hq =>
    Function.update_of_ne hq ..
  -- a held block is not the one that is popped
  have hheld : ∀ {q b'}, ph q = .held b' → q ≠ c := fun hq hqc => by
    rw [hqc, hb] at hq
    cases hq
  have hslots : Slots (Function.update ph c (.returning b)) fl
      (State.setOwner { s with head := n } (.check (some k) c)) := by
    have hslots := hv.slots.advance (x := .returning b) hne (by rw [hb]; rfl)
    exact (show Slots _ fl { s with head := n } from { hslots with }).setOwner
      fun k p hk => by rw [show s.owner = _ from ho] at hk; cases hk
  refine ⟨Function.update ph c (.returning b), l', {
    history := phase_move hv.history (by rw [hb]; rfl)
    chain := hchain
    nodup := hnodup.2
    listed := ?_
    live := ?_
    pusher := ?_
    distinct := hv.distinct
    linked := hv.linked
    freeing := ?_
    returning := ?_
    slots := { hslots with }
    owner := ⟨b, Function.update_self ..⟩ }⟩
  · intro q
    by_cases hqc : q = c
    · subst hqc
      simp [hnodup.1]
    · rw [hkeep hqc, ← hv.listed q, List.mem_cons, hc]
      simp [hqc]
  · intro q hq
    obtain ⟨b', hb'⟩ := hv.live q hq
    exact ⟨b', (hkeep (hheld hb')).trans hb'⟩
  · intro θ q hq
    obtain ⟨⟨b', hb'⟩, hlive⟩ := hv.pusher θ q hq
    exact ⟨⟨b', (hkeep (hheld hb')).trans hb'⟩, hlive⟩
  · intro q hq
    have hq' : s.owner.freeing = some q := by
      rw [ho]
      exact hq
    obtain ⟨⟨b', hb'⟩, hrest⟩ := hv.freeing q hq'
    exact ⟨⟨b', (hkeep (hheld hb')).trans hb'⟩, hrest⟩
  · intro q b' hq
    by_cases hqc : q = c
    · rw [hqc]
      rfl
    · rw [hkeep hqc] at hq
      have hret := hv.returning q b' hq
      rw [ho] at hret
      cases hret

/-- The owner frees a block it took from a client. -/
theorem localFree (hv : Valid ph l fl s) (ho : s.owner = .resume (.free p)) :
    ∃ ph', Valid ph' l fl ((s.setOwner (.check none p)).addEvent p .localFree) := by
  obtain ⟨⟨b, hb⟩, hlive, hno⟩ := hv.freeing p (by rw [ho]; rfl)
  have hne : ph p ≠ .unheld := by simp [hb]
  have hout := hv.not_listed_of_held hb
  have hkeep : ∀ {q}, q ≠ p → Function.update ph p (.returning b) q = ph q := fun hq =>
    Function.update_of_ne hq ..
  have hslots : Slots (Function.update ph p (.returning b)) fl (s.setOwner (.check none p)) :=
    (hv.slots.advance hne (by rw [hb]; rfl)).setOwner fun k p hk => by rw [ho] at hk; cases hk
  refine ⟨Function.update ph p (.returning b), {
    history := phase_move hv.history (by rw [hb]; rfl)
    chain := hv.chain
    nodup := hv.nodup
    listed := ?_
    live := ?_
    pusher := ?_
    distinct := hv.distinct
    linked := hv.linked
    freeing := ?_
    returning := ?_
    slots := { hslots with }
    owner := ⟨b, Function.update_self ..⟩ }⟩
  · intro q
    by_cases hqp : q = p
    · subst hqp
      simp [hout]
    · rw [hkeep hqp]
      exact hv.listed q
  · intro q hq
    have hqp : q ≠ p := by
      rintro rfl
      cases hlive.symm.trans hq
    rw [hkeep hqp]
    exact hv.live q hq
  · intro θ q hq
    have hqp : q ≠ p := by
      rintro rfl
      exact hno θ hq
    rw [hkeep hqp]
    exact hv.pusher θ q hq
  · intro q hq
    cases hq
  · intro q b' hq
    by_cases hqp : q = p
    · rw [hqp]
      rfl
    · rw [hkeep hqp] at hq
      have hret := hv.returning q b' hq
      rw [ho] at hret
      cases hret

/-- A slot is put on the free list of its BIBOP, once. -/
theorem release (hv : Valid ph l fl s) {k : Option Call} (ho : s.owner = .release k p)
    (hp : ph p = .returning b) :
    ∃ ph' fl', Valid ph' l fl'
      (((s.freeObject b (p - headerSize)).setOwner (.clear k p)).addEvent p (.freed b)) := by
  have hne : ph p ≠ .unheld := by simp [hp]
  have hlt := (hv.slots.header p hne).1
  have hback : p - headerSize + headerSize = p := by omega
  have hout : p ∉ l := by
    intro hmem
    obtain ⟨b', hb'⟩ := (hv.listed p).mp hmem
    rw [hp] at hb'
    cases hb'
  have hkeep : ∀ {q}, q ≠ p → Function.update ph p .unheld q = ph q := fun hq =>
    Function.update_of_ne hq ..
  have hheld : ∀ {q b'}, ph q = .held b' → q ≠ p := fun hq hqp => by
    rw [hqp, hp] at hq
    cases hq
  -- releasing the pages of the slot may clear the link of the block, which nobody uses
  have hnxt : ∀ y, y ≠ p → (s.freeObject b (p - headerSize)).nxt y = s.nxt y := by
    intro y hy
    unfold State.freeObject
    split
    · exact Function.update_of_ne (by rwa [hback]) ..
    · rfl
  have hslots := hv.slots.freeObject (k := k) (fun k' q hk => by rw [ho] at hk; cases hk) hp
  refine ⟨Function.update ph p .unheld, Function.update fl b ((p - headerSize) :: fl b), {
    history := phase_move hv.history (by rw [hp]; exact if_pos rfl)
    chain := hv.chain.congr fun y hy => hnxt y fun hyp => hout (hyp ▸ hy)
    nodup := hv.nodup
    listed := ?_
    live := ?_
    pusher := ?_
    distinct := hv.distinct
    linked := ?_
    freeing := ?_
    returning := ?_
    slots := { hslots with }
    owner := ⟨hlt, Function.update_self ..⟩ }⟩
  · intro q
    by_cases hqp : q = p
    · subst hqp
      simp [hout]
    · rw [hkeep hqp]
      exact hv.listed q
  · intro q hq
    obtain ⟨b', hb'⟩ := hv.live q hq
    exact ⟨b', (hkeep (hheld hb')).trans hb'⟩
  · intro θ q hq
    obtain ⟨⟨b', hb'⟩, hlive⟩ := hv.pusher θ q hq
    exact ⟨⟨b', (hkeep (hheld hb')).trans hb'⟩, hlive⟩
  · intro θ q h hq
    obtain ⟨⟨b', hb'⟩, -⟩ := hv.pusher θ q (by rw [show s.pushers θ = _ from hq]; rfl)
    exact (hnxt q (hheld hb')).trans (hv.linked θ q h hq)
  · intro q hq
    have hq' : s.owner.freeing = some q := by
      rw [ho]
      cases k <;> exact hq
    obtain ⟨⟨b', hb'⟩, hrest⟩ := hv.freeing q hq'
    exact ⟨⟨b', (hkeep (hheld hb')).trans hb'⟩, hrest⟩
  · intro q b' hq
    by_cases hqp : q = p
    · rw [hqp, Function.update_self] at hq
      cases hq
    · rw [hkeep hqp] at hq
      have hret := hv.returning q b' hq
      rw [ho] at hret
      exact absurd (Option.some.inj hret).symm hqp

/-- The allocation bit is cleared, and the owner goes on. -/
theorem clear (hv : Valid ph l fl s) {k : Option Call} {o : Owner} (ho : s.owner = .clear k p)
    (hfreeing : o.freeing = s.owner.freeing)
    (hok : OwnerOk ph l s.nxt o) : Valid ph l fl ((s.setFree (p - headerSize)).setOwner o) := by
  have hclear := hv.owner
  rw [ho] at hclear
  refine { hv with
    freeing := ?_, returning := ?_, slots := hv.slots.setFree ho hclear.1 hclear.2, owner := hok }
  · intro q hq
    exact hv.freeing q (hfreeing ▸ hq)
  · intro q b' hq
    have hret := hv.returning q b' hq
    rw [ho] at hret
    cases hret

/-- A slot is handed out, to the clients. -/
theorem handOut (hv : Valid ph l fl s) {x fresh : ℕ} {isGlobal : Bool}
    (ho : s.owner = .resume (.malloc b isGlobal fresh)) (hx : x ≠ 0)
    (hun : ph (x + headerSize) = .unheld) (hbit : s.control x &&& 0x04#8 = 0)
    (hout : ∀ b', x ∉ fl b') :
    ∃ ph', Valid ph' l fl (s.handOut b x isGlobal) := by
  have hkeep : ∀ {q}, ph q ≠ .unheld → q ≠ x + headerSize ∧
      Function.update ph (x + headerSize) (.held b) q = ph q := by
    intro q hq
    have hqx : q ≠ x + headerSize := by
      rintro rfl
      exact hq hun
    exact ⟨hqx, Function.update_of_ne hqx ..⟩
  have hheld : ∀ {q}, (∃ b', ph q = .held b') → q ≠ x + headerSize ∧
      ∃ b', Function.update ph (x + headerSize) (.held b) q = .held b' := by
    rintro q ⟨b', hb'⟩
    obtain ⟨hqx, hq⟩ := hkeep (q := q) (by simp [hb'])
    exact ⟨hqx, b', hq.trans hb'⟩
  have hslots : Slots (Function.update ph (x + headerSize) (.held b)) fl (s.handOut b x isGlobal) :=
    hv.slots.handOut hx hun hbit hout fun k p hk => by rw [ho] at hk; cases hk
  refine ⟨Function.update ph (x + headerSize) (.held b), {
    history := phase_move hv.history (by rw [hun]; rfl)
    chain := hv.chain
    nodup := hv.nodup
    listed := ?_
    live := ?_
    pusher := ?_
    distinct := hv.distinct
    linked := hv.linked
    freeing := ?_
    returning := ?_
    slots := hslots
    owner := trivial }⟩
  · intro q
    rw [hv.listed q]
    by_cases hqx : q = x + headerSize
    · subst hqx
      rw [Function.update_self, hun]
      simp
    · rw [Function.update_of_ne hqx]
  · intro q hq
    rw [State.handOut_live] at hq
    by_cases hqx : q = x + headerSize
    · rw [hqx, Function.update_self]
      exact ⟨b, rfl⟩
    · rw [Function.update_of_ne hqx] at hq
      exact (hheld (hv.live q hq)).2
  · intro θ q hq
    obtain ⟨hq', hlive⟩ := hv.pusher θ q hq
    obtain ⟨hqx, hq'⟩ := hheld hq'
    refine ⟨hq', ?_⟩
    rw [State.handOut_live, Function.update_of_ne hqx]
    exact hlive
  · intro q hq
    cases hq
  · intro q b' hq
    by_cases hqx : q = x + headerSize
    · rw [hqx, Function.update_self] at hq
      cases hq
    · rw [Function.update_of_ne hqx] at hq
      have hret := hv.returning q b' hq
      rw [ho] at hret
      cases hret

/-- An allocation takes the head of the free list of its BIBOP, or a slot nobody had. -/
theorem allocate (hv : Valid ph l fl s) {fresh : ℕ} {isGlobal : Bool}
    (ho : s.owner = .resume (.malloc b isGlobal fresh))
    (h : s.allocate b isGlobal fresh = some s') : ∃ ph' fl', Valid ph' l fl' s' := by
  unfold State.allocate at h
  split at h
  · rename_i hne
    cases h
    obtain ⟨rest, hfl, -⟩ := (hv.slots.freeChain b).pop hne
    obtain ⟨htake, hout⟩ := hv.slots.take hfl
    obtain ⟨hun, -, hbit | ⟨k, hk⟩⟩ := hv.slots.freeSlot b _ (hfl ▸ List.mem_cons_self)
    · have hv' : Valid ph l (Function.update fl b rest)
          { s with freeList := Function.update s.freeList b (s.bibop (s.freeList b)) } :=
        { hv with slots := htake }
      obtain ⟨ph', hv''⟩ := hv'.handOut ho hne hun hbit hout
      exact ⟨ph', _, hv''⟩
    · rw [ho] at hk
      cases hk
  · split at h
    · rename_i hfresh
      obtain ⟨hne, hcarved⟩ := hfresh
      cases h
      -- what was never carved is neither held nor on a free list
      have hun : ph (fresh + headerSize) = .unheld := by
        by_contra hheld
        have hcarved' := (hv.slots.header _ hheld).2.1
        rw [Nat.add_sub_cancel, hcarved] at hcarved'
        cases hcarved'
      have hbit : s.control fresh &&& 0x04#8 = 0 := by
        rw [hv.slots.uncarved fresh hcarved]
        rfl
      have hout : ∀ b', fresh ∉ fl b' := by
        intro b' hmem
        cases hcarved.symm.trans (hv.slots.freeSlot b' fresh hmem).2.1
      obtain ⟨ph', hv'⟩ := hv.handOut ho hne hun hbit hout
      exact ⟨ph', fl, hv'⟩
    · cases h

/-- **A step of the owner.** The loop reads only listed blocks, a block that is taken off the list
passes the double-free check, and goes to the BIBOP it came from. -/
theorem ownerStep (hv : Valid ph l fl s) {spurious : Bool}
    (h : s.ownerStep spurious = some s') : ∃ ph' l' fl', Valid ph' l' fl' s' := by
  have hok := hv.owner
  unfold State.ownerStep at h
  cases ho : s.owner with
  | idle | exited | crashed =>
    simp only [ho] at h
    cases h
  | test k =>
    simp only [ho] at h
    cases h
    have hclear : ∀ k' p, s.owner ≠ .clear k' p := fun k' p hk => by rw [ho] at hk; cases hk
    refine ⟨ph, l, fl, ?_⟩
    split
    · rename_i hne
      exact hv.setOwner hclear (by rw [ho]; rfl) (by rw [ho]; rfl)
        fun hl => hne (hv.chain.head_eq_zero.mpr hl)
    · exact hv.setOwner hclear (by rw [ho]; rfl) (by rw [ho]; rfl) trivial
  | load k =>
    rw [ho] at hok
    simp only [ho] at h
    cases h
    have hne : s.head ≠ 0 := fun hzero => hok (hv.chain.head_eq_zero.mp hzero)
    obtain ⟨l', rfl, -⟩ := hv.chain.pop hne
    exact ⟨ph, _, fl, hv.setOwner (fun k' p hk => by rw [ho] at hk; cases hk) (by rw [ho]; rfl)
      (by rw [ho]; rfl) List.mem_cons_self⟩
  | read k c =>
    rw [ho] at hok
    simp only [ho] at h
    obtain ⟨b, hb⟩ := (hv.listed c).mp hok
    rw [if_neg (hv.ne_zero (by simp [hb]))] at h
    cases h
    exact ⟨ph, l, fl, hv.setOwner (fun k' p hk => by rw [ho] at hk; cases hk) (by rw [ho]; rfl)
      (by rw [ho]; rfl) ⟨hok, rfl⟩⟩
  | swap k c n =>
    rw [ho] at hok
    simp only [ho] at h
    split at h
    · rename_i hswap
      cases h
      obtain ⟨ph', l', hv'⟩ := hv.pop ho hswap.1
      exact ⟨ph', l', fl, hv'⟩
    · cases h
      exact ⟨ph, l, fl, hv.setOwner (fun k' p hk => by rw [ho] at hk; cases hk) (by rw [ho]; rfl)
        (by rw [ho]; rfl) (List.ne_nil_of_mem hok.1)⟩
  | check k p =>
    rw [ho] at hok
    simp only [ho] at h
    obtain ⟨b, hb⟩ := hok
    rw [if_pos (hv.slots.header p (by simp [hb])).2.2.1] at h
    cases h
    exact ⟨ph, l, fl, hv.setOwner (fun k' p hk => by rw [ho] at hk; cases hk)
      (by rw [ho]; cases k <;> rfl) (by rw [ho]; rfl) ⟨b, hb⟩⟩
  | release k p =>
    rw [ho] at hok
    simp only [ho] at h
    obtain ⟨b, hb⟩ := hok
    rw [if_pos (hv.slots.header p (by simp [hb])).2.2.2,
      hv.slots.bibop p b (by rw [hb]; rfl)] at h
    cases h
    obtain ⟨ph', fl', hv'⟩ := hv.release ho hb
    exact ⟨ph', l, fl', hv'⟩
  | clear k p =>
    simp only [ho] at h
    cases k with
    | some k =>
      cases h
      exact ⟨ph, l, fl, hv.clear ho (by rw [ho]; rfl) trivial⟩
    | none =>
      cases h
      exact ⟨ph, l, fl, hv.clear ho (by rw [ho]; rfl) trivial⟩
  | resume k =>
    have hclear : ∀ k' p, s.owner ≠ .clear k' p := fun k' p hk => by rw [ho] at hk; cases hk
    simp only [ho] at h
    cases k with
    | drain =>
      cases h
      exact ⟨ph, l, fl, hv.setOwner hclear (by rw [ho]; rfl) (by rw [ho]; rfl) trivial⟩
    | malloc b isGlobal fresh =>
      obtain ⟨ph', fl', hv'⟩ := hv.allocate ho h
      exact ⟨ph', l, fl', hv'⟩
    | free p =>
      obtain ⟨⟨b, hb⟩, -⟩ := hv.freeing p (by rw [ho]; rfl)
      simp only [if_neg (hv.ne_zero (p := p) (by simp [hb]))] at h
      cases h
      obtain ⟨ph', hv'⟩ := hv.localFree ho
      exact ⟨ph', l, fl, hv'⟩

/-- The owner starts a call. -/
theorem call (hv : Valid ph l fl s) (ho : s.owner = .idle)
    (hno : ∀ θ, k.block ≠ none → (s.pushers θ).block ≠ k.block)
    (hheld : ∀ p, k.block = some p → s.live p = false ∧ ∃ b, ph p = .held b) :
    Valid ph l fl (s.setOwner (.test k)) := by
  refine { hv with
    freeing := ?_, returning := ?_, slots := hv.slots.setOwner ?_, owner := trivial }
  · intro p hp
    obtain ⟨hlive, hp'⟩ := hheld p hp
    refine ⟨hp', hlive, fun θ hθ => hno θ ?_ (hθ.trans hp.symm)⟩
    rw [show k.block = some p from hp]
    exact Option.some_ne_none p
  · intro p b hp
    have hret := hv.returning p b hp
    rw [ho] at hret
    cases hret
  · intro k' p hk
    rw [ho] at hk
    cases hk

end Owners

/-- The steps of a thread that pushes. -/
theorem pusherStep [DecidableEq ι] (hv : Valid ph l fl s) {spurious : Bool}
    (h : s.pusherStep θ spurious = some s') : ∃ ph' l', Valid ph' l' fl s' := by
  unfold State.pusherStep at h
  cases hθ : s.pushers θ with
  | idle =>
    simp only [hθ] at h
    cases h
  | load p =>
    simp only [hθ] at h
    cases h
    exact ⟨ph, l, hv.movePusher (by rw [hθ]; rfl) fun _ _ h => by cases h⟩
  | link p c =>
    simp only [hθ] at h
    cases h
    -- nobody but this thread links the block it pushes
    have hblock : (s.pushers θ).block = some p := by
      rw [hθ]
      rfl
    obtain ⟨⟨b, hb⟩, -⟩ := hv.pusher θ p hblock
    have hv' : Valid ph l fl { s with nxt := Function.update s.nxt p c } := by
      refine hv.setNxt (hv.not_listed_of_held hb) fun θ' h' hθ' => ?_
      have heq := hv.distinct θ' θ p (by rw [hθ']; rfl) hblock
      rw [heq, hθ] at hθ'
      cases hθ'
    refine ⟨ph, l, hv'.movePusher (by rw [show _ = _ from hθ]; rfl) ?_⟩
    intro p' h' heq
    cases heq
    exact Function.update_self ..
  | swap p c =>
    simp only [hθ] at h
    split at h
    · rename_i hswap
      cases h
      exact hv.push (by rw [hθ, hswap.1])
    · cases h
      exact ⟨ph, l, hv.movePusher (by rw [hθ]; rfl) fun _ _ h => by cases h⟩

/-- What nobody frees yet: a live block. -/
theorem not_freed_of_live (hv : Valid ph l fl s) (hp : s.live p = true) :
    (∃ b, ph p = .held b) ∧ (∀ θ, (s.pushers θ).block ≠ some p) ∧ s.owner.freeing ≠ some p := by
  refine ⟨hv.live p hp, fun θ hθ => ?_, fun hfree => ?_⟩
  · cases hp.symm.trans (hv.pusher θ p hθ).2
  · cases hp.symm.trans (hv.freeing p hfree).2.1

/-- **Every step of every thread keeps the invariant.** -/
theorem step [DecidableEq ι] (hv : Valid ph l fl s) {a : Act ι} (ha : s.Allowed a)
    (h : s.step a = some s') : ∃ ph' l' fl', Valid ph' l' fl' s' := by
  unfold State.step at h
  cases a with
  | remoteFree θ p =>
    obtain ⟨hheld, hno, hfree⟩ := hv.not_freed_of_live ha
    cases hθ : s.pushers θ with
    | idle =>
      simp only [hθ] at h
      cases h
      exact ⟨ph, l, fl, hv.setLive.remoteFree hheld (Function.update_self ..) hno hfree⟩
    | load | link | swap =>
      simp only [hθ] at h
      cases h
  | push θ spurious =>
    obtain ⟨ph', l', hv'⟩ := hv.pusherStep h
    exact ⟨ph', l', fl, hv'⟩
  | call k =>
    cases ho : s.owner with
    | idle =>
      cases k with
      | free p =>
        obtain ⟨hheld, hno, -⟩ := hv.not_freed_of_live ha
        simp only [ho] at h
        cases h
        refine ⟨ph, l, fl, hv.setLive.call ho (fun θ _ => hno θ) fun q hq => ?_⟩
        cases hq
        exact ⟨Function.update_self .., hheld⟩
      | drain | malloc =>
        simp only [ho] at h
        cases h
        exact ⟨ph, l, fl, hv.call ho (fun _ hne => absurd rfl hne) fun _ hq => by cases hq⟩
    | _ =>
      simp only [ho] at h
      cases h
  | owner spurious => exact hv.ownerStep h
  | write p v =>
    cases h
    obtain ⟨⟨b, hb⟩, hno, -⟩ := hv.not_freed_of_live ha
    refine ⟨ph, l, fl, hv.setNxt (hv.not_listed_of_held hb) fun θ h hθ => hno θ ?_⟩
    rw [hθ]
    rfl

/-- Nothing is held, listed or free at the start. -/
theorem initial (objectSize : ℕ → ℕ) :
    Valid (fun _ => .unheld) [] (fun _ => []) (State.initial ι objectSize) where
  history _ := rfl
  chain := rfl
  nodup := List.nodup_nil
  listed p := by simp
  live p hp := by cases hp
  pusher θ p hp := by cases hp
  distinct θ θ' p hp := by cases hp
  linked θ p h hp := by cases hp
  freeing p hp := by cases hp
  returning p b hp := by cases hp
  slots :=
    { header := fun p hp => absurd rfl hp
      bibop := fun p b hp => by cases hp
      uncarved := fun _ _ => rfl
      freeChain := fun _ => rfl
      freeNodup := fun _ => List.nodup_nil
      freeSlot := fun b x hx => by cases hx
      freeApart := fun b b' x hx => by cases hx }
  owner := trivial

end Valid

/-! ## Every run -/

/-- **The invariant holds in every interleaving.** -/
theorem State.Reachable.valid [DecidableEq ι] {objectSize : ℕ → ℕ} (h : s.Reachable objectSize) :
    ∃ ph l fl, Valid ph l fl s := by
  refine Transition.Reachable.invariant (I := fun s => ∃ ph l fl, Valid ph l fl s) h ?_ ?_
  · rintro s rfl
    exact ⟨_, _, _, .initial objectSize⟩
  · rintro s a s' ⟨ph, l, fl, hv⟩ ha hstep
    exact hv.step ha hstep

/-! ## What the history counts -/

def Move.isFreed : Move → Bool
  | .freed _ => true
  | .malloc _ | .push | .pop | .localFree => false

/-- How often a block was pushed. -/
def pushes (p : ℕ) (log : List Event) : ℕ := log.count ⟨p, .push⟩

/-- How often a block was popped. -/
def pops (p : ℕ) (log : List Event) : ℕ := log.count ⟨p, .pop⟩

/-- How often the owner freed a block it took from a client. -/
def localFrees (p : ℕ) (log : List Event) : ℕ := log.count ⟨p, .localFree⟩

/-- How often a block was passed to the free of a BIBOP. -/
def releases (p : ℕ) (log : List Event) : ℕ :=
  log.countP fun e => e.block = p ∧ e.move.isFreed

/-- One for a block on the remote list. -/
def Phase.listed : Phase → ℕ
  | .pushed _ => 1
  | .unheld | .held _ | .returning _ => 0

/-- One for a block on its way to its BIBOP. -/
def Phase.leaving : Phase → ℕ
  | .returning _ => 1
  | .unheld | .held _ | .pushed _ => 0

/-- A block is on its way to its BIBOP exactly while the owner holds it. -/
theorem Valid.leaving (hv : Valid ph l fl s) :
    (ph p).leaving = if s.owner.returning = some p then 1 else 0 := by
  split
  · rename_i hret
    have hok := hv.owner
    cases ho : s.owner with
    | check k q | release k q =>
      rw [ho] at hok hret
      cases hret
      obtain ⟨b, hb⟩ := hok
      rw [hb]
      rfl
    | _ =>
      rw [ho] at hret
      cases hret
  · rename_i hret
    cases hp : ph p with
    | returning b => exact absurd (hv.returning p b hp) hret
    | _ => rfl

/-- The five moves that fit a phase. -/
theorem Phase.next_cases {x y : Phase} {m : Move} (h : x.next m = some y) :
    (∃ b, x = .unheld ∧ m = .malloc b ∧ y = .held b) ∨
      (∃ b, x = .held b ∧ m = .push ∧ y = .pushed b) ∨
      (∃ b, x = .held b ∧ m = .localFree ∧ y = .returning b) ∨
      (∃ b, x = .pushed b ∧ m = .pop ∧ y = .returning b) ∨
      ∃ b, x = .returning b ∧ m = .freed b ∧ y = .unheld := by
  cases x <;> cases m <;> simp only [Phase.next] at h <;> grind

/-- The counts of a block follow its phase. -/
theorem phase_counts {log : List Event} {x : Phase} (h : phase p log = some x) :
    pushes p log = pops p log + x.listed ∧
      pops p log + localFrees p log = releases p log + x.leaving := by
  induction log generalizing x with
  | nil =>
    cases h
    exact ⟨rfl, rfl⟩
  | cons e log ih =>
    obtain ⟨q, m⟩ := e
    unfold phase at h
    simp only [pushes, pops, localFrees, releases] at ih ⊢
    simp only [List.count_cons, List.countP_cons]
    split at h
    · -- a move of the block
      rename_i hq
      obtain rfl : q = p := hq
      obtain ⟨y, hy, hnext⟩ := Option.bind_eq_some_iff.mp h
      obtain ⟨hpush, hfree⟩ := ih hy
      rcases Phase.next_cases hnext with ⟨b, rfl, rfl, rfl⟩ | ⟨b, rfl, rfl, rfl⟩ |
        ⟨b, rfl, rfl, rfl⟩ | ⟨b, rfl, rfl, rfl⟩ | ⟨b, rfl, rfl, rfl⟩ <;>
      · simp only [Phase.listed, Phase.leaving, Move.isFreed] at hpush hfree ⊢
        simp
        omega
    · -- a move of another block
      rename_i hq
      have hne : ¬ q = p := hq
      obtain ⟨hpush, hfree⟩ := ih h
      simp [hne, hpush, hfree]

/-- **The remote free list loses and duplicates nothing.** In every state of every interleaving the
chain from `FreeList` is finite and without repetition, and its nodes are exactly the blocks that
were pushed and not popped since. A block moves in the order of its phases: it is handed out from a
BIBOP, pushed at most once, popped at most once for the push, and passed once to the free of the
BIBOP it came from, before it is handed out again. Only the block the owner is about to pass on was
taken from the list, or from the client, and not passed on yet; and the owner neither ends the
process nor follows a null link. -/
theorem remote_list_exact [DecidableEq ι] {objectSize : ℕ → ℕ} (h : s.Reachable objectSize) :
    (∃ l, Chain s.nxt s.head l ∧ l.Nodup ∧ ∀ p, p ∈ l ↔ ∃ b, phase p s.log = some (.pushed b)) ∧
      (∀ p, ∃ x, phase p s.log = some x ∧
        pushes p s.log = pops p s.log + x.listed ∧
        pops p s.log + localFrees p s.log =
          releases p s.log + if s.owner.returning = some p then 1 else 0) ∧
      s.owner ≠ .exited ∧ s.owner ≠ .crashed := by
  obtain ⟨ph, l, fl, hv⟩ := h.valid
  have hok := hv.owner
  refine ⟨⟨l, hv.chain, hv.nodup, fun p => ?_⟩, fun p => ?_, ?_, ?_⟩
  · simp only [hv.history p, Option.some_inj]
    exact hv.listed p
  · obtain ⟨hpush, hfree⟩ := phase_counts (hv.history p)
    refine ⟨ph p, hv.history p, hpush, ?_⟩
    rw [hfree, Nat.add_left_cancel_iff, hv.leaving]
  · intro ho
    rw [ho] at hok
    exact hok
  · intro ho
    rw [ho] at hok
    exact hok

/-- A run in which a thread holds an old head across a pop, a reuse and a second push: `116` is
pushed, the other thread links `216` to it, the owner pops `116` and hands it out again, it is
pushed again, and the other thread's compare-exchange succeeds. -/
def reuseRun : List (Act Bool) :=
  let owner n := List.replicate n (Act.owner false)
  let push θ n := List.replicate n (Act.push θ false)
  List.flatten [
    [.call (.malloc 1 false 100)], owner 2, [.call (.malloc 1 true 200)], owner 2,
    [.remoteFree false 116], push false 2, [.push false true], push false 3,
    [.remoteFree true 216], push true 2,
    [.call (.malloc 1 false 0)], owner 9, [.write 116 7, .remoteFree false 116],
    push false 3, push true 1]

theorem remote_list_exact_reuse :
    ∃ s : State Bool, s.Reachable (fun _ => 48) ∧ s.head = 216 ∧ s.nxt 216 = 116 ∧
      pops 116 s.log = 1 ∧ pushes 116 s.log = 2 ∧
      ∃ l, Chain s.nxt s.head l ∧ l.Nodup ∧ 116 ∈ l := by
  have hrun : (Transition.exec State.Allowed State.step (State.initial Bool fun _ => 48)
      reuseRun).map (fun s => (s.head, s.nxt 216, phase 116 s.log, pops 116 s.log)) =
      some (216, 116, some (.pushed 1), 1) := by decide +kernel
  obtain ⟨s, hs, hobs⟩ := Option.map_eq_some_iff.mp hrun
  simp only [Prod.mk.injEq] at hobs
  obtain ⟨hhead, hnxt, hphase, hpops⟩ := hobs
  have hreach : s.Reachable fun _ => 48 := .of_exec (.start rfl) hs
  obtain ⟨⟨l, hchain, hnodup, hlisted⟩, hcounts, -⟩ := remote_list_exact hreach
  obtain ⟨x, hx, hpush, -⟩ := hcounts 116
  rw [hphase] at hx
  cases hx
  refine ⟨s, hreach, hhead, hnxt, hpops, ?_, l, hchain, hnodup, (hlisted 116).mpr ⟨1, hphase⟩⟩
  rw [hpush, hpops]
  rfl

end Semalloc.RemoteList
