import Mathlib.Tactic

/-!
# Postconditions of stateful programs that may halt

A program of `EStateM ε σ α` runs on a state `σ`; it returns a value of `α` with a new state, or
it halts with a reason of `ε`. `Spec m s post halt` says what one run of `m` from `s` does: a
returned value and its state satisfy `post`, and a halting reason satisfies `halt`. The rules
below follow the program: one rule for each way a program is put together.

## Main definitions

* `Spec m s post halt`: the run of `m` from `s` returns within `post` or halts within `halt`
* `final r`: the state a run ends in, whether it returned or halted
* `Keeps R m`: every run of `m` ends in a state related by `R` to the one it started in
* `Ends m s post stop`: `Spec`, with a condition on the state a run halts in
* `Throws halt m`: every run of `m` that halts does so for a reason in `halt`
* `Runs m s post stop`: `Spec`, with a condition on the reason and on the state a run halts in
* `Mirrors φ m m'`: from a state changed by `φ`, `m'` does what `m` does

## Main results

* `Spec.bind`, `Spec.pure`, `Spec.get`, `Spec.modify`, `Spec.throw`: the rules of the program text
* `Spec.mono`: consequence
* `Spec.of_ok`: what a run that returned satisfies
* `Spec.and`, `Spec.trace`: two specifications of one run, and the run itself
* `Keeps.bind`, `Keeps.ite`, …: the same rules for what every run keeps
* `Mirrors.bind`, `Mirrors.ite`, …: the same rules for programs that do not see a change of state
-/

set_option autoImplicit false

namespace Effect

variable {ε σ α β : Type}

/-- A program that starts by reading the state goes on with the state it runs on. -/
theorem run_get (k : σ → EStateM ε σ α) (s : σ) :
    (MonadState.get >>= k : EStateM ε σ α) s = k s s := rfl

/-- The run of `m` from `s` returns a value and a state in `post`, or halts for a reason in
`halt`. It is irreducible so that no proof runs the program by unfolding it. -/
@[irreducible] def Spec (m : EStateM ε σ α) (s : σ) (post : α → σ → Prop) (halt : ε → Prop) : Prop :=
  match m s with
  | .ok a t => post a t
  | .error e _ => halt e

namespace Spec

variable {m : EStateM ε σ α} {f : α → EStateM ε σ β} {s : σ} {post : α → σ → Prop}
  {after : β → σ → Prop} {halt : ε → Prop}

theorem pure {a : α} (h : post a s) : Spec (Pure.pure a : EStateM ε σ α) s post halt := by
  unfold Spec
  exact h

theorem throw {e : ε} (h : halt e) :
    Spec (MonadExcept.throw e : EStateM ε σ α) s post halt := by
  unfold Spec
  exact h

theorem get {post : σ → σ → Prop} (h : post s s) :
    Spec (MonadState.get : EStateM ε σ σ) s post halt := by
  unfold Spec
  exact h

theorem modify {post : PUnit → σ → Prop} {g : σ → σ} (h : post ⟨⟩ (g s)) :
    Spec (modify g : EStateM ε σ PUnit) s post halt := by
  unfold Spec
  exact h

theorem mono {post' : α → σ → Prop} {halt' : ε → Prop} (h : Spec m s post halt)
    (hp : ∀ a t, post a t → post' a t) (hh : ∀ e, halt e → halt' e) : Spec m s post' halt' := by
  unfold Spec at h ⊢
  cases hm : m s with
  | ok a t => rw [hm] at h; exact hp a t h
  | error e t => rw [hm] at h; exact hh e h

/-- Consequence in the postcondition alone. -/
theorem imp {post' : α → σ → Prop} (h : Spec m s post halt)
    (hp : ∀ a t, post a t → post' a t) : Spec m s post' halt :=
  h.mono hp fun _ he => he

/-- Consequence in the halting condition alone. -/
theorem halts {halt' : ε → Prop} (h : Spec m s post halt) (hh : ∀ e, halt e → halt' e) :
    Spec m s post halt' :=
  h.mono (fun _ _ hp => hp) hh

/-- A specification without the halting condition. -/
theorem any (h : Spec m s post halt) : Spec m s post fun _ => True :=
  h.halts fun _ _ => True.intro

/-- **Sequencing**: the second program runs on what the first one leaves. -/
theorem bind (h : Spec m s (fun a t => Spec (f a) t after halt) halt) :
    Spec (m >>= f) s after halt := by
  unfold Spec at h ⊢
  show match EStateM.bind m f s with
    | .ok a t => after a t
    | .error e _ => halt e
  unfold EStateM.bind
  cases hm : m s with
  | ok a t => rw [hm] at h; exact h
  | error e t => rw [hm] at h; exact h

/-- Sequencing through a postcondition already proved of the first program. -/
theorem seq (h : Spec m s post halt) (hf : ∀ a t, post a t → Spec (f a) t after halt) :
    Spec (m >>= f) s after halt :=
  bind (h.imp hf)

/-- Sequencing that remembers the run of the first program. -/
theorem seq_run (h : Spec m s post halt)
    (hf : ∀ a t, m s = .ok a t → post a t → Spec (f a) t after halt) :
    Spec (m >>= f) s after halt := by
  refine bind ?_
  unfold Spec at h ⊢
  cases hm : m s with
  | ok a t =>
    rw [hm] at h
    have := hf a t hm h
    unfold Spec at this
    exact this
  | error e t => rw [hm] at h; exact h

theorem ite {c : Prop} [Decidable c] {m' : EStateM ε σ α}
    (ht : c → Spec m s post halt) (hf : ¬ c → Spec m' s post halt) :
    Spec (if c then m else m') s post halt := by
  split
  · exact ht ‹_›
  · exact hf ‹_›

theorem trivial : Spec m s (fun _ _ => True) fun _ => True := by
  unfold Spec
  cases m s <;> exact True.intro

/-- A run that returned satisfies the postcondition. -/
theorem of_ok {a : α} {t : σ} (h : Spec m s post halt) (hm : m s = .ok a t) : post a t := by
  unfold Spec at h
  rwa [hm] at h

/-- A run that halted satisfies the halting condition. -/
theorem of_error {e : ε} {t : σ} (h : Spec m s post halt) (hm : m s = .error e t) : halt e := by
  unfold Spec at h
  rwa [hm] at h

/-- What a run satisfies by two specifications. -/
theorem and {post' : α → σ → Prop} {halt' : ε → Prop} (h : Spec m s post halt)
    (h' : Spec m s post' halt') :
    Spec m s (fun a t => post a t ∧ post' a t) fun e => halt e ∧ halt' e := by
  unfold Spec at h h' ⊢
  cases hm : m s with
  | ok a t => rw [hm] at h h'; exact ⟨h, h'⟩
  | error e t => rw [hm] at h h'; exact ⟨h, h'⟩

/-- A second specification that does not say why the run may halt. -/
theorem both {post' : α → σ → Prop} (h : Spec m s post halt)
    (h' : Spec m s post' fun _ => True) :
    Spec m s (fun a t => post a t ∧ post' a t) halt :=
  (h.and h').mono (fun _ _ hp => hp) fun _ he => he.1

/-- A run ends where it ends. -/
theorem trace (m : EStateM ε σ α) (s : σ) :
    Spec m s (fun a t => m s = .ok a t) fun e => ∃ t, m s = .error e t := by
  unfold Spec
  cases m s with
  | ok a t => rfl
  | error e t => exact ⟨t, rfl⟩

/-- Programs that run alike satisfy the same. -/
theorem congr_run {m' : EStateM ε σ α} (hm : m s = m' s) (h : Spec m' s post halt) :
    Spec m s post halt := by
  unfold Spec at h ⊢
  rw [hm]
  exact h

/-- A program that may not halt returns. -/
theorem exists_ok (h : Spec m s post fun _ => False) : ∃ a t, m s = .ok a t ∧ post a t := by
  unfold Spec at h
  cases hm : m s with
  | ok a t => rw [hm] at h; exact ⟨a, t, rfl, h⟩
  | error e t => rw [hm] at h; exact h.elim

/-- Programs that agree on what the first one leaves run alike after it. -/
theorem bind_congr {f' : α → EStateM ε σ β} (h : Spec m s post halt)
    (hf : ∀ a t, post a t → f a t = f' a t) : (m >>= f) s = (m >>= f') s := by
  change EStateM.bind m f s = EStateM.bind m f' s
  unfold EStateM.bind
  cases hm : m s with
  | ok a t => exact hf a t (h.of_ok hm)
  | error e t => rfl

end Spec

/-- Programs that run alike do so in front of another one. -/
theorem bind_congr_left {m m' : EStateM ε σ α} {f : α → EStateM ε σ β} {s : σ}
    (h : m s = m' s) : (m >>= f) s = (m' >>= f) s := by
  change EStateM.bind m f s = EStateM.bind m' f s
  unfold EStateM.bind
  rw [h]

/-! ## What every run keeps -/

/-- The state a run ends in. -/
def final (r : EStateM.Result ε σ α) : σ :=
  match r with
  | .ok _ t => t
  | .error _ t => t

/-- Every run of `m`, also one that halts, ends in a state related by `R` to its first. -/
def Keeps (R : σ → σ → Prop) (m : EStateM ε σ α) : Prop := ∀ s, R s (final (m s))

namespace Keeps

variable {R : σ → σ → Prop} {m : EStateM ε σ α} {f : α → EStateM ε σ β}

theorem pure (hrefl : ∀ s, R s s) (a : α) : Keeps R (Pure.pure a : EStateM ε σ α) :=
  fun s => hrefl s

theorem throw (hrefl : ∀ s, R s s) (e : ε) :
    Keeps R (MonadExcept.throw e : EStateM ε σ α) := fun s => hrefl s

theorem get (hrefl : ∀ s, R s s) : Keeps R (MonadState.get : EStateM ε σ σ) := fun s => hrefl s

theorem modify {g : σ → σ} (h : ∀ s, R s (g s)) : Keeps R (modify g : EStateM ε σ PUnit) :=
  fun s => h s

theorem bind (htrans : ∀ s t u, R s t → R t u → R s u) (hm : Keeps R m)
    (hf : ∀ a, Keeps R (f a)) : Keeps R (m >>= f) := by
  intro s
  show R s (final (EStateM.bind m f s))
  have hfirst := hm s
  unfold EStateM.bind
  cases hrun : m s with
  | ok a t =>
    rw [hrun] at hfirst
    exact htrans s t _ hfirst (hf a t)
  | error e t =>
    rw [hrun] at hfirst
    exact hfirst

theorem ite {c : Prop} [Decidable c] {m' : EStateM ε σ α} (hm : Keeps R m) (hm' : Keeps R m') :
    Keeps R (if c then m else m') := by
  split
  · exact hm
  · exact hm'

end Keeps

theorem Keeps.imp {R R' : σ → σ → Prop} {m : EStateM ε σ α} (h : Keeps R m)
    (hR : ∀ s t, R s t → R' s t) : Keeps R' m := fun s => hR s _ (h s)

theorem Keeps.spec {R : σ → σ → Prop} {m : EStateM ε σ α} (h : Keeps R m) (s : σ) :
    Spec m s (fun _ t => R s t) fun _ => True := by
  have hR := h s
  unfold Spec
  cases hm : m s with
  | ok a t => rw [hm] at hR; exact hR
  | error e t => trivial

/-! ## Where a run ends -/

/-- The run of `m` from `s` returns within `post`, or halts in a state within `stop`. -/
def Ends (m : EStateM ε σ α) (s : σ) (post : α → σ → Prop) (stop : σ → Prop) : Prop :=
  match m s with
  | .ok a t => post a t
  | .error _ t => stop t

namespace Ends

variable {m : EStateM ε σ α} {f : α → EStateM ε σ β} {s : σ} {post : α → σ → Prop}
  {after : β → σ → Prop} {stop : σ → Prop}

theorem of_keeps {R : σ → σ → Prop} (h : Keeps R m) (hpost : ∀ a t, R s t → post a t)
    (hstop : ∀ t, R s t → stop t) : Ends m s post stop := by
  have hR := h s
  unfold Ends
  cases hm : m s with
  | ok a t => rw [hm] at hR; exact hpost a t hR
  | error e t => rw [hm] at hR; exact hstop t hR

theorem bind (h : Ends m s (fun a t => Ends (f a) t after stop) stop) :
    Ends (m >>= f) s after stop := by
  unfold Ends at h ⊢
  show match EStateM.bind m f s with
    | .ok a t => after a t
    | .error _ t => stop t
  unfold EStateM.bind
  cases hm : m s with
  | ok a t => rw [hm] at h; exact h
  | error e t => rw [hm] at h; exact h

end Ends

/-! ## Why a run halts -/

/-- Every run of `m` that halts does so for a reason in `halt`. -/
def Throws (halt : ε → Prop) (m : EStateM ε σ α) : Prop := ∀ s e t, m s = .error e t → halt e

namespace Throws

variable {m : EStateM ε σ α} {f : α → EStateM ε σ β} {halt : ε → Prop}

theorem pure (a : α) : Throws halt (Pure.pure a : EStateM ε σ α) := fun _ _ _ h => by cases h

theorem throw {e : ε} (h : halt e) : Throws halt (MonadExcept.throw e : EStateM ε σ α) :=
  fun _ _ _ he => by cases he; exact h

theorem get : Throws halt (MonadState.get : EStateM ε σ σ) := fun _ _ _ h => by cases h

theorem modify {g : σ → σ} : Throws halt (modify g : EStateM ε σ PUnit) :=
  fun _ _ _ h => by cases h

theorem bind (hm : Throws halt m) (hf : ∀ a, Throws halt (f a)) : Throws halt (m >>= f) := by
  intro s e u h
  change EStateM.bind m f s = .error e u at h
  unfold EStateM.bind at h
  cases hrun : m s with
  | ok a t => rw [hrun] at h; exact hf a t e u h
  | error e' t =>
    rw [hrun] at h
    cases h
    exact hm s _ _ hrun

theorem ite {c : Prop} [Decidable c] {m' : EStateM ε σ α} (hm : c → Throws halt m)
    (hm' : ¬ c → Throws halt m') : Throws halt (if c then m else m') := by
  split
  · exact hm ‹_›
  · exact hm' ‹_›

end Throws

/-! ## Where and why a run halts -/

/-- The run of `m` from `s` returns within `post`, or halts for a reason and in a state within
`stop`. -/
@[irreducible] def Runs (m : EStateM ε σ α) (s : σ) (post : α → σ → Prop)
    (stop : ε → σ → Prop) : Prop :=
  match m s with
  | .ok a t => post a t
  | .error e t => stop e t

namespace Runs

variable {m : EStateM ε σ α} {f : α → EStateM ε σ β} {s : σ} {post : α → σ → Prop}
  {after : β → σ → Prop} {stop : ε → σ → Prop}

theorem pure {a : α} (h : post a s) : Runs (Pure.pure a : EStateM ε σ α) s post stop := by
  unfold Runs
  exact h

theorem throw {e : ε} (h : stop e s) :
    Runs (MonadExcept.throw e : EStateM ε σ α) s post stop := by
  unfold Runs
  exact h

theorem ite {c : Prop} [Decidable c] {m' : EStateM ε σ α} (ht : c → Runs m s post stop)
    (hf : ¬ c → Runs m' s post stop) : Runs (if c then m else m') s post stop := by
  split
  · exact ht ‹_›
  · exact hf ‹_›

theorem mono {post' : α → σ → Prop} {stop' : ε → σ → Prop} (h : Runs m s post stop)
    (hp : ∀ a t, post a t → post' a t) (hs : ∀ e t, stop e t → stop' e t) :
    Runs m s post' stop' := by
  unfold Runs at h ⊢
  cases hm : m s with
  | ok a t => rw [hm] at h; exact hp a t h
  | error e t => rw [hm] at h; exact hs e t h

theorem imp {post' : α → σ → Prop} (h : Runs m s post stop)
    (hp : ∀ a t, post a t → post' a t) : Runs m s post' stop :=
  h.mono hp fun _ _ he => he

theorem bind (h : Runs m s (fun a t => Runs (f a) t after stop) stop) :
    Runs (m >>= f) s after stop := by
  unfold Runs at h ⊢
  show match EStateM.bind m f s with
    | .ok a t => after a t
    | .error e t => stop e t
  unfold EStateM.bind
  cases hm : m s with
  | ok a t => rw [hm] at h; exact h
  | error e t => rw [hm] at h; exact h

/-- A program that may not halt. -/
theorem of_spec (h : Spec m s post fun _ => False) : Runs m s post stop := by
  unfold Spec at h
  unfold Runs
  cases hm : m s with
  | ok a t => rw [hm] at h; exact h
  | error e t => rw [hm] at h; exact h.elim

/-- What follows a program that may not halt. -/
theorem after_spec (h : Spec m s (fun a t => Runs (f a) t after stop) fun _ => False) :
    Runs (m >>= f) s after stop := bind (of_spec h)

theorem spec (h : Runs m s post stop) : Spec m s post fun e => ∃ t, stop e t := by
  unfold Runs at h
  unfold Spec
  cases hm : m s with
  | ok a t => rw [hm] at h; exact h
  | error e t => rw [hm] at h; exact ⟨t, h⟩

/-- A program that may not halt returns. -/
theorem exists_ok (h : Runs m s post fun _ _ => False) : ∃ a t, m s = .ok a t ∧ post a t := by
  unfold Runs at h
  cases hm : m s with
  | ok a t => rw [hm] at h; exact ⟨a, t, rfl, h⟩
  | error e t => rw [hm] at h; exact h.elim

/-- A program that may not return halts. -/
theorem exists_error (h : Runs m s (fun _ _ => False) stop) :
    ∃ e t, m s = .error e t ∧ stop e t := by
  unfold Runs at h
  cases hm : m s with
  | ok a t => rw [hm] at h; exact h.elim
  | error e t => rw [hm] at h; exact ⟨e, t, rfl, h⟩

end Runs

/-! ## Programs that do not see a change of state -/

/-- The result with its state changed. -/
def mapState (φ : σ → σ) : EStateM.Result ε σ α → EStateM.Result ε σ α
  | .ok a t => .ok a (φ t)
  | .error e t => .error e (φ t)

/-- From a changed state, `m'` does what `m` does, up to the change. -/
def Mirrors (φ : σ → σ) (m m' : EStateM ε σ α) : Prop := ∀ s, m' (φ s) = mapState φ (m s)

namespace Mirrors

variable {φ : σ → σ} {m m' : EStateM ε σ α} {f f' : α → EStateM ε σ β}

theorem pure (a : α) : Mirrors φ (Pure.pure a : EStateM ε σ α) (Pure.pure a) := fun _ => rfl

theorem throw (e : ε) : Mirrors φ (MonadExcept.throw e : EStateM ε σ α) (MonadExcept.throw e) :=
  fun _ => rfl

theorem modify {g g' : σ → σ} (h : ∀ s, g' (φ s) = φ (g s)) :
    Mirrors φ (modify g : EStateM ε σ PUnit) (modify g') := fun s =>
  congrArg (EStateM.Result.ok PUnit.unit) (h s)

theorem get_bind {k k' : σ → EStateM ε σ α} (h : ∀ s, k' (φ s) (φ s) = mapState φ (k s s)) :
    Mirrors φ (MonadState.get >>= k) (MonadState.get >>= k') := h

theorem bind (hm : Mirrors φ m m') (hf : ∀ a, Mirrors φ (f a) (f' a)) :
    Mirrors φ (m >>= f) (m' >>= f') := by
  intro s
  show EStateM.bind m' f' (φ s) = mapState φ (EStateM.bind m f s)
  unfold EStateM.bind
  rw [hm s]
  cases m s with
  | ok a t => exact hf a t
  | error e t => rfl

/-- Sequencing after a program all of whose values have a property. -/
theorem bind_of {Q : α → Prop} (hQ : ∀ s, Spec m s (fun a _ => Q a) fun _ => True)
    (hm : Mirrors φ m m') (hf : ∀ a, Q a → Mirrors φ (f a) (f' a)) :
    Mirrors φ (m >>= f) (m' >>= f') := by
  intro s
  show EStateM.bind m' f' (φ s) = mapState φ (EStateM.bind m f s)
  unfold EStateM.bind
  rw [hm s]
  cases hrun : m s with
  | ok a t => exact hf a ((hQ s).of_ok hrun) t
  | error e t => rfl

theorem ite {c : Prop} [Decidable c] {n n' : EStateM ε σ α} (hm : Mirrors φ m m')
    (hn : Mirrors φ n n') : Mirrors φ (if c then m else n) (if c then m' else n') := by
  split
  · exact hm
  · exact hn

end Mirrors

end Effect
