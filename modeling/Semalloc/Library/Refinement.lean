import Semalloc.Library.Transition

/-!
# Refinement between labelled transition systems

A labelled system takes steps that an observer sees as labels. One system refines another when each
of its steps is matched by a step of the other under the same label, from related states to related
states; then every run is matched by a run that shows the observer the same labels.

## Main definitions

* `Steps step s ls s'`: a run from `s` to `s'` that shows the labels `ls`
* `Simulates cstep astep R`: each step is matched, and `R` is kept

## Main results

* `Simulates.steps`: whole runs are matched
* `Steps.of_reachable`: a reachable state of a deterministic system ends such a run
* `Steps.of_exec`: an executed run
-/

set_option autoImplicit false

namespace Refinement

variable {σ τ ℓ ε : Type}

/-- The runs of a labelled system. -/
inductive Steps (step : σ → ℓ → σ → Prop) : σ → List ℓ → σ → Prop
  | nil (s : σ) : Steps step s [] s
  | snoc {s s₁ s' : σ} {l : ℓ} {ls : List ℓ} (hs : Steps step s ls s₁) (h : step s₁ l s') :
      Steps step s (ls ++ [l]) s'

namespace Steps

variable {step : σ → ℓ → σ → Prop} {s s₁ s' : σ} {l : ℓ} {ls ls' : List ℓ}

theorem append (h : Steps step s ls s₁) (h' : Steps step s₁ ls' s') :
    Steps step s (ls ++ ls') s' := by
  induction h' with
  | nil => simpa using h
  | snoc _ hl ih =>
    rw [← List.append_assoc]
    exact .snoc ih hl

theorem cons (h : step s l s₁) (h' : Steps step s₁ ls s') : Steps step s (l :: ls) s' :=
  append (.snoc (.nil s) h) h'

/-- A reachable state of a deterministic system is at the end of a run of the labelled system that
shows each event with what the state answers to it. -/
theorem of_reachable {start : σ → Prop} {allowed : σ → ε → Prop} {next : σ → ε → Option σ}
    {s₀ : σ} (hstart : ∀ s, start s → s = s₀) (label : σ → ε → ℓ)
    (hstep : ∀ s e s', allowed s e → next s e = some s' → step s (label s e) s')
    (h : Transition.Reachable start allowed next s) : ∃ ls, Steps step s₀ ls s := by
  induction h with
  | start h =>
    obtain rfl := hstart _ h
    exact ⟨[], .nil _⟩
  | step _ ha hs ih =>
    obtain ⟨ls, hls⟩ := ih
    exact ⟨_, .snoc hls (hstep _ _ _ ha hs)⟩

/-- The labels of the run of the events `es`. -/
def labels (next : σ → ε → Option σ) (label : σ → ε → ℓ) : σ → List ε → List ℓ
  | _, [] => []
  | s, e :: es =>
    label s e :: match next s e with
      | some s' => labels next label s' es
      | none => []

/-- An executed run of a deterministic system, with its labels. -/
theorem of_exec {allowed : σ → ε → Prop} [∀ s e, Decidable (allowed s e)]
    {next : σ → ε → Option σ} (label : σ → ε → ℓ)
    (hstep : ∀ s e s', allowed s e → next s e = some s' → step s (label s e) s') {es : List ε}
    (h : Transition.exec allowed next s es = some s') :
    Steps step s (labels next label s es) s' := by
  induction es generalizing s with
  | nil =>
    cases h
    exact .nil _
  | cons e es ih =>
    unfold Transition.exec at h
    split at h
    · rename_i ha
      obtain ⟨s₁, hs₁, hrest⟩ := Option.bind_eq_some_iff.mp h
      unfold labels
      rw [hs₁]
      exact cons (hstep _ _ _ ha hs₁) (ih hrest)
    · cases h

end Steps

/-- The relation is a **forward simulation**: a step from a related state is matched under the same
label. -/
def Simulates (cstep : σ → ℓ → σ → Prop) (astep : τ → ℓ → τ → Prop) (R : σ → τ → Prop) : Prop :=
  ∀ c l c' a, R c a → cstep c l c' → ∃ a', astep a l a' ∧ R c' a'

/-- **Whole runs are matched.** -/
theorem Simulates.steps {cstep : σ → ℓ → σ → Prop} {astep : τ → ℓ → τ → Prop} {R : σ → τ → Prop}
    (hsim : Simulates cstep astep R) {c c' : σ} {a : τ} {ls : List ℓ} (h : Steps cstep c ls c')
    (hR : R c a) : ∃ a', Steps astep a ls a' ∧ R c' a' := by
  induction h with
  | nil => exact ⟨a, .nil a, hR⟩
  | snoc _ hl ih =>
    obtain ⟨a₁, hsteps, hR₁⟩ := ih
    obtain ⟨a', hstep, hR'⟩ := hsim _ _ _ _ hR₁ hl
    exact ⟨a', .snoc hsteps hstep, hR'⟩

end Refinement
