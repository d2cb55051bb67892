/-
  ComputerScience.Lib.While
  ─────────────────────────
  **LOOPS WITHOUT A COUNTER.**

  `loopBreak body` is `while (1) body`, over a state that the body transforms; the body says
  whether the loop goes on or breaks, and fails on an access that is not allowed.
  `loopWhile` is the loop with a test, which may fail as well.  Both run for at most `fuel`
  turns, and their rules ask for an invariant and for a measure that every turn decreases:

    • `loopBreak_rule`, `loopWhile_rule` — the loop ends, nothing in it fails, and what the last
      turn establishes holds at the end.

  `loopExit` is for loops that may `return` from the middle, with a value.  Such a loop may
  depend on something that never comes, so its rules are:

    • `loopExit_partial` — what holds of a value that was returned,
    • `loopExit_returns` — when a value is returned,
    • `loopExit_total` — both at once.
-/
import Mathlib.Data.Nat.Notation

namespace ComputerScience.Lib

variable {σ : Type*}

/-- `while (1) body`; a body that gives `false` breaks. -/
def loopBreak (body : σ → Option (σ × Bool)) : ℕ → σ → Option σ
  | 0, _ => none
  | fuel + 1, s => (body s).bind fun t => if t.2 then loopBreak body fuel t.1 else some t.1

/-- `while (test) body` -/
def loopWhile (test : σ → Option Bool) (body : σ → Option σ) (fuel : ℕ) (s : σ) : Option σ :=
  loopBreak
    (fun s => (test s).bind fun go => if go then (body s).map (·, true) else some (s, false))
    fuel s

/-- **The rule of a loop with a break**: a turn keeps `I` and decreases `μ`, or it breaks
with `Q`. -/
theorem loopBreak_rule {body : σ → Option (σ × Bool)} {I Q : σ → Prop} (μ : σ → ℕ)
    (hbody : ∀ s, I s →
      (∃ s', body s = some (s', true) ∧ I s' ∧ μ s' < μ s) ∨
      (∃ s', body s = some (s', false) ∧ Q s'))
    {s : σ} (h : I s) {fuel : ℕ} (hfuel : μ s < fuel) :
    ∃ s', loopBreak body fuel s = some s' ∧ Q s' := by
  induction fuel generalizing s with
  | zero => cases hfuel
  | succ fuel ih =>
      unfold loopBreak
      rcases hbody s h with ⟨s', hs', hI, hlt⟩ | ⟨s', hs', hQ⟩
      · simp only [hs', Option.bind_some, if_true]
        exact ih hI (by omega)
      · simp only [hs', Option.bind_some, Bool.false_eq_true, if_false]
        exact ⟨s', rfl, hQ⟩

/-- **The rule of a loop with a test.** -/
theorem loopWhile_rule {test : σ → Option Bool} {body : σ → Option σ} {I Q : σ → Prop}
    (μ : σ → ℕ)
    (hturn : ∀ s, I s →
      (test s = some true ∧ ∃ s', body s = some s' ∧ I s' ∧ μ s' < μ s) ∨
      (test s = some false ∧ Q s))
    {s : σ} (h : I s) {fuel : ℕ} (hfuel : μ s < fuel) :
    ∃ s', loopWhile test body fuel s = some s' ∧ Q s' := by
  refine loopBreak_rule μ ?_ h hfuel
  intro s hI
  rcases hturn s hI with ⟨htest, s', hs', hI', hlt⟩ | ⟨htest, hQ⟩
  · refine Or.inl ⟨s', ?_, hI', hlt⟩
    simp [htest, hs']
  · refine Or.inr ⟨s, ?_, hQ⟩
    simp [htest]

/-! ## §1. Loops that return. -/

variable {ρ : Type*}

/-- `while (1) turn`; a turn leads to the next one or returns a value. -/
def loopExit (turn : σ → σ ⊕ ρ) : ℕ → σ → Option ρ
  | 0, _ => none
  | fuel + 1, s =>
      match turn s with
      | .inl s' => loopExit turn fuel s'
      | .inr r => some r

/-- **What a loop that has returned establishes.** -/
theorem loopExit_partial {turn : σ → σ ⊕ ρ} {I : σ → Prop} {Q : ρ → Prop}
    (hnext : ∀ s s', I s → turn s = .inl s' → I s') (hexit : ∀ s r, I s → turn s = .inr r → Q r)
    {s : σ} (h : I s) {fuel : ℕ} {r : ρ} (hrun : loopExit turn fuel s = some r) : Q r := by
  induction fuel generalizing s with
  | zero => cases hrun
  | succ fuel ih =>
      unfold loopExit at hrun
      cases hturn : turn s with
      | inl s' =>
          rw [hturn] at hrun
          exact ih (hnext s s' h hturn) hrun
      | inr r' =>
          rw [hturn] at hrun
          cases hrun
          exact hexit s r h hturn

/-- **A loop whose turns decrease `μ` returns.** -/
theorem loopExit_returns {turn : σ → σ ⊕ ρ} {I : σ → Prop} (μ : σ → ℕ)
    (hnext : ∀ s s', I s → turn s = .inl s' → I s' ∧ μ s' < μ s) {s : σ} (h : I s) {fuel : ℕ}
    (hfuel : μ s < fuel) : ∃ r, loopExit turn fuel s = some r := by
  induction fuel generalizing s with
  | zero => cases hfuel
  | succ fuel ih =>
      unfold loopExit
      cases hturn : turn s with
      | inl s' =>
          obtain ⟨hI, hlt⟩ := hnext s s' h hturn
          exact ih hI (by omega)
      | inr r => exact ⟨r, rfl⟩

/-- **The rule of total correctness**: `I k` holds of the states from which at most `k` turns
follow, and a turn keeps it or returns with `Q`. -/
theorem loopExit_total {turn : σ → σ ⊕ ρ} {I : ℕ → σ → Prop} {Q : ρ → Prop}
    (hturn : ∀ k s, I k s → (∃ s' k', turn s = .inl s' ∧ k' < k ∧ I k' s') ∨
      ∃ r, turn s = .inr r ∧ Q r)
    {k : ℕ} {s : σ} (h : I k s) {fuel : ℕ} (hfuel : k < fuel) :
    ∃ r, loopExit turn fuel s = some r ∧ Q r := by
  induction fuel generalizing s k with
  | zero => cases hfuel
  | succ fuel ih =>
      unfold loopExit
      rcases hturn k s h with ⟨s', k', hs', hlt, h'⟩ | ⟨r, hr, hQ⟩
      · rw [hs']
        exact ih h' (by omega)
      · rw [hr]
        exact ⟨r, rfl, hQ⟩

end ComputerScience.Lib
