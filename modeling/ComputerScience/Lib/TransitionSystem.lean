/-
  ComputerScience.Lib.TransitionSystem
  ────────────────────────────────────
  **TRANSITION SYSTEMS: reachable states, invariants, termination.**

  A concurrent program is a set of initial states and a step relation; an
  interleaving is a path of that relation.  The three rules every other module
  uses:

    • `Reachable.invariant` — an invariant of one step is an invariant of runs,
    • `ends_of_measure` — a measure that every step decreases rules out infinite
      runs, so every maximal run stops in a stuck state,
    • `restrict` — the runs all of whose steps meet a condition.
-/
import Mathlib.Logic.Relation
import Mathlib.Order.WellFounded
import Mathlib.Tactic.Push

namespace ComputerScience.Lib

/-- A transition system: the initial states and the step relation. -/
structure System (σ : Type*) where
  /-- The states a run may start in. -/
  init : σ → Prop
  /-- One atomic step of one party. -/
  step : σ → σ → Prop

namespace System

variable {σ : Type*} (M : System σ)

/-! ## §1. Reachable states and the invariant rule. -/

/-- `s` is reached by a run of `M`. -/
def Reachable (s : σ) : Prop :=
  ∃ s₀, M.init s₀ ∧ Relation.ReflTransGen M.step s₀ s

variable {M}

theorem Reachable.of_init {s : σ} (h : M.init s) : M.Reachable s :=
  ⟨s, h, Relation.ReflTransGen.refl⟩

theorem Reachable.tail {s s' : σ} (h : M.Reachable s) (hs : M.step s s') :
    M.Reachable s' := by
  obtain ⟨s₀, h0, hr⟩ := h
  exact ⟨s₀, h0, hr.tail hs⟩

/-- What a run reaches from a reachable state is reachable. -/
theorem Reachable.trans {s s' : σ} (h : M.Reachable s)
    (hr : Relation.ReflTransGen M.step s s') : M.Reachable s' := by
  obtain ⟨s₀, h0, hr₀⟩ := h
  exact ⟨s₀, h0, hr₀.trans hr⟩

/-- **The invariant rule**: what holds initially and is kept by every step out
of a reachable state holds in every reachable state. -/
theorem Reachable.invariant {I : σ → Prop} (hinit : ∀ s, M.init s → I s)
    (hstep : ∀ s s', M.Reachable s → I s → M.step s s' → I s')
    {s : σ} (h : M.Reachable s) : I s := by
  obtain ⟨s₀, h0, hr⟩ := h
  induction hr with
  | refl => exact hinit s₀ h0
  | tail hab hbc ih => exact hstep _ _ ⟨s₀, h0, hab⟩ ih hbc

/-! ## §2. Runs that stop. -/

variable (M)

/-- No party can move. -/
def Stuck (s : σ) : Prop := ∀ s', ¬ M.step s s'

/-- Every run stops, and where it stops `Good` holds. -/
def EndsIn (Good : σ → Prop) : Prop :=
  (¬ ∃ run : ℕ → σ, M.init (run 0) ∧ ∀ i, M.step (run i) (run (i + 1))) ∧
    ∀ s, M.Reachable s → M.Stuck s → Good s

variable {M}

/-- The states of an infinite run are reachable. -/
theorem reachable_run {run : ℕ → σ} (h0 : M.init (run 0))
    (hs : ∀ i, M.step (run i) (run (i + 1))) : ∀ i, M.Reachable (run i) := by
  intro i
  induction i with
  | zero => exact Reachable.of_init h0
  | succ i ih => exact ih.tail (hs i)

/-- **The termination rule**: a measure decreased by every step from a
reachable state, together with what is known of the stuck states. -/
theorem ends_of_measure {Good : σ → Prop} (μ : σ → ℕ)
    (hμ : ∀ s s', M.Reachable s → M.step s s' → μ s' < μ s)
    (hgood : ∀ s, M.Reachable s → M.Stuck s → Good s) : M.EndsIn Good := by
  refine ⟨?_, hgood⟩
  rintro ⟨run, h0, hs⟩
  have hdec : ∀ i, μ (run (i + 1)) < μ (run i) := fun i =>
    hμ _ _ (reachable_run h0 hs i) (hs i)
  -- `μ` would have to fall below any bound: after `i` steps it has lost `i`.
  have hlost : ∀ i, μ (run i) + i ≤ μ (run 0) := by
    intro i
    induction i with
    | zero => exact Nat.le_refl _
    | succ i ih =>
        have := hdec i
        omega
  have := hlost (μ (run 0) + 1)
  omega

/-- **The termination rule for an invariant with a rank**: `I k` holds of states from which at
most `k` steps follow. -/
theorem ends_of_ranked {Good : σ → Prop} {I : ℕ → σ → Prop} (hinit : ∀ s, M.init s → ∃ k, I k s)
    (hstep : ∀ k s s', I k s → M.step s s' → ∃ k', k' < k ∧ I k' s')
    (hgood : ∀ k s, I k s → M.Stuck s → Good s) : M.EndsIn Good := by
  have hreach : ∀ s, M.Reachable s → ∃ k, I k s := by
    intro s hs
    refine hs.invariant hinit ?_
    rintro s s' - ⟨k, hk⟩ hss
    obtain ⟨k', -, hk'⟩ := hstep k s s' hk hss
    exact ⟨k', hk'⟩
  refine ⟨?_, ?_⟩
  · rintro ⟨run, h0, hs⟩
    obtain ⟨k, hk⟩ := hinit _ h0
    -- the rank would have to fall below zero
    have hlost : ∀ i, ∃ k', k' + i ≤ k ∧ I k' (run i) := by
      intro i
      induction i with
      | zero => exact ⟨k, Nat.le_refl _, hk⟩
      | succ i ih =>
          obtain ⟨k', hle, hI⟩ := ih
          obtain ⟨k'', hlt, hI'⟩ := hstep _ _ _ hI (hs i)
          exact ⟨k'', by omega, hI'⟩
    obtain ⟨k', hle, -⟩ := hlost (k + 1)
    omega
  · intro s hs hstuck
    obtain ⟨k, hk⟩ := hreach s hs
    exact hgood k s hk hstuck

/-- A system whose runs all stop has a run that has stopped. -/
theorem EndsIn.exists_good {Good : σ → Prop} (h : M.EndsIn Good) {s₀ : σ} (h0 : M.init s₀) :
    ∃ s, M.Reachable s ∧ Good s := by
  by_contra hno
  -- otherwise every reachable state has a successor, and they make an infinite run
  have hnext : ∀ s : { s // M.Reachable s }, ∃ s' : { s // M.Reachable s }, M.step s s' := by
    intro ⟨s, hs⟩
    have hmoves : ¬ M.Stuck s := fun hstuck => hno ⟨s, hs, h.2 s hs hstuck⟩
    unfold Stuck at hmoves
    push Not at hmoves
    obtain ⟨s', hs'⟩ := hmoves
    exact ⟨⟨s', hs.tail hs'⟩, hs'⟩
  choose next hstep using hnext
  apply h.1
  refine ⟨fun i => (next^[i] ⟨s₀, Reachable.of_init h0⟩).1, h0, ?_⟩
  intro i
  show M.step _ (next^[i + 1] ⟨s₀, Reachable.of_init h0⟩).1
  rw [Function.iterate_succ_apply']
  exact hstep _

/-! ## §3. Runs under a condition on their steps. -/

/-- The runs of `M` all of whose steps meet `allow`. -/
def restrict (M : System σ) (allow : σ → σ → Prop) : System σ where
  init := M.init
  step s s' := M.step s s' ∧ allow s s'

/-- A restricted run is a run. -/
theorem Reachable.of_restrict {allow : σ → σ → Prop} {s : σ}
    (h : (M.restrict allow).Reachable s) : M.Reachable s := by
  refine Reachable.invariant (M := M.restrict allow) (I := M.Reachable) (fun s hs => Reachable.of_init hs) ?_ h
  intro s s' _ ih hs
  exact ih.tail hs.1

end System

end ComputerScience.Lib
