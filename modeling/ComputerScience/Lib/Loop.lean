/-
  ComputerScience.Lib.Loop
  ────────────────────────
  **COUNTED LOOPS THAT MAY FAIL.**

  `forLoop lo hi step body` is `for (i = lo; i < hi; i += step) body`, over a state that
  the body transforms; a body that fails (an index out of range, a panic) ends the loop.
  The rules for loops that land on their bound:

    • `forLoop_rule` — an invariant indexed by the counter,
    • `forLoop_partial` — the same for a loop that is known to have ended,
    • `forLoop_sum` — a loop whose every turn adds something to the state adds the sum,
      and one whose turns add blocks of a sum adds the whole (`forLoop_sum_blocks`).
-/
import Mathlib.Algebra.BigOperators.Intervals
import Mathlib.Tactic.Ring

namespace ComputerScience.Lib

variable {σ : Type*}

/-- The loop from `i` on, for at most `fuel` turns. -/
def forFrom (hi step : ℕ) (body : ℕ → σ → Option σ) : ℕ → ℕ → σ → Option σ
  | 0, _, s => some s
  | fuel + 1, i, s =>
      if i < hi then (body i s).bind (forFrom hi step body fuel (i + step)) else some s

/-- `for (i = lo; i < hi; i += step) body`, for a positive `step`; `hi - lo` turns are
always enough. -/
def forLoop (lo hi step : ℕ) (body : ℕ → σ → Option σ) (s : σ) : Option σ :=
  forFrom hi step body (hi - lo) lo s

/-- The bound of a loop of `m + 1` turns, seen after the first one. -/
theorem bound_succ (lo step m : ℕ) : lo + step * (m + 1) = lo + step + step * m := by ring

/-- A loop of `m + 1` turns has a first one. -/
theorem lt_bound_succ {step : ℕ} (hstep : 0 < step) (lo m : ℕ) : lo < lo + step * (m + 1) := by
  rw [bound_succ]
  omega

section

variable {hi step : ℕ} {body : ℕ → σ → Option σ}

/-- Past the bound the loop does nothing, whatever the fuel. -/
theorem forFrom_done (fuel : ℕ) {i : ℕ} (s : σ) (h : hi ≤ i) :
    forFrom hi step body fuel i s = some s := by
  cases fuel with
  | zero => rfl
  | succ fuel => exact if_neg (by omega)

/-- Fuel that covers the distance to the bound is as good as any more. -/
theorem forFrom_fuel (hstep : 0 < step) {fuel fuel' i : ℕ} (s : σ) (h : hi - i ≤ fuel)
    (h' : hi - i ≤ fuel') : forFrom hi step body fuel i s = forFrom hi step body fuel' i s := by
  induction fuel generalizing fuel' i s with
  | zero => rw [forFrom_done 0 s (by omega), forFrom_done fuel' s (by omega)]
  | succ fuel ih =>
      cases fuel' with
      | zero => rw [forFrom_done _ s (by omega), forFrom_done 0 s (by omega)]
      | succ fuel' =>
          unfold forFrom
          congr 1
          congr 1
          funext t
          exact ih t (by omega) (by omega)

/-- The test fails: the loop is over. -/
theorem forLoop_done {lo : ℕ} (s : σ) (h : hi ≤ lo) : forLoop lo hi step body s = some s :=
  forFrom_done _ s h

/-- **One turn of the loop.** -/
theorem forLoop_turn (hstep : 0 < step) {lo : ℕ} (s : σ) (h : lo < hi) :
    forLoop lo hi step body s = (body lo s).bind (forLoop (lo + step) hi step body) := by
  unfold forLoop
  obtain ⟨fuel, hfuel⟩ : ∃ fuel, hi - lo = fuel + 1 := ⟨hi - lo - 1, by omega⟩
  rw [hfuel, forFrom, if_pos h]
  congr 1
  funext t
  exact forFrom_fuel hstep t (by omega) (by omega)

/-- **A bound between two turns** does the same as the next turn's counter as a bound. -/
theorem forLoop_round (hstep : 0 < step) {lo m : ℕ} (s : σ) (hle : hi ≤ lo + step * m)
    (hlt : lo + step * m < hi + step) :
    forLoop lo hi step body s = forLoop lo (lo + step * m) step body s := by
  induction m generalizing lo s with
  | zero => rw [forLoop_done s (by omega), forLoop_done s (by omega)]
  | succ m ih =>
      rw [bound_succ] at hle hlt ⊢
      have hlo : lo < hi := by omega
      rw [forLoop_turn hstep s hlo, forLoop_turn hstep s (by omega)]
      congr 1
      funext t
      exact ih t hle hlt

end

/-! ## §1. The invariant rule. -/

/-- **The invariant rule** for a loop of `m` turns: what holds at the start and is taken
by each turn from `i` to `i + step` holds at the bound, and the loop does not fail. -/
theorem forLoop_rule {step : ℕ} {body : ℕ → σ → Option σ} (I : ℕ → σ → Prop) (m lo : ℕ)
    (hstep : 0 < step) {s : σ} (h0 : I lo s)
    (hbody : ∀ i s, lo ≤ i → i < lo + step * m → step ∣ i - lo → I i s →
      ∃ s', body i s = some s' ∧ I (i + step) s') :
    ∃ s', forLoop lo (lo + step * m) step body s = some s' ∧ I (lo + step * m) s' := by
  induction m generalizing lo s with
  | zero => exact ⟨s, forLoop_done s (by omega), h0⟩
  | succ m ih =>
      have hlt := lt_bound_succ hstep lo m
      have hbound := bound_succ lo step m
      obtain ⟨s', hs', hI⟩ := hbody lo s (Nat.le_refl _) hlt (by simp) h0
      rw [forLoop_turn hstep s hlt, hs']
      show ∃ t, forLoop (lo + step) (lo + step * (m + 1)) step body s' = some t ∧
        I (lo + step * (m + 1)) t
      rw [hbound]
      refine ih (lo + step) hI ?_
      intro i t hlo hhi hdvd
      refine hbody i t (by omega) (by omega) ?_
      have hsub : i - lo = (i - (lo + step)) + step := by omega
      rw [hsub]
      exact Nat.dvd_add_self_right.mpr hdvd

/-- The rule for `i++`. -/
theorem forLoop_rule_one {body : ℕ → σ → Option σ} (I : ℕ → σ → Prop) {lo hi : ℕ} (h : lo ≤ hi)
    {s : σ} (h0 : I lo s)
    (hbody : ∀ i s, lo ≤ i → i < hi → I i s → ∃ s', body i s = some s' ∧ I (i + 1) s') :
    ∃ s', forLoop lo hi 1 body s = some s' ∧ I hi s' := by
  have hrule := forLoop_rule I (hi - lo) lo Nat.one_pos h0
    (fun i s hlo hhi _ => hbody i s hlo (by omega))
  rwa [show lo + 1 * (hi - lo) = hi by omega] at hrule

/-- Bodies that agree on the turns of the loop make the same loop. -/
theorem forLoop_congr {step lo hi : ℕ} {body body' : ℕ → σ → Option σ}
    (h : ∀ i, lo ≤ i → i < hi → ∀ s, body i s = body' i s) (s : σ) :
    forLoop lo hi step body s = forLoop lo hi step body' s := by
  unfold forLoop
  generalize hi - lo = fuel
  induction fuel generalizing lo s with
  | zero => rfl
  | succ fuel ih =>
      unfold forFrom
      by_cases hlt : lo < hi
      · rw [if_pos hlt, if_pos hlt, h lo (Nat.le_refl _) hlt s]
        congr 1
        funext t
        exact ih (fun i hlo hhi => h i (by omega) hhi) t
      · rw [if_neg hlt, if_neg hlt]

/-- **What a loop that ended has kept**: the rule for bodies that may fail, `i++`. -/
theorem forLoop_partial {body : ℕ → σ → Option σ} (I : ℕ → σ → Prop) {lo hi : ℕ} (h : lo ≤ hi)
    {s t : σ} (h0 : I lo s)
    (hbody : ∀ i s s', lo ≤ i → i < hi → I i s → body i s = some s' → I (i + 1) s')
    (hrun : forLoop lo hi 1 body s = some t) : I hi t := by
  obtain ⟨m, rfl⟩ := Nat.exists_eq_add_of_le h
  induction m generalizing lo s with
  | zero =>
      rw [forLoop_done s (by omega)] at hrun
      cases hrun
      exact h0
  | succ m ih =>
      rw [forLoop_turn Nat.one_pos s (by omega), Option.bind_eq_some_iff] at hrun
      obtain ⟨s', hs', hrun'⟩ := hrun
      have hfirst := hbody lo s s' (Nat.le_refl _) (by omega) h0 hs'
      rw [show lo + (m + 1) = lo + 1 + m by omega] at hrun' hbody ⊢
      exact ih hfirst (by omega) (fun i u u' hlo hhi => hbody i u u' (by omega) hhi) hrun'

/-! ## §2. Loops that add. -/

variable [AddCommMonoid σ]

/-- **A loop that adds**: if turn `i` adds `f i`, the loop adds the sum over its turns. -/
theorem forLoop_sum {step : ℕ} {body : ℕ → σ → Option σ} (f : ℕ → σ) (m lo : ℕ)
    (hstep : 0 < step) (s : σ)
    (hbody : ∀ t, t < m → ∀ s, body (lo + step * t) s = some (s + f (lo + step * t))) :
    forLoop lo (lo + step * m) step body s =
      some (s + ∑ t ∈ Finset.range m, f (lo + step * t)) := by
  induction m generalizing lo s with
  | zero =>
      rw [forLoop_done s (by omega), Finset.sum_range_zero, add_zero]
  | succ m ih =>
      have hlt := lt_bound_succ hstep lo m
      have hfirst := hbody 0 (by omega) s
      rw [Nat.mul_zero, Nat.add_zero] at hfirst
      rw [forLoop_turn hstep s hlt, hfirst, Option.bind_some, bound_succ,
        ih (lo + step) (s + f lo)]
      · simp only [← bound_succ]
        rw [Finset.sum_range_succ' (fun t => f (lo + step * t)) m, Nat.mul_zero, Nat.add_zero,
          add_assoc, add_comm (f lo)]
      · intro t ht u
        rw [← bound_succ]
        exact hbody (t + 1) (by omega) u

/-- The same for `i++`. -/
theorem forLoop_sum_one {body : ℕ → σ → Option σ} (f : ℕ → σ) {lo hi : ℕ} (h : lo ≤ hi) (s : σ)
    (hbody : ∀ i, lo ≤ i → i < hi → ∀ s, body i s = some (s + f i)) :
    forLoop lo hi 1 body s = some (s + ∑ i ∈ Finset.Ico lo hi, f i) := by
  have hsum := forLoop_sum f (hi - lo) lo Nat.one_pos s
    (fun t ht s => hbody _ (by omega) (by omega) s)
  rw [show lo + 1 * (hi - lo) = hi by omega] at hsum
  rw [hsum, Finset.sum_Ico_eq_sum_range]
  simp only [Nat.one_mul]

/-- Consecutive blocks of a sum. -/
theorem sum_blocks (f : ℕ → σ) (b q : ℕ) :
    ∑ t ∈ Finset.range q, ∑ i ∈ Finset.Ico (b * t) (b * t + b), f i =
      ∑ i ∈ Finset.Ico 0 (b * q), f i := by
  induction q with
  | zero => rw [Finset.sum_range_zero, Nat.mul_zero, Finset.Ico_self, Finset.sum_empty]
  | succ q ih =>
      rw [Finset.sum_range_succ, ih, Nat.mul_succ,
        Finset.sum_Ico_consecutive f (Nat.zero_le _) (Nat.le_add_right _ _)]

/-- **A loop over blocks**: if the turn at `i` adds the block of `step` terms from `i` on,
the loop adds them all. -/
theorem forLoop_sum_blocks {step : ℕ} {body : ℕ → σ → Option σ} (f : ℕ → σ) (q : ℕ)
    (hstep : 0 < step) (s : σ)
    (hbody : ∀ i, i + step ≤ step * q → ∀ s,
      body i s = some (s + ∑ x ∈ Finset.Ico i (i + step), f x)) :
    forLoop 0 (step * q) step body s = some (s + ∑ x ∈ Finset.Ico 0 (step * q), f x) := by
  have hturn : ∀ t, t < q → ∀ s, body (0 + step * t) s =
      some (s + ∑ x ∈ Finset.Ico (0 + step * t) (0 + step * t + step), f x) := by
    intro t ht
    apply hbody
    rw [Nat.zero_add, ← Nat.mul_succ]
    exact Nat.mul_le_mul_left step ht
  have hsum := forLoop_sum (fun i => ∑ x ∈ Finset.Ico i (i + step), f x) q 0 hstep s hturn
  simp only [Nat.zero_add] at hsum
  rw [hsum, sum_blocks f step q]

end ComputerScience.Lib
