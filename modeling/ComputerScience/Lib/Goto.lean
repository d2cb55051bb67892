/-
  ComputerScience.Lib.Goto
  ────────────────────────
  **PROGRAMS WITH LABELS.**

  Straight-line code between two labels is a block: it changes the variables and then goes
  to a label or returns.  `Goto.run` follows the labels for at most `fuel` blocks.

    • `Goto.run_rule` — an assertion at each label and a measure that every jump decreases:
      the program returns, and what a returning block establishes holds at the end;
      `Goto.run_value` is the rule for the value that is returned.
-/
import Mathlib.Data.Nat.Notation

namespace ComputerScience.Lib

variable {L σ : Type*}

/-- The program from label `l` on; a block gives the variables after it and where it goes,
`none` for a return. -/
def Goto.run (block : L → σ → σ × Option L) : ℕ → L → σ → Option σ
  | 0, _, _ => none
  | fuel + 1, l, s =>
      match (block l s).2 with
      | none => some (block l s).1
      | some l' => run block fuel l' (block l s).1

/-- **The rule of assertions**: each block takes the assertion `I` of its label to that of
the label it goes to, with a smaller measure `μ`, or to `Q` when it returns. -/
theorem Goto.run_rule {block : L → σ → σ × Option L} {I : L → σ → Prop} {Q : σ → Prop}
    (μ : L → σ → ℕ)
    (hgo : ∀ l s l', I l s → (block l s).2 = some l' →
      I l' (block l s).1 ∧ μ l' (block l s).1 < μ l s)
    (hret : ∀ l s, I l s → (block l s).2 = none → Q (block l s).1)
    {l : L} {s : σ} (h : I l s) {fuel : ℕ} (hfuel : μ l s < fuel) :
    ∃ s', Goto.run block fuel l s = some s' ∧ Q s' := by
  induction fuel generalizing l s with
  | zero => cases hfuel
  | succ fuel ih =>
      unfold Goto.run
      cases hnext : (block l s).2 with
      | none => exact ⟨_, rfl, hret l s h hnext⟩
      | some l' =>
          obtain ⟨hI, hlt⟩ := hgo l s l' h hnext
          exact ih hI (by omega)

/-- The rule for a program that returns a value `f` of its variables. -/
theorem Goto.run_value {τ : Type*} {block : L → σ → σ × Option L} {I : L → σ → Prop}
    {f : σ → τ} {v : τ} (μ : L → σ → ℕ)
    (hgo : ∀ l s l', I l s → (block l s).2 = some l' →
      I l' (block l s).1 ∧ μ l' (block l s).1 < μ l s)
    (hret : ∀ l s, I l s → (block l s).2 = none → f (block l s).1 = v)
    {l : L} {s : σ} (h : I l s) {fuel : ℕ} (hfuel : μ l s < fuel) :
    (Goto.run block fuel l s).map f = some v := by
  obtain ⟨s', hs', hv⟩ := Goto.run_rule (Q := fun s => f s = v) μ hgo hret h hfuel
  rw [hs', Option.map_some, hv]

end ComputerScience.Lib
