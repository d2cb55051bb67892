/-
  ComputerScience.Optimization.SumRows
  ────────────────────────────────────
  **SUMS OF ROWS, IN MEMORY AND IN A REGISTER** (`10-optimization/sum_rows.c`).

  `sum_rows1` adds up row `i` of the matrix `a` in the cell `b[i]`, `sum_rows2` in a local
  variable that it stores in `b[i]` at the end of the row.  A compiler may not turn the one
  into the other, since `b[i]` may be an element of row `i`; here is that this is the only
  obstacle.  `b` may overlap the rows before and after it, and the cells may be of any type
  with a zero and an addition: the two functions do the same additions in the same order,
  and no law of arithmetic is used, so floating-point cells are covered.

  Main results:
    • `row1_eq`, `row2_eq` — the effect of one row on the memory,
    • `sumRows1_eq_sumRows2` — the two functions leave the same memory.
-/
import ComputerScience.Lib.Cells
import ComputerScience.Lib.Loop

namespace ComputerScience.Optimization

open ComputerScience.Lib

variable {α : Type*} [Zero α] [Add α]

/-! ## §1. The two functions. -/

/-- The body of the outer loop of `sum_rows1`; `a` and `b` are the addresses of the first
cells of the matrix and of the vector. -/
def row1 (a b n i : ℕ) (m : Cells α) : Option (Cells α) :=
  forLoop 0 n 1
    (fun j m => some (Function.update m (b + i) (m (b + i) + m (a + (i * n + j)))))
    (Function.update m (b + i) 0)

/-- `sum_rows1` -/
def sumRows1 (a b n : ℕ) (m : Cells α) : Option (Cells α) :=
  forLoop 0 n 1 (row1 a b n) m

/-- The body of the outer loop of `sum_rows2`. -/
def row2 (a b n i : ℕ) (m : Cells α) : Option (Cells α) :=
  (forLoop 0 n 1 (fun j val => some (val + m (a + (i * n + j)))) 0).bind fun val =>
    some (Function.update m (b + i) val)

/-- `sum_rows2` -/
def sumRows2 (a b n : ℕ) (m : Cells α) : Option (Cells α) :=
  forLoop 0 n 1 (row2 a b n) m

/-! ## §2. One row. -/

/-- The sum of the first `k` elements of row `i`, in the order of the loops. -/
def partialRow (a n i : ℕ) (m : Cells α) : ℕ → α
  | 0 => 0
  | k + 1 => partialRow a n i m k + m (a + (i * n + k))

/-- In a register the row is read from one memory. -/
theorem row2_eq (a b n i : ℕ) (m : Cells α) :
    row2 a b n i m = some (Function.update m (b + i) (partialRow a n i m n)) := by
  have hloop : ∃ val, forLoop 0 n 1 (fun j val => some (val + m (a + (i * n + j)))) 0 = some val ∧
      val = partialRow a n i m n := by
    refine forLoop_rule_one (fun k (val : α) => val = partialRow a n i m k) (Nat.zero_le n) rfl ?_
    rintro k val _ _ rfl
    exact ⟨_, rfl, rfl⟩
  obtain ⟨val, hrun, rfl⟩ := hloop
  unfold row2
  rw [hrun]
  rfl

/-- In memory every turn reads the row after the stores of the turns before it, which have
all gone to a cell outside of the row. -/
theorem row1_eq {a b n i : ℕ} (h : ∀ j < n, b + i ≠ a + (i * n + j)) (m : Cells α) :
    row1 a b n i m = some (Function.update m (b + i) (partialRow a n i m n)) := by
  have hloop : ∃ m', row1 a b n i m = some m' ∧
      m' = Function.update m (b + i) (partialRow a n i m n) := by
    refine forLoop_rule_one
      (fun k (m' : Cells α) => m' = Function.update m (b + i) (partialRow a n i m k))
      (Nat.zero_le n) rfl ?_
    rintro k m' _ hk rfl
    refine ⟨_, rfl, ?_⟩
    rw [Function.update_self, Function.update_of_ne (h k hk).symm, Function.update_idem]
    rfl
  obtain ⟨m', hrun, rfl⟩ := hloop
  exact hrun

/-! ## §3. All rows. -/

/-- **The two functions leave the same memory**, wherever the matrix and the vector lie, as
long as no `b[i]` is an element of row `i`. -/
theorem sumRows1_eq_sumRows2 (a b n : ℕ)
    (h : ∀ i < n, ∀ j < n, b + i ≠ a + (i * n + j)) (m : Cells α) :
    ∃ m', sumRows1 a b n m = some m' ∧ sumRows2 a b n m = some m' := by
  have hrows : sumRows1 a b n m = sumRows2 a b n m := by
    refine forLoop_congr ?_ m
    intro i _ hi m
    rw [row1_eq (h i hi), row2_eq]
  obtain ⟨m', hm', -⟩ := forLoop_rule_one (fun _ (_ : Cells α) => True) (Nat.zero_le n) trivial
    (s := m) (fun i m _ _ _ => ⟨_, row2_eq a b n i m, trivial⟩)
  exact ⟨m', hrows.trans hm', hm'⟩

/-- A vector whose first element is the last one of the matrix. -/
theorem sumRows1_eq_sumRows2_overlap : ∃ m' : Cells ℤ,
    sumRows1 0 3 2 (fun k => (k : ℤ)) = some m' ∧
      sumRows2 0 3 2 (fun k => (k : ℤ)) = some m' :=
  sumRows1_eq_sumRows2 0 3 2 (by decide) _

/-- With `b[0]` in row 0 the two differ. -/
example : ((sumRows1 0 0 1 (fun _ => (1 : ℤ))).map fun m => m 0) = some 0 ∧
    ((sumRows2 0 0 1 (fun _ => (1 : ℤ))).map fun m => m 0) = some 1 := by decide

end ComputerScience.Optimization
