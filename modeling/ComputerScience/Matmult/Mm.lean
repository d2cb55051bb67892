/-
  ComputerScience.Matmult.Mm
  ──────────────────────────
  **THE SIX LOOP ORDERS OF MATRIX MULTIPLY** (`12-cache-memories/matmult/mm.c`).

  A matrix is a table of entries over a commutative ring, in place of `double`.  Every
  access names the size `n`, and one outside the rows and columns below `n` fails: a
  function that returns a matrix has read and written nothing else.

  Each store of these functions is a `+=`, so what a loop nest does is to add a matrix to
  `C`, and the order of the loops is the order of a sum (`nest_adds`).  All six add
  `product A B n` (`ijk_adds`, …, `jki_adds`).
-/
import ComputerScience.Lib.Loop
import Mathlib.Data.Matrix.Basis
import Mathlib.Data.Matrix.Mul

namespace ComputerScience.Matmult

open ComputerScience.Lib
open Finset

variable {R : Type*} [CommRing R]

/-! ## §1. Access. -/

/-- `M[i][j]` -/
def load (n : ℕ) (M : Matrix ℕ ℕ R) (i j : ℕ) : Option R :=
  if i < n ∧ j < n then some (M i j) else none

/-- `M[i][j] = x` -/
def store (n : ℕ) (M : Matrix ℕ ℕ R) (i j : ℕ) (x : R) : Option (Matrix ℕ ℕ R) :=
  if i < n ∧ j < n then some (Matrix.of fun a b => if a = i ∧ b = j then x else M a b) else none

/-- `M[i][j] += x` -/
def addTo (n : ℕ) (M : Matrix ℕ ℕ R) (i j : ℕ) (x : R) : Option (Matrix ℕ ℕ R) := do
  let y ← load n M i j
  store n M i j (y + x)

variable {n : ℕ} {A B C M : Matrix ℕ ℕ R} {i j k : ℕ}

omit [CommRing R] in
theorem load_eq (hi : i < n) (hj : j < n) : load n M i j = some (M i j) := if_pos ⟨hi, hj⟩

omit [CommRing R] in
theorem store_eq (hi : i < n) (hj : j < n) (x : R) :
    store n M i j x = some (Matrix.of fun a b => if a = i ∧ b = j then x else M a b) :=
  if_pos ⟨hi, hj⟩

/-- A store of the sum adds a matrix with one entry. -/
theorem store_add_eq (hi : i < n) (hj : j < n) (x : R) :
    store n M i j (M i j + x) = some (M + Matrix.single i j x) := by
  rw [store_eq hi hj]
  congr 1
  funext a b
  rw [Matrix.of_apply, Matrix.add_apply, Matrix.single_apply]
  by_cases h : a = i ∧ b = j
  · obtain ⟨rfl, rfl⟩ := h
    rw [if_pos ⟨rfl, rfl⟩, if_pos ⟨rfl, rfl⟩]
  · rw [if_neg h, if_neg (fun hab => h ⟨hab.1.symm, hab.2.symm⟩), add_zero]

theorem addTo_eq (hi : i < n) (hj : j < n) (x : R) :
    addTo n M i j x = some (M + Matrix.single i j x) := by
  unfold addTo
  rw [load_eq hi hj]
  exact store_add_eq hi hj x

/-! ## §2. The loops. -/

/-- `for (k = lo; k < hi; k++) sum += A[i][k]*B[k][j];` -/
def dot (A B : Matrix ℕ ℕ R) (n i j lo hi : ℕ) (sum : R) : Option R :=
  forLoop lo hi 1 (fun k sum => do
    let a ← load n A i k
    let b ← load n B k j
    some (sum + a * b)) sum

/-- The body of `ijk` and `jik`: `sum = 0.0;`, the loop, `C[i][j] += sum;`. -/
def dotInto (A B : Matrix ℕ ℕ R) (n i j : ℕ) (C : Matrix ℕ ℕ R) : Option (Matrix ℕ ℕ R) := do
  let sum ← dot A B n i j 0 n 0
  addTo n C i j sum

/-- `r = A[i][k]; for (j = lo; j < hi; j++) C[i][j] += r*B[k][j];` -/
def rowInto (A B : Matrix ℕ ℕ R) (n i k lo hi : ℕ) (C : Matrix ℕ ℕ R) :
    Option (Matrix ℕ ℕ R) := do
  let r ← load n A i k
  forLoop lo hi 1 (fun j C => do
    let b ← load n B k j
    addTo n C i j (r * b)) C

/-- `r = B[k][j]; for (i = 0; i < n; i++) C[i][j] += A[i][k]*r;` -/
def colInto (A B : Matrix ℕ ℕ R) (n j k : ℕ) (C : Matrix ℕ ℕ R) : Option (Matrix ℕ ℕ R) := do
  let r ← load n B k j
  forLoop 0 n 1 (fun i C => do
    let a ← load n A i k
    addTo n C i j (a * r)) C

/-- `for (x = 0; x < n; x++) for (y = 0; y < n; y++) body` -/
def nest (n : ℕ) (body : ℕ → ℕ → Matrix ℕ ℕ R → Option (Matrix ℕ ℕ R)) (C : Matrix ℕ ℕ R) :
    Option (Matrix ℕ ℕ R) :=
  forLoop 0 n 1 (fun x => forLoop 0 n 1 (body x)) C

def ijk (A B C : Matrix ℕ ℕ R) (n : ℕ) : Option (Matrix ℕ ℕ R) :=
  nest n (fun i j => dotInto A B n i j) C

def jik (A B C : Matrix ℕ ℕ R) (n : ℕ) : Option (Matrix ℕ ℕ R) :=
  nest n (fun j i => dotInto A B n i j) C

def ikj (A B C : Matrix ℕ ℕ R) (n : ℕ) : Option (Matrix ℕ ℕ R) :=
  nest n (fun i k => rowInto A B n i k 0 n) C

def kij (A B C : Matrix ℕ ℕ R) (n : ℕ) : Option (Matrix ℕ ℕ R) :=
  nest n (fun k i => rowInto A B n i k 0 n) C

def kji (A B C : Matrix ℕ ℕ R) (n : ℕ) : Option (Matrix ℕ ℕ R) :=
  nest n (fun k j => colInto A B n j k) C

def jki (A B C : Matrix ℕ ℕ R) (n : ℕ) : Option (Matrix ℕ ℕ R) :=
  nest n (fun j k => colInto A B n j k) C

/-! ## §3. What a loop adds. -/

/-- The matrix that one multiplication adds to. -/
def term (A B : Matrix ℕ ℕ R) (i j k : ℕ) : Matrix ℕ ℕ R := Matrix.single i j (A i k * B k j)

theorem single_sum_eq (A B : Matrix ℕ ℕ R) (i j : ℕ) (s : Finset ℕ) :
    Matrix.single i j (∑ k ∈ s, A i k * B k j) = ∑ k ∈ s, term A B i j k :=
  map_sum (Matrix.singleAddMonoidHom i j) _ s

theorem dot_eq (hi : i < n) (hj : j < n) {lo hi' : ℕ} (hle : lo ≤ hi') (hn : hi' ≤ n) (x : R) :
    dot A B n i j lo hi' x = some (x + ∑ k ∈ Ico lo hi', A i k * B k j) := by
  apply forLoop_sum_one _ hle
  intro k _ hk y
  rw [load_eq hi (by omega), load_eq (by omega) hj]
  rfl

theorem dotInto_adds (hi : i < n) (hj : j < n) :
    dotInto A B n i j C = some (C + ∑ k ∈ Ico 0 n, term A B i j k) := by
  unfold dotInto
  rw [dot_eq hi hj (Nat.zero_le n) (Nat.le_refl n), zero_add, ← single_sum_eq]
  exact addTo_eq hi hj _

theorem rowInto_adds (hi : i < n) (hk : k < n) {lo hi' : ℕ} (hle : lo ≤ hi') (hn : hi' ≤ n) :
    rowInto A B n i k lo hi' C = some (C + ∑ j ∈ Ico lo hi', term A B i j k) := by
  unfold rowInto
  rw [load_eq hi hk]
  apply forLoop_sum_one (fun j => term A B i j k) hle
  intro j _ hj M
  rw [load_eq hk (by omega)]
  exact addTo_eq hi (by omega) _

theorem colInto_adds (hj : j < n) (hk : k < n) :
    colInto A B n j k C = some (C + ∑ i ∈ Ico 0 n, term A B i j k) := by
  unfold colInto
  rw [load_eq hk hj]
  apply forLoop_sum_one (fun i => term A B i j k) (Nat.zero_le n)
  intro i _ hi M
  rw [load_eq hi hk]
  exact addTo_eq hi hj _

/-- **Two nested loops** over a body that adds. -/
theorem nest_adds {body : ℕ → ℕ → Matrix ℕ ℕ R → Option (Matrix ℕ ℕ R)}
    (f : ℕ → ℕ → Matrix ℕ ℕ R)
    (hbody : ∀ x y, x < n → y < n → ∀ C, body x y C = some (C + f x y)) (C : Matrix ℕ ℕ R) :
    nest n body C = some (C + ∑ x ∈ Ico 0 n, ∑ y ∈ Ico 0 n, f x y) := by
  apply forLoop_sum_one _ (Nat.zero_le n)
  intro x _ hx C
  apply forLoop_sum_one _ (Nat.zero_le n)
  intro y _ hy C
  exact hbody x y hx hy C

/-- The same with the two loops exchanged. -/
theorem nest_adds_swap {body : ℕ → ℕ → Matrix ℕ ℕ R → Option (Matrix ℕ ℕ R)}
    (f : ℕ → ℕ → Matrix ℕ ℕ R)
    (hbody : ∀ x y, x < n → y < n → ∀ C, body x y C = some (C + f x y)) (C : Matrix ℕ ℕ R) :
    nest n (fun y x => body x y) C = some (C + ∑ x ∈ Ico 0 n, ∑ y ∈ Ico 0 n, f x y) := by
  rw [sum_comm]
  exact nest_adds (fun y x => f x y) (fun y x hy hx => hbody x y hx hy) C

/-! ## §4. The product. -/

/-- The product, in the rows and columns below `n`. -/
def product (A B : Matrix ℕ ℕ R) (n : ℕ) : Matrix ℕ ℕ R :=
  ∑ i ∈ Ico 0 n, ∑ j ∈ Ico 0 n, ∑ k ∈ Ico 0 n, term A B i j k

theorem product_ikj (A B : Matrix ℕ ℕ R) (n : ℕ) :
    ∑ i ∈ Ico 0 n, ∑ k ∈ Ico 0 n, ∑ j ∈ Ico 0 n, term A B i j k = product A B n :=
  sum_congr rfl (fun _ _ => sum_comm)

theorem product_jki (A B : Matrix ℕ ℕ R) (n : ℕ) :
    ∑ j ∈ Ico 0 n, ∑ k ∈ Ico 0 n, ∑ i ∈ Ico 0 n, term A B i j k = product A B n := by
  unfold product
  rw [sum_comm (f := fun i j => ∑ k ∈ Ico 0 n, term A B i j k)]
  exact sum_congr rfl (fun _ _ => sum_comm)

theorem ijk_adds (A B C : Matrix ℕ ℕ R) (n : ℕ) : ijk A B C n = some (C + product A B n) :=
  nest_adds (fun i j => ∑ k ∈ Ico 0 n, term A B i j k)
    (fun _ _ hi hj _ => dotInto_adds hi hj) C

theorem jik_adds (A B C : Matrix ℕ ℕ R) (n : ℕ) : jik A B C n = some (C + product A B n) :=
  nest_adds_swap (fun i j => ∑ k ∈ Ico 0 n, term A B i j k)
    (fun _ _ hi hj _ => dotInto_adds hi hj) C

theorem ikj_adds (A B C : Matrix ℕ ℕ R) (n : ℕ) : ikj A B C n = some (C + product A B n) := by
  rw [← product_ikj]
  exact nest_adds (fun i k => ∑ j ∈ Ico 0 n, term A B i j k)
    (fun _ _ hi hk _ => rowInto_adds hi hk (Nat.zero_le n) (Nat.le_refl n)) C

theorem kij_adds (A B C : Matrix ℕ ℕ R) (n : ℕ) : kij A B C n = some (C + product A B n) := by
  rw [← product_ikj]
  exact nest_adds_swap (fun i k => ∑ j ∈ Ico 0 n, term A B i j k)
    (fun _ _ hi hk _ => rowInto_adds hi hk (Nat.zero_le n) (Nat.le_refl n)) C

theorem jki_adds (A B C : Matrix ℕ ℕ R) (n : ℕ) : jki A B C n = some (C + product A B n) := by
  rw [← product_jki]
  exact nest_adds (fun j k => ∑ i ∈ Ico 0 n, term A B i j k)
    (fun _ _ hj hk _ => colInto_adds hj hk) C

theorem kji_adds (A B C : Matrix ℕ ℕ R) (n : ℕ) : kji A B C n = some (C + product A B n) := by
  rw [← product_jki]
  exact nest_adds_swap (fun j k => ∑ i ∈ Ico 0 n, term A B i j k)
    (fun _ _ hj hk _ => colInto_adds hj hk) C

/-- **The entries of the product.** -/
theorem product_apply (A B : Matrix ℕ ℕ R) (n a b : ℕ) :
    product A B n a b = if a < n ∧ b < n then ∑ k ∈ Ico 0 n, A a k * B k b else 0 := by
  unfold product
  simp only [← single_sum_eq, Matrix.sum_apply, Matrix.single_apply]
  by_cases h : a < n ∧ b < n
  · rw [if_pos h, sum_eq_single_of_mem a (mem_Ico.mpr ⟨Nat.zero_le a, h.1⟩),
      sum_eq_single_of_mem b (mem_Ico.mpr ⟨Nat.zero_le b, h.2⟩), if_pos ⟨rfl, rfl⟩]
    · intro j _ hj
      exact if_neg (fun hab => hj hab.2)
    · intro i _ hi
      exact sum_eq_zero (fun j _ => if_neg (fun hab => hi hab.1))
  · rw [if_neg h]
    refine sum_eq_zero (fun i hi => sum_eq_zero (fun j hj => if_neg ?_))
    intro ⟨hia, hjb⟩
    rw [mem_Ico] at hi hj
    omega

/-- The rows and columns below `n`. -/
def part (n : ℕ) (M : Matrix ℕ ℕ R) : Matrix (Fin n) (Fin n) R := M.submatrix (↑) (↑)

/-- A run that began with `C` has ended, with the product `A * B` in the rows and columns
below `n` and everything else as it was. -/
def Leaves (n : ℕ) (A B C : Matrix ℕ ℕ R) (run : Option (Matrix ℕ ℕ R)) : Prop :=
  ∃ C', run = some C' ∧ part n C' = part n A * part n B ∧
    ∀ i j, ¬ (i < n ∧ j < n) → C' i j = C i j

/-- A run that adds the product to zero leaves it. -/
theorem leaves_of_adds {C₀ : Matrix ℕ ℕ R} {run : Option (Matrix ℕ ℕ R)}
    (hrun : run = some (C₀ + product A B n)) (hzero : ∀ i j, i < n → j < n → C₀ i j = 0)
    (hrest : ∀ i j, ¬ (i < n ∧ j < n) → C₀ i j = C i j) : Leaves n A B C run := by
  refine ⟨C₀ + product A B n, hrun, ?_, ?_⟩
  · funext i j
    show C₀ i j + product A B n i j = (part n A * part n B) i j
    rw [hzero i j i.isLt j.isLt, zero_add, product_apply, if_pos ⟨i.isLt, j.isLt⟩,
      Matrix.mul_apply, ← range_eq_Ico]
    exact (Fin.sum_univ_eq_sum_range (fun k => A i k * B k j) n).symm
  · intro i j hij
    rw [Matrix.add_apply, product_apply, if_neg hij, add_zero]
    exact hrest i j hij

end ComputerScience.Matmult
