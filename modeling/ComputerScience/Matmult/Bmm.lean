/-
  ComputerScience.Matmult.Bmm
  ───────────────────────────
  **BLOCKED MATRIX MULTIPLY** (`12-cache-memories/matmult/bmm.c`).

  `bijk` and `bikj` cut the columns `j` and the inner index `k` into blocks of `bsize`, up
  to the last multiple `en` of `bsize`, and treat what is left over in loops of their own:
  four regions of pairs (j, k), each swept by the same loop nest.  The two functions are
  the same driver `blocked` over two nests.  No counter or bound of these loops passes
  `n`, so the `int`s are natural numbers.

  Main results:
    • `bijkRegion_adds`, `bikjRegion_adds` — a nest adds the terms of its region,
    • `blocked_adds` — the four kinds of regions are all pairs, each once, whatever `bsize`,
    • `matmult_product` — both functions, and the six loop orders, leave the product.
-/
import ComputerScience.Matmult.Mm
import Mathlib.Algebra.BigOperators.Fin

namespace ComputerScience.Matmult

open ComputerScience.Lib
open Finset

variable {R : Type*} [CommRing R]

/-! ## §1. The functions. -/

/-- `reset(c, n)`, and the first loops of both functions. -/
def reset (C : Matrix ℕ ℕ R) (n : ℕ) : Option (Matrix ℕ ℕ R) :=
  nest n (fun i j C => store n C i j 0) C

/-- The loop nest of `bijk` over one region:
`for (i …) for (j …) { sum = C[i][j]; for (k …) sum += A[i][k]*B[k][j]; C[i][j] = sum; }` -/
def bijkRegion (A B : Matrix ℕ ℕ R) (n jlo jhi klo khi : ℕ) (C : Matrix ℕ ℕ R) :
    Option (Matrix ℕ ℕ R) :=
  forLoop 0 n 1 (fun i => forLoop jlo jhi 1 (fun j C => do
    let sum ← load n C i j
    let sum ← dot A B n i j klo khi sum
    store n C i j sum)) C

/-- The loop nest of `bikj` over one region:
`for (i …) for (k …) { r = A[i][k]; for (j …) C[i][j] += r*B[k][j]; }` -/
def bikjRegion (A B : Matrix ℕ ℕ R) (n jlo jhi klo khi : ℕ) (C : Matrix ℕ ℕ R) :
    Option (Matrix ℕ ℕ R) :=
  forLoop 0 n 1 (fun i => forLoop klo khi 1 (fun k => rowInto A B n i k jlo jhi)) C

/-- `for (jj …) { … }` over the blocks of columns, then the rest of the columns, with `k`
from `klo` to `khi`. -/
def columns (nestOf : ℕ → ℕ → ℕ → ℕ → Matrix ℕ ℕ R → Option (Matrix ℕ ℕ R))
    (n bsize klo khi : ℕ) (C : Matrix ℕ ℕ R) : Option (Matrix ℕ ℕ R) := do
  -- amount that fits evenly into blocks
  let en := bsize * (n / bsize)
  let C ← forLoop 0 en bsize (fun jj => nestOf jj (jj + bsize) klo khi) C
  -- finish off rest of j values
  nestOf en n klo khi C

/-- The loops of both functions around their nest. -/
def blocked (nestOf : ℕ → ℕ → ℕ → ℕ → Matrix ℕ ℕ R → Option (Matrix ℕ ℕ R))
    (C : Matrix ℕ ℕ R) (n bsize : ℕ) : Option (Matrix ℕ ℕ R) := do
  let en := bsize * (n / bsize)
  let C ← reset C n
  let C ← forLoop 0 en bsize (fun kk => columns nestOf n bsize kk (kk + bsize)) C
  -- finish remaining k values
  columns nestOf n bsize en n C

def bijk (A B C : Matrix ℕ ℕ R) (n bsize : ℕ) : Option (Matrix ℕ ℕ R) :=
  blocked (bijkRegion A B n) C n bsize

def bikj (A B C : Matrix ℕ ℕ R) (n bsize : ℕ) : Option (Matrix ℕ ℕ R) :=
  blocked (bikjRegion A B n) C n bsize

/-! ## §2. The zeros. -/

/-- `C` with zeros in the rows and columns below `n`. -/
def cleared (n : ℕ) (C : Matrix ℕ ℕ R) : Matrix ℕ ℕ R :=
  fun i j => if i < n ∧ j < n then 0 else C i j

/-- One row of `reset`. -/
theorem reset_row {n i : ℕ} {C D : Matrix ℕ ℕ R} (hi : i < n)
    (hD : ∀ a b, D a b = if a < i ∧ b < n then 0 else C a b) :
    ∃ D', forLoop 0 n 1 (fun j D => store n D i j 0) D = some D' ∧
      ∀ a b, D' a b = if a < i + 1 ∧ b < n then 0 else C a b := by
  have hloop : ∃ D', forLoop 0 n 1 (fun j D => store n D i j 0) D = some D' ∧
      ∀ a b, D' a b = if a = i ∧ b < n then 0 else D a b := by
    apply forLoop_rule_one
      (fun j (D' : Matrix ℕ ℕ R) => ∀ a b, D' a b = if a = i ∧ b < j then 0 else D a b)
      (Nat.zero_le n)
    · intro a b
      rw [if_neg (by omega)]
    · intro j D' _ hj hD'
      refine ⟨_, store_eq hi hj 0, ?_⟩
      intro a b
      rw [Matrix.of_apply, hD' a b]
      split_ifs <;> first | rfl | omega
  obtain ⟨D', hrun, hD'⟩ := hloop
  refine ⟨D', hrun, ?_⟩
  intro a b
  rw [hD' a b, hD a b]
  split_ifs <;> first | rfl | omega

theorem reset_eq (C : Matrix ℕ ℕ R) (n : ℕ) : reset C n = some (cleared n C) := by
  have hloop : ∃ D, reset C n = some D ∧ ∀ a b, D a b = if a < n ∧ b < n then 0 else C a b := by
    apply forLoop_rule_one
      (fun i (D : Matrix ℕ ℕ R) => ∀ a b, D a b = if a < i ∧ b < n then 0 else C a b)
      (Nat.zero_le n)
    · intro a b
      rw [if_neg (by omega)]
    · intro i D _ hi hD
      exact reset_row hi hD
  obtain ⟨D, hrun, hD⟩ := hloop
  rw [hrun]
  congr 1
  funext a b
  exact hD a b

/-! ## §3. What a region adds. -/

/-- The terms of a region of pairs (j, k), for all rows. -/
def region (A B : Matrix ℕ ℕ R) (n : ℕ) (J K : Finset ℕ) : Matrix ℕ ℕ R :=
  ∑ k ∈ K, ∑ j ∈ J, ∑ i ∈ Ico 0 n, term A B i j k

variable {A B : Matrix ℕ ℕ R} {n jlo jhi klo khi : ℕ}

/-- The nest of `bijk` adds its region. -/
theorem bijkRegion_adds (hj : jlo ≤ jhi) (hjn : jhi ≤ n) (hk : klo ≤ khi) (hkn : khi ≤ n)
    (C : Matrix ℕ ℕ R) :
    bijkRegion A B n jlo jhi klo khi C =
      some (C + region A B n (Ico jlo jhi) (Ico klo khi)) := by
  have hswap : region A B n (Ico jlo jhi) (Ico klo khi) =
      ∑ i ∈ Ico 0 n, ∑ j ∈ Ico jlo jhi, ∑ k ∈ Ico klo khi, term A B i j k := by
    unfold region
    rw [sum_comm, sum_comm (s := Ico 0 n)]
    exact sum_congr rfl (fun j _ => sum_comm)
  rw [hswap]
  apply forLoop_sum_one _ (Nat.zero_le n)
  intro i _ hi C
  apply forLoop_sum_one _ hj
  intro j _ hjlt C
  rw [load_eq hi (by omega)]
  show (dot A B n i j klo khi (C i j)).bind (store n C i j) = _
  rw [dot_eq hi (by omega) hk hkn, Option.bind_some, store_add_eq hi (by omega), single_sum_eq]

/-- So does the nest of `bikj`. -/
theorem bikjRegion_adds (hj : jlo ≤ jhi) (hjn : jhi ≤ n) (hk : klo ≤ khi) (hkn : khi ≤ n)
    (C : Matrix ℕ ℕ R) :
    bikjRegion A B n jlo jhi klo khi C =
      some (C + region A B n (Ico jlo jhi) (Ico klo khi)) := by
  have hswap : region A B n (Ico jlo jhi) (Ico klo khi) =
      ∑ i ∈ Ico 0 n, ∑ k ∈ Ico klo khi, ∑ j ∈ Ico jlo jhi, term A B i j k := by
    unfold region
    rw [sum_comm (s := Ico 0 n)]
    exact sum_congr rfl (fun k _ => sum_comm)
  rw [hswap]
  apply forLoop_sum_one _ (Nat.zero_le n)
  intro i _ hi C
  apply forLoop_sum_one _ hk
  intro k _ hklt C
  exact rowInto_adds hi (by omega) hj hjn

/-! ## §4. The regions together. -/

/-- A region is the sum of its rows of pairs. -/
theorem region_rows (A B : Matrix ℕ ℕ R) (n : ℕ) (J K : Finset ℕ) :
    region A B n J K = ∑ k ∈ K, region A B n J {k} := by
  unfold region
  simp only [sum_singleton]

/-- A region is the sum of its columns of pairs. -/
theorem region_cols (A B : Matrix ℕ ℕ R) (n : ℕ) (J K : Finset ℕ) :
    region A B n J K = ∑ j ∈ J, region A B n {j} K := by
  unfold region
  simp only [sum_singleton]
  exact sum_comm

/-- All pairs below `n`. -/
theorem region_all (A B : Matrix ℕ ℕ R) (n : ℕ) :
    region A B n (Ico 0 n) (Ico 0 n) = product A B n := by
  rw [← product_jki]
  exact sum_comm

section Driver

variable {nestOf : ℕ → ℕ → ℕ → ℕ → Matrix ℕ ℕ R → Option (Matrix ℕ ℕ R)} {bsize : ℕ}
  (hb : 0 < bsize)
  (hadds : ∀ jlo jhi klo khi, jlo ≤ jhi → jhi ≤ n → klo ≤ khi → khi ≤ n → ∀ C,
    nestOf jlo jhi klo khi C = some (C + region A B n (Ico jlo jhi) (Ico klo khi)))

include hb hadds

/-- All columns, for some values of `k`. -/
theorem columns_adds (hk : klo ≤ khi) (hkn : khi ≤ n) (C : Matrix ℕ ℕ R) :
    columns nestOf n bsize klo khi C = some (C + region A B n (Ico 0 n) (Ico klo khi)) := by
  have hen : bsize * (n / bsize) ≤ n := Nat.mul_div_le n bsize
  have hblocks : forLoop 0 (bsize * (n / bsize)) bsize
      (fun jj => nestOf jj (jj + bsize) klo khi) C =
      some (C + ∑ j ∈ Ico 0 (bsize * (n / bsize)), region A B n {j} (Ico klo khi)) := by
    apply forLoop_sum_blocks _ _ hb
    intro jj hjj C
    rw [← region_cols]
    exact hadds _ _ _ _ (by omega) (by omega) hk hkn C
  unfold columns
  show (forLoop 0 (bsize * (n / bsize)) bsize _ C).bind (nestOf _ n klo khi) = _
  rw [hblocks, Option.bind_some, hadds _ _ _ _ hen (Nat.le_refl n) hk hkn,
    region_cols A B n (Ico (bsize * (n / bsize)) n), add_assoc,
    sum_Ico_consecutive _ (Nat.zero_le _) hen, ← region_cols]

/-- **The blocks and what is left over are all pairs, each once**, for every `bsize`. -/
theorem blocked_adds (C : Matrix ℕ ℕ R) :
    blocked nestOf C n bsize = some (cleared n C + product A B n) := by
  have hen : bsize * (n / bsize) ≤ n := Nat.mul_div_le n bsize
  have hblocks : forLoop 0 (bsize * (n / bsize)) bsize
      (fun kk => columns nestOf n bsize kk (kk + bsize)) (cleared n C) =
      some (cleared n C + ∑ k ∈ Ico 0 (bsize * (n / bsize)), region A B n (Ico 0 n) {k}) := by
    apply forLoop_sum_blocks _ _ hb
    intro kk hkk C
    rw [← region_rows]
    exact columns_adds hb hadds (by omega) (by omega) C
  unfold blocked
  show (reset C n).bind (fun C => (forLoop 0 (bsize * (n / bsize)) bsize _ C).bind
    (columns nestOf n bsize _ n)) = _
  rw [reset_eq, Option.bind_some, hblocks, Option.bind_some,
    columns_adds hb hadds hen (Nat.le_refl n), region_rows A B n _ (Ico (bsize * (n / bsize)) n),
    add_assoc, sum_Ico_consecutive _ (Nat.zero_le _) hen, ← region_rows, region_all]

end Driver

/-- **Blocked and plain matrix multiply.**  Whatever `C` holds, `bijk` and `bikj` leave the
product in it, for every block size; so do the six loop orders when `C` is zero.  None
reads or writes outside the rows and columns below `n`. -/
theorem matmult_product (A B : Matrix ℕ ℕ R) (n bsize : ℕ) (hb : 1 ≤ bsize) :
    (∀ C, Leaves n A B C (bijk A B C n bsize)) ∧ (∀ C, Leaves n A B C (bikj A B C n bsize)) ∧
    ∀ C : Matrix ℕ ℕ R, (∀ i j, i < n → j < n → C i j = 0) →
      Leaves n A B C (ijk A B C n) ∧ Leaves n A B C (jik A B C n) ∧
      Leaves n A B C (ikj A B C n) ∧ Leaves n A B C (kij A B C n) ∧
      Leaves n A B C (kji A B C n) ∧ Leaves n A B C (jki A B C n) := by
  have hcleared : ∀ C i j, i < n → j < n → cleared n C i j = (0 : R) :=
    fun C i j hi hj => if_pos ⟨hi, hj⟩
  have hrest : ∀ (C : Matrix ℕ ℕ R) i j, ¬ (i < n ∧ j < n) → cleared n C i j = C i j :=
    fun C i j hij => if_neg hij
  refine ⟨?_, ?_, ?_⟩
  · intro C
    exact leaves_of_adds (blocked_adds hb (fun _ _ _ _ => bijkRegion_adds) C) (hcleared C) (hrest C)
  · intro C
    exact leaves_of_adds (blocked_adds hb (fun _ _ _ _ => bikjRegion_adds) C) (hcleared C) (hrest C)
  · intro C hzero
    have hleaves : ∀ {run}, run = some (C + product A B n) → Leaves n A B C run :=
      fun hrun => leaves_of_adds hrun hzero (fun _ _ _ => rfl)
    exact ⟨hleaves (ijk_adds A B C n), hleaves (jik_adds A B C n), hleaves (ikj_adds A B C n),
      hleaves (kij_adds A B C n), hleaves (kji_adds A B C n), hleaves (jki_adds A B C n)⟩

/-- Three rows in blocks of two. -/
theorem matmult_product_three :
    ∃ C' : Matrix ℕ ℕ ℤ, bijk (fun i k => (i + 2 * k : ℤ)) (fun k j => k - j) (fun _ _ => 7) 3 2 =
      some C' ∧ C' 2 0 = 16 ∧ C' 3 0 = 7 := by
  obtain ⟨hbijk, _, _⟩ := matmult_product (fun i k => (i + 2 * k : ℤ)) (fun k j => k - j) 3 2
    (by decide)
  obtain ⟨C', hrun, hpart, hrest⟩ := hbijk (fun _ _ => 7)
  refine ⟨C', hrun, ?_, hrest 3 0 (by decide)⟩
  have hentry := congrFun (congrFun hpart 2) 0
  rw [Matrix.mul_apply, Fin.sum_univ_three] at hentry
  exact hentry

end ComputerScience.Matmult
