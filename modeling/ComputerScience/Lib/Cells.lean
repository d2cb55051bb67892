/-
  ComputerScience.Lib.Cells
  ─────────────────────────
  **CELLS: the memory behind a C pointer.**

  A pointer is an offset into a row of cells.  `store` writes a list at an
  offset, `load` reads a number of cells as a list.  Nothing is bounded here:
  a result that says which cells changed says that the rest were left alone, and
  that is how in-bounds access is stated.
-/
import Mathlib.Data.List.Basic
import Mathlib.Data.List.Range

namespace ComputerScience.Lib

/-- A row of cells, addressed by offset. -/
abbrev Cells (α : Type*) := ℕ → α

namespace Cells

variable {α : Type*} (m : Cells α)

/-- The `n` cells from `off` on. -/
def load (off n : ℕ) : List α := (List.range n).map (fun i => m (off + i))

/-- Write `xs` at `off`. -/
def store (off : ℕ) (xs : List α) : Cells α :=
  fun i => if off ≤ i then (xs[i - off]?).getD (m i) else m i

/-! ## §1. `load`. -/

@[simp] theorem length_load (off n : ℕ) : (m.load off n).length = n := by
  simp [load]

@[simp] theorem load_zero (off : ℕ) : m.load off 0 = [] := rfl

theorem getElem_load (off n i : ℕ) (h : i < (m.load off n).length) :
    (m.load off n)[i] = m (off + i) := by
  simp [load]

theorem load_add (off a b : ℕ) : m.load off (a + b) = m.load off a ++ m.load (off + a) b := by
  simp only [load, List.range_add, List.map_append, List.map_map]
  congr 1
  apply List.map_congr_left
  intro i _
  show m (off + (a + i)) = m (off + a + i)
  rw [Nat.add_assoc]

/-- The first cells of a range. -/
theorem take_load (off : ℕ) {j n : ℕ} (h : j ≤ n) : (m.load off n).take j = m.load off j := by
  rw [show n = j + (n - j) by omega, load_add]
  exact List.take_left' (length_load m off j)

theorem load_ne_nil (off : ℕ) {n : ℕ} (h : 0 < n) : m.load off n ≠ [] := by
  intro hnil
  have hlen := congrArg List.length hnil
  rw [length_load, List.length_nil] at hlen
  omega

theorem load_one (off : ℕ) : m.load off 1 = [m off] := rfl

theorem load_succ (off n : ℕ) : m.load off (n + 1) = m off :: m.load (off + 1) n := by
  rw [Nat.add_comm n 1, load_add, load_one]
  rfl

theorem mem_load {off n : ℕ} {x : α} :
    x ∈ m.load off n ↔ ∃ i, off ≤ i ∧ i < off + n ∧ m i = x := by
  simp only [load, List.mem_map, List.mem_range]
  constructor
  · intro ⟨i, hi, hx⟩
    exact ⟨off + i, by omega, by omega, hx⟩
  · intro ⟨i, hlo, hhi, hx⟩
    refine ⟨i - off, by omega, ?_⟩
    rw [show off + (i - off) = i by omega]
    exact hx

theorem load_congr {m m' : Cells α} {off n : ℕ}
    (h : ∀ i, off ≤ i → i < off + n → m i = m' i) : m.load off n = m'.load off n := by
  apply List.map_congr_left
  intro i hi
  exact h (off + i) (by omega) (by simpa using List.mem_range.mp hi)

/-! ## §2. `store`. -/

@[simp] theorem store_nil (off : ℕ) : m.store off [] = m := by
  funext i
  simp [store]

/-- A cell that was written holds the written element. -/
theorem store_apply_of_mem {off : ℕ} {xs : List α} {i : ℕ} (h : i < xs.length) :
    m.store off xs (off + i) = xs[i] := by
  simp [store, h]

/-- **The frame of `store`**: the other cells keep their contents. -/
theorem store_apply_of_not_mem {off : ℕ} {xs : List α} {i : ℕ}
    (h : i < off ∨ off + xs.length ≤ i) : m.store off xs i = m i := by
  unfold store
  split
  next hle =>
    rw [List.getElem?_eq_none (by omega)]
    rfl
  next => rfl

theorem load_store_self (off : ℕ) (xs : List α) :
    (m.store off xs).load off xs.length = xs := by
  apply List.ext_getElem
  · simp
  · intro i h₁ h₂
    rw [getElem_load, store_apply_of_mem]

theorem load_store_of_disjoint {off n o : ℕ} {xs : List α}
    (h : off + n ≤ o ∨ o + xs.length ≤ off) : (m.store o xs).load off n = m.load off n := by
  apply load_congr
  intro i hlo hhi
  apply store_apply_of_not_mem
  omega

/-- Writing on where the last write ended is one write. -/
theorem store_store_append (off : ℕ) (xs ys : List α) :
    (m.store off xs).store (off + xs.length) ys = m.store off (xs ++ ys) := by
  funext i
  by_cases hlo : i < off
  · rw [store_apply_of_not_mem _ (by omega), store_apply_of_not_mem _ (by omega),
      store_apply_of_not_mem _ (by omega)]
  · obtain ⟨j, rfl⟩ : ∃ j, i = off + j := ⟨i - off, by omega⟩
    by_cases hx : j < xs.length
    · rw [store_apply_of_not_mem _ (by omega), store_apply_of_mem _ hx,
        store_apply_of_mem _ (by simp; omega), List.getElem_append_left hx]
    · by_cases hy : j - xs.length < ys.length
      · rw [show off + j = off + xs.length + (j - xs.length) by omega,
          store_apply_of_mem _ hy, Nat.add_assoc,
          store_apply_of_mem _ (by simp; omega), List.getElem_append_right (by omega)]
        simp
      · rw [store_apply_of_not_mem _ (by omega), store_apply_of_not_mem _ (by omega),
          store_apply_of_not_mem _ (by simp; omega)]

end Cells

end ComputerScience.Lib
