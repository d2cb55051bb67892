/-
  ComputerScience.Pqsort.Blocks
  ─────────────────────────────
  **HOW THE PARALLEL ROUTINES CUT AN ARRAY INTO BLOCKS** (`26-parallelism/pqsort/pqsort.c`).

  `dcopy_parallel` and `partition_parallel` compute the same cut in different integer
  types: `nblock` blocks of `npb` elements each, the last one taking the remainder.
  `dcopy_parallel` keeps `npb` and `b*npb` in `int`, `partition_parallel` in `size_t`.
  Below `2^31` elements nothing wraps and both give the tiling `tileStart`, `tileLen`.
-/
import ComputerScience.Lib.Cells
import ComputerScience.Lib.Word

namespace ComputerScience.Pqsort

open ComputerScience.Lib

/-! ## §1. The two computations of the code. -/

/-- `int nblock = (nele+block_size-1) / block_size;` in `dcopy_parallel` -/
def dcopyNblock (nele blockSize : ℕ) : ℤ := int32 (sizeT (nele + blockSize - 1) / blockSize : ℕ)

/-- `int npb = nele / nblock;` in `dcopy_parallel` -/
def dcopyNpb (nele blockSize : ℕ) : ℤ := int32 (nele / sizeT (dcopyNblock nele blockSize) : ℕ)

/-- `b*npb`, an `int`. -/
def dcopyOffset (nele blockSize b : ℕ) : ℤ := int32 (b * dcopyNpb nele blockSize)

/-- `size_t bnele = (b < nblock-1) ? npb : nele - b*npb;` in `dcopy_parallel` -/
def dcopyBnele (nele blockSize b : ℕ) : ℕ :=
  if (b : ℤ) < dcopyNblock nele blockSize - 1 then sizeT (dcopyNpb nele blockSize)
  else sizeT (nele - dcopyOffset nele blockSize b)

/-- `int nblock = (nele + block_size - 2) / block_size;` in `partition_parallel` -/
def partNblock (nele blockSize : ℕ) : ℤ := int32 (sizeT (nele + blockSize - 2) / blockSize : ℕ)

/-- `size_t npb = (nele-1) / nblock;` in `partition_parallel` -/
def partNpb (nele blockSize : ℕ) : ℕ := sizeT (nele - 1) / sizeT (partNblock nele blockSize)

/-- `size_t src_index = b*npb;` -/
def partSrcIndex (nele blockSize b : ℕ) : ℕ := sizeT (b * partNpb nele blockSize)

/-- `size_t bnele = (b < nblock-1) ? npb : nele-1 - b*npb;` in `partition_parallel` -/
def partBnele (nele blockSize b : ℕ) : ℕ :=
  if (b : ℤ) < partNblock nele blockSize - 1 then partNpb nele blockSize
  else sizeT (nele - 1 - b * partNpb nele blockSize)

/-! ## §2. The tiling. -/

/-- The number of blocks for `n` elements. -/
def blockCount (n blockSize : ℕ) : ℕ := (n + blockSize - 1) / blockSize

/-- Where block `b` of `k` starts. -/
def tileStart (n k b : ℕ) : ℕ := b * (n / k)

/-- How many elements block `b` of `k` has. -/
def tileLen (n k b : ℕ) : ℕ := if b + 1 < k then n / k else n - b * (n / k)

theorem tileStart_zero (n k : ℕ) : tileStart n k 0 = 0 := Nat.zero_mul _

theorem tileStart_le {n k b : ℕ} (hb : b ≤ k) : tileStart n k b ≤ n := by
  unfold tileStart
  calc b * (n / k) ≤ k * (n / k) := Nat.mul_le_mul_right _ hb
    _ ≤ n := Nat.mul_div_le n k

/-- The next block starts where this one ends. -/
theorem tileStart_succ {n k b : ℕ} (hb : b + 1 < k) :
    tileStart n k (b + 1) = tileStart n k b + tileLen n k b := by
  unfold tileStart tileLen
  rw [if_pos hb, Nat.add_mul, Nat.one_mul]

/-- The last block ends with the array. -/
theorem tile_last {n k b : ℕ} (hb : b + 1 = k) : tileStart n k b + tileLen n k b = n := by
  have hle : tileStart n k b ≤ n := tileStart_le (by omega)
  unfold tileStart tileLen at *
  rw [if_neg (by omega)]
  omega

theorem tile_end_le {n k b : ℕ} (hb : b < k) : tileStart n k b + tileLen n k b ≤ n := by
  by_cases h : b + 1 < k
  · rw [← tileStart_succ h]
    exact tileStart_le (by omega)
  · rw [tile_last (by omega)]

/-- **Different blocks do not overlap.** -/
theorem tile_disjoint {n k b c : ℕ} (hbc : b < c) (hc : c < k) :
    tileStart n k b + tileLen n k b ≤ tileStart n k c := by
  rw [← tileStart_succ (by omega)]
  unfold tileStart
  exact Nat.mul_le_mul_right _ hbc

/-- The same, in either order. -/
theorem tile_apart {n k b c : ℕ} (hne : b ≠ c) (hb : b < k) (hc : c < k) :
    tileStart n k b + tileLen n k b ≤ tileStart n k c ∨
      tileStart n k c + tileLen n k c ≤ tileStart n k b := by
  rcases Nat.lt_or_gt_of_ne hne with hlt | hlt
  · exact Or.inl (tile_disjoint hlt hc)
  · exact Or.inr (tile_disjoint hlt hb)

/-- **The blocks cover the array**: read one after another they are the whole. -/
theorem load_tiles {α : Type*} (m : Cells α) (off n k : ℕ) (hk : 0 < k) :
    m.load off n =
      ((List.range k).map fun b => m.load (off + tileStart n k b) (tileLen n k b)).flatten := by
  -- the first `c` blocks, for `c` below `k`
  have hpre : ∀ c, c < k → m.load off (tileStart n k c) =
      ((List.range c).map fun b => m.load (off + tileStart n k b) (tileLen n k b)).flatten := by
    intro c
    induction c with
    | zero =>
        intro _
        rw [tileStart_zero]
        rfl
    | succ c ih =>
        intro hc
        rw [List.range_succ, List.map_append, List.flatten_append, ← ih (by omega),
          tileStart_succ hc, Cells.load_add]
        simp
  -- the last block takes what is left
  obtain ⟨c, rfl⟩ : ∃ c, k = c + 1 := ⟨k - 1, by omega⟩
  rw [List.range_succ, List.map_append, List.flatten_append, ← hpre c (by omega)]
  rw [← tile_last (n := n) (k := c + 1) (b := c) rfl, Cells.load_add, tile_last rfl]
  simp

/-- The blocks have as many elements as the array. -/
theorem sum_tileLen {n k : ℕ} (hk : 0 < k) : ((List.range k).map (tileLen n k)).sum = n := by
  -- the lengths of both sides of `load_tiles`
  have hlen := congrArg List.length (load_tiles (fun _ => ()) 0 n k hk)
  simp only [Cells.length_load, List.length_flatten, List.map_map, Function.comp_def] at hlen
  exact hlen.symm

/-- The first `c` blocks have no more elements than the array. -/
theorem sum_tileLen_le {n k c : ℕ} (hc : c ≤ k) :
    ((List.range c).map (tileLen n k)).sum ≤ n := by
  by_cases hk : 0 < k
  · obtain ⟨e, rfl⟩ : ∃ e, k = c + e := ⟨k - c, by omega⟩
    have hall := sum_tileLen (n := n) hk
    rw [List.range_add, List.map_append, List.sum_append] at hall
    omega
  · obtain rfl : c = 0 := by omega
    exact Nat.zero_le n

/-! ## §3. No wrap below `2^31` elements. -/

theorem blockCount_pos {n blockSize : ℕ} (hb : 0 < blockSize) (hn : 0 < n) :
    0 < blockCount n blockSize := by
  unfold blockCount
  exact Nat.div_pos (by omega) hb

theorem blockCount_le {n blockSize : ℕ} (hb : 0 < blockSize) (hn : 0 < n) :
    blockCount n blockSize ≤ n := by
  unfold blockCount
  -- rounding up does not get past `n` blocks of one element
  have h1 : n + blockSize - 1 ≤ n * blockSize := by
    obtain ⟨n', rfl⟩ : ∃ n', n = n' + 1 := ⟨n - 1, by omega⟩
    rw [Nat.add_mul, Nat.one_mul]
    have : n' ≤ n' * blockSize := Nat.le_mul_of_pos_right _ hb
    omega
  calc (n + blockSize - 1) / blockSize ≤ n * blockSize / blockSize := Nat.div_le_div_right h1
    _ = n := Nat.mul_div_cancel n hb

section NoWrap

variable {n blockSize : ℕ} (hn : 0 < n) (hmax : n < 2 ^ 31) (hb : 0 < blockSize)
  (hsize : blockSize ≤ n)
include hn hmax hb hsize

theorem dcopyNblock_eq : dcopyNblock n blockSize = blockCount n blockSize := by
  have hle := blockCount_le hb hn
  unfold dcopyNblock
  rw [show ((n : ℤ) + blockSize - 1) = ((n + blockSize - 1 : ℕ) : ℤ) by omega,
    sizeT_natCast (by omega)]
  exact int32_natCast (lt_of_le_of_lt hle hmax)

theorem dcopyNpb_eq : dcopyNpb n blockSize = (n / blockCount n blockSize : ℕ) := by
  have hle := blockCount_le hb hn
  have hdiv := Nat.div_le_self n (blockCount n blockSize)
  unfold dcopyNpb
  rw [dcopyNblock_eq hn hmax hb hsize, sizeT_natCast (by omega)]
  exact int32_natCast (lt_of_le_of_lt hdiv hmax)

/-- `dcopy_parallel` starts its blocks at the tiles. -/
theorem dcopyOffset_eq {b : ℕ} (hlt : b < blockCount n blockSize) :
    dcopyOffset n blockSize b = tileStart n (blockCount n blockSize) b := by
  have hle : tileStart n (blockCount n blockSize) b ≤ n := tileStart_le (by omega)
  -- `b*npb` is an `int` product; it stays below `nele`
  unfold dcopyOffset
  rw [dcopyNpb_eq hn hmax hb hsize]
  unfold tileStart at *
  rw [← Int.natCast_mul]
  exact int32_natCast (lt_of_le_of_lt hle hmax)

theorem dcopyBnele_eq {b : ℕ} (hlt : b < blockCount n blockSize) :
    dcopyBnele n blockSize b = tileLen n (blockCount n blockSize) b := by
  have hle : tileStart n (blockCount n blockSize) b ≤ n := tileStart_le (by omega)
  have hdiv := Nat.div_le_self n (blockCount n blockSize)
  unfold dcopyBnele tileLen
  rw [dcopyNblock_eq hn hmax hb hsize]
  by_cases h : b + 1 < blockCount n blockSize
  · rw [if_pos (by omega), if_pos h, dcopyNpb_eq hn hmax hb hsize, sizeT_natCast (by omega)]
  · rw [if_neg (by omega), if_neg h, dcopyOffset_eq hn hmax hb hsize hlt]
    unfold tileStart at *
    rw [← Int.ofNat_sub hle, sizeT_natCast (by omega)]

theorem partNblock_eq : partNblock (n + 1) blockSize = blockCount n blockSize := by
  rw [← dcopyNblock_eq hn hmax hb hsize]
  unfold partNblock dcopyNblock
  congr 4
  push_cast
  omega

theorem partNpb_eq : partNpb (n + 1) blockSize = n / blockCount n blockSize := by
  have hle := blockCount_le hb hn
  unfold partNpb
  rw [partNblock_eq hn hmax hb hsize, sizeT_natCast (by omega),
    show (((n + 1 : ℕ) : ℤ) - 1) = (n : ℤ) by omega, sizeT_natCast (by omega)]

/-- `partition_parallel` starts its blocks at the same tiles. -/
theorem partSrcIndex_eq {b : ℕ} (hlt : b < blockCount n blockSize) :
    partSrcIndex (n + 1) blockSize b = tileStart n (blockCount n blockSize) b := by
  have hle : tileStart n (blockCount n blockSize) b ≤ n := tileStart_le (by omega)
  unfold partSrcIndex
  rw [partNpb_eq hn hmax hb hsize]
  unfold tileStart at *
  rw [← Int.natCast_mul, sizeT_natCast (by omega)]

theorem partBnele_eq {b : ℕ} (hlt : b < blockCount n blockSize) :
    partBnele (n + 1) blockSize b = tileLen n (blockCount n blockSize) b := by
  have hle : tileStart n (blockCount n blockSize) b ≤ n := tileStart_le (by omega)
  unfold partBnele tileLen
  rw [partNblock_eq hn hmax hb hsize, partNpb_eq hn hmax hb hsize]
  by_cases h : b + 1 < blockCount n blockSize
  · rw [if_pos (by omega), if_pos h]
  · rw [if_neg (by omega), if_neg h]
    unfold tileStart at *
    rw [← Int.natCast_mul, show (((n + 1 : ℕ) : ℤ) - 1 - ((b * (n / blockCount n blockSize) : ℕ) : ℤ)) =
      ((n - b * (n / blockCount n blockSize) : ℕ) : ℤ) by omega, sizeT_natCast (by omega)]

end NoWrap

end ComputerScience.Pqsort
