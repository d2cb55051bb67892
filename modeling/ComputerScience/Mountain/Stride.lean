/-
  ComputerScience.Mountain.Stride
  ───────────────────────────────
  **THE READ LOOP OF THE MEMORY MOUNTAIN** (`12-cache-memories/mountain/mountain.c`).

  `test` is to "iterate over first elems elements of array data with stride of stride".
  Its loop takes four strided elements a turn and stops before the last block; what is
  left is read by a second loop, whose counter goes up by one and not by the stride.

    • `test_eq` — what is summed: the strided elements and those that the second loop
      finds between them (`between`),
    • `between_empty_iff` — there are none exactly when `stride` is one, `elems` is zero
      or `elems` is one more than a multiple of the block.
-/
import ComputerScience.Lib.Loop
import ComputerScience.Lib.Word
import Mathlib.Data.BitVec

namespace ComputerScience.Mountain

open ComputerScience.Lib
open Finset

/-! ## §1. The function. -/

def MAXBYTES : ℕ := 2 ^ 27

/-- `MAXBYTES/sizeof(long)` -/
def MAXELEMS : ℕ := MAXBYTES / 8

/-- `data[i]`, an access outside the array fails. -/
def read (data : ℕ → BitVec 64) (i : ℕ) : Option (BitVec 64) :=
  if i < MAXELEMS then some (data i) else none

/-- The variables that the loops change; `i` outlives the first loop. -/
structure Acc where
  i : ℕ
  acc0 : BitVec 64
  acc1 : BitVec 64
  acc2 : BitVec 64
  acc3 : BitVec 64

/-- `i = 0` and the four accumulators zero. -/
def Acc.start : Acc := { i := 0, acc0 := 0, acc1 := 0, acc2 := 0, acc3 := 0 }

/-- A turn of "Combine 4 elements at a time". -/
def combine (data : ℕ → BitVec 64) (stride i : ℕ) (s : Acc) : Option Acc := do
  let d0 ← read data i
  let d1 ← read data (i + stride)
  let d2 ← read data (i + stride * 2)
  let d3 ← read data (i + stride * 3)
  some { i := i + stride * 4, acc0 := s.acc0 + d0, acc1 := s.acc1 + d1,
         acc2 := s.acc2 + d2, acc3 := s.acc3 + d3 }

/-- A turn of "Finish any remaining elements". -/
def finish (data : ℕ → BitVec 64) (i : ℕ) (s : Acc) : Option Acc := do
  let d ← read data i
  some { s with i := i + 1, acc0 := s.acc0 + d }

/-- `test(elems, stride)`.  The products are of type `int`, `limit` is a `long` and may be
negative; the `long` sum is converted to the `int` that is returned. -/
def test (data : ℕ → BitVec 64) (elems stride : ℕ) : Option (BitVec 32) :=
  if stride * 4 ≤ INT_MAX then do
    let limit : ℤ := (elems : ℤ) - (stride * 4 : ℕ)
    -- the counter is never negative: below `limit` is below its positive part
    let s ← forLoop 0 limit.toNat (stride * 4) (combine data stride) Acc.start
    let s ← forLoop s.i elems 1 (finish data) s
    some (((s.acc0 + s.acc1) + (s.acc2 + s.acc3)).setWidth 32)
  else none

/-! ## §2. What is to be summed, and what is summed too. -/

/-- The sum of `data[i]` over `i = 0, stride, 2*stride, …` below `elems`. -/
def stridedSum (data : ℕ → BitVec 64) (elems stride : ℕ) : BitVec 64 :=
  ∑ i ∈ (range elems).filter (stride ∣ ·), data i

/-- Where the second loop starts. -/
def finishStart (elems stride : ℕ) : ℕ := stride * 4 * ((elems - 1) / (stride * 4))

/-- The elements that the second loop reads between the strided ones. -/
def between (elems stride : ℕ) : Finset ℕ :=
  (Ico (finishStart elems stride) elems).filter (¬ stride ∣ ·)

/-! ## §3. The loops. -/

variable {data : ℕ → BitVec 64} {elems stride : ℕ}

/-- The value of the expression that `test` returns. -/
def Acc.total (s : Acc) : BitVec 64 := (s.acc0 + s.acc1) + (s.acc2 + s.acc3)

theorem read_eq {i : ℕ} (h : i < MAXELEMS) : read data i = some (data i) := if_pos h

/-- A turn of the first loop: four strided elements. -/
theorem combine_total (data : ℕ → BitVec 64) {i : ℕ} (s : Acc) (h : i + stride * 3 < MAXELEMS) :
    ∃ s', combine data stride i s = some s' ∧ s'.i = i + stride * 4 ∧
      s'.total = s.total + (data i + data (i + stride) + data (i + stride * 2) +
        data (i + stride * 3)) := by
  unfold combine
  rw [read_eq (by omega), read_eq (by omega), read_eq (by omega), read_eq h]
  refine ⟨_, rfl, rfl, ?_⟩
  simp only [Acc.total]
  ring

/-- A turn of the second loop: one element. -/
theorem finish_total (data : ℕ → BitVec 64) {i : ℕ} (s : Acc) (h : i < MAXELEMS) :
    ∃ s', finish data i s = some s' ∧ s'.total = s.total + data i := by
  unfold finish
  rw [read_eq h]
  refine ⟨_, rfl, ?_⟩
  simp only [Acc.total]
  ring

/-- One block of `stride` elements holds one strided one, its first. -/
theorem sum_block_dvd (f : ℕ → BitVec 64) (hs : 0 < stride) (t : ℕ) :
    ∑ i ∈ Ico (stride * t) (stride * t + stride), (if stride ∣ i then f i else 0) =
      f (stride * t) := by
  rw [sum_eq_single_of_mem (stride * t) (by simp [hs]), if_pos (Nat.dvd_mul_right _ _)]
  intro i hi hne
  rw [mem_Ico] at hi
  apply if_neg
  intro ⟨q, hq⟩
  subst hq
  have hlo : t ≤ q := Nat.le_of_mul_le_mul_left hi.1 hs
  have hhi : q < t + 1 := Nat.lt_of_mul_lt_mul_left (a := stride) (by rw [Nat.mul_succ]; exact hi.2)
  exact hne (congrArg (stride * ·) (by omega))

/-- The strided elements of whole blocks, by their number. -/
theorem stridedSum_blocks (data : ℕ → BitVec 64) (hs : 0 < stride) (q : ℕ) :
    stridedSum data (stride * q) stride = ∑ v ∈ range q, data (stride * v) := by
  unfold stridedSum
  rw [sum_filter, range_eq_Ico, ← sum_blocks (fun i => if stride ∣ i then data i else 0) stride q]
  apply sum_congr rfl
  intro t _
  exact sum_block_dvd data hs t

/-- Four more strided elements. -/
theorem stridedSum_four (data : ℕ → BitVec 64) (hs : 0 < stride) (t : ℕ) :
    stridedSum data (stride * 4 * t + stride * 4) stride =
      stridedSum data (stride * 4 * t) stride +
        (data (stride * 4 * t) + data (stride * 4 * t + stride) +
          data (stride * 4 * t + stride * 2) + data (stride * 4 * t + stride * 3)) := by
  have hnext : stride * 4 * t + stride * 4 = stride * (4 * t + 1 + 1 + 1 + 1) := by ring
  have hnow : stride * 4 * t = stride * (4 * t) := by ring
  rw [hnext, hnow, stridedSum_blocks data hs, stridedSum_blocks data hs, sum_range_succ,
    sum_range_succ, sum_range_succ, sum_range_succ]
  have h1 : stride * (4 * t + 1) = stride * (4 * t) + stride := by ring
  have h2 : stride * (4 * t + 1 + 1) = stride * (4 * t) + stride * 2 := by ring
  have h3 : stride * (4 * t + 1 + 1 + 1) = stride * (4 * t) + stride * 3 := by ring
  rw [h1, h2, h3]
  ring

/-- **The first loop**: it ends at `finishStart` with the strided elements below it. -/
theorem combine_loop (data : ℕ → BitVec 64) (hs : 0 < stride) (hmax : elems ≤ MAXELEMS) :
    ∃ s, forLoop 0 ((elems : ℤ) - (stride * 4 : ℕ)).toNat (stride * 4) (combine data stride)
        Acc.start = some s ∧
      s.i = finishStart elems stride ∧
      s.total = stridedSum data (finishStart elems stride) stride := by
  have hstep : 0 < stride * 4 := by omega
  have hlimit : ((elems : ℤ) - (stride * 4 : ℕ)).toNat = elems - stride * 4 := by omega
  -- the number of turns: the bound lies behind the last full block but one
  have hdiv := Nat.div_add_mod (elems - 1) (stride * 4)
  have hmod := Nat.mod_lt (elems - 1) hstep
  rw [hlimit, forLoop_round (m := (elems - 1) / (stride * 4)) hstep _ (by omega) (by omega)]
  show ∃ s, forLoop 0 (0 + stride * 4 * ((elems - 1) / (stride * 4))) (stride * 4)
      (combine data stride) Acc.start = some s ∧
    s.i = stride * 4 * ((elems - 1) / (stride * 4)) ∧
    s.total = stridedSum data (stride * 4 * ((elems - 1) / (stride * 4))) stride
  have hend : stride * 4 * ((elems - 1) / (stride * 4)) =
      0 + stride * 4 * ((elems - 1) / (stride * 4)) := (Nat.zero_add _).symm
  nth_rewrite 2 3 [hend]
  apply forLoop_rule (fun i (s : Acc) => s.i = i ∧ s.total = stridedSum data i stride)
    ((elems - 1) / (stride * 4)) 0 hstep
  · exact ⟨rfl, by simp [Acc.total, Acc.start, stridedSum]⟩
  · intro i s _ hi ⟨t, ht⟩ ⟨_, htot⟩
    rw [Nat.sub_zero] at ht
    subst ht
    have hnext : stride * 4 * t + stride * 4 ≤ stride * 4 * ((elems - 1) / (stride * 4)) := by
      rw [← Nat.mul_succ]
      apply Nat.mul_le_mul_left
      exact Nat.lt_of_mul_lt_mul_left (a := stride * 4) (by omega)
    obtain ⟨s', hs', hi', htot'⟩ := combine_total data s (show stride * 4 * t + stride * 3 < MAXELEMS by omega)
    exact ⟨s', hs', hi', by rw [htot', htot, stridedSum_four data hs]⟩

/-- **The second loop** adds every element it passes. -/
theorem finish_loop (data : ℕ → BitVec 64) {lo : ℕ} (s : Acc) (hle : lo ≤ elems)
    (hmax : elems ≤ MAXELEMS) :
    ∃ s', forLoop lo elems 1 (finish data) s = some s' ∧
      s'.total = s.total + ∑ i ∈ Ico lo elems, data i := by
  apply forLoop_rule_one (fun i (u : Acc) => u.total = s.total + ∑ x ∈ Ico lo i, data x) hle
  · rw [Ico_self, sum_empty, add_zero]
  · intro i u hlo hi hu
    obtain ⟨u', hu', htot⟩ := finish_total data u (show i < MAXELEMS by omega)
    refine ⟨u', hu', ?_⟩
    rw [htot, hu, sum_Ico_succ_top hlo, add_assoc]

theorem finishStart_le (elems stride : ℕ) : finishStart elems stride ≤ elems := by
  have := Nat.mul_div_le (elems - 1) (stride * 4)
  unfold finishStart
  omega

/-- The strided elements of the second loop and those between them. -/
theorem stridedSum_add_between (data : ℕ → BitVec 64) (elems stride : ℕ) :
    stridedSum data (finishStart elems stride) stride +
        ∑ i ∈ Ico (finishStart elems stride) elems, data i =
      stridedSum data elems stride + ∑ i ∈ between elems stride, data i := by
  have hsplit := sum_filter_add_sum_filter_not (Ico (finishStart elems stride) elems)
    (stride ∣ ·) data
  have hrange : ∑ i ∈ (range elems).filter (stride ∣ ·), data i =
      ∑ i ∈ (range (finishStart elems stride)).filter (stride ∣ ·), data i +
        ∑ i ∈ (Ico (finishStart elems stride) elems).filter (stride ∣ ·), data i := by
    rw [sum_filter, sum_filter, sum_filter, range_eq_Ico, range_eq_Ico,
      sum_Ico_consecutive _ (Nat.zero_le _) (finishStart_le elems stride)]
  unfold stridedSum between
  rw [hrange, ← hsplit, add_assoc]

/-- **What `test` sums.** -/
theorem test_eq (data : ℕ → BitVec 64) (hs : 0 < stride) (hint : stride * 4 ≤ INT_MAX)
    (hmax : elems ≤ MAXELEMS) :
    test data elems stride =
      some ((stridedSum data elems stride + ∑ i ∈ between elems stride, data i).setWidth 32) := by
  obtain ⟨s, hloop, hi, htot⟩ := combine_loop data hs hmax
  obtain ⟨s', hloop', htot'⟩ := finish_loop data s (finishStart_le elems stride) hmax
  unfold test
  rw [if_pos hint]
  show (forLoop 0 ((elems : ℤ) - (stride * 4 : ℕ)).toNat (stride * 4) (combine data stride)
      Acc.start).bind (fun s => (forLoop s.i elems 1 (finish data) s).bind
        (fun s => some (s.total.setWidth 32))) = _
  rw [hloop, Option.bind_some, hi, hloop', Option.bind_some, htot', htot, stridedSum_add_between]

/-! ## §4. When nothing lies between. -/

theorem mem_between {i : ℕ} :
    i ∈ between elems stride ↔
      (finishStart elems stride ≤ i ∧ i < elems) ∧ ¬ stride ∣ i := by
  unfold between
  rw [mem_filter, mem_Ico]

theorem stride_dvd_finishStart (elems stride : ℕ) : stride ∣ finishStart elems stride := by
  unfold finishStart
  rw [Nat.mul_assoc]
  exact Nat.dvd_mul_right stride _

/-- The second loop has one element at least, and never more than a block. -/
theorem finishStart_add (stride : ℕ) (he : 0 < elems) :
    finishStart elems stride + ((elems - 1) % (stride * 4) + 1) = elems := by
  have := Nat.div_add_mod (elems - 1) (stride * 4)
  unfold finishStart
  omega

/-- **Nothing lies between the strided elements** of the second loop exactly at these
sizes. -/
theorem between_empty_iff (hs : 0 < stride) :
    between elems stride = ∅ ↔ stride = 1 ∨ elems = 0 ∨ elems % (stride * 4) = 1 := by
  constructor
  · intro hempty
    by_contra hne
    rw [not_or, not_or] at hne
    obtain ⟨hone, hzero, hrem⟩ := hne
    have hadd := finishStart_add stride (show 0 < elems by omega)
    -- two elements at least: the one after the first is not a multiple of the stride
    have hpos : 0 < (elems - 1) % (stride * 4) := by
      rw [Nat.pos_iff_ne_zero]
      intro hmod
      obtain ⟨q, hq⟩ := Nat.dvd_of_mod_eq_zero hmod
      apply hrem
      rw [show elems = 1 + stride * 4 * q by omega, Nat.add_mul_mod_self_left]
      exact Nat.mod_eq_of_lt (by omega)
    have hmem : finishStart elems stride + 1 ∈ between elems stride := by
      rw [mem_between]
      refine ⟨⟨by omega, by omega⟩, ?_⟩
      rw [← Nat.dvd_add_iff_right (stride_dvd_finishStart elems stride), Nat.dvd_one]
      exact hone
    rw [hempty] at hmem
    exact absurd hmem (notMem_empty _)
  · intro hcond
    rw [eq_empty_iff_forall_notMem]
    intro i hi
    rw [mem_between] at hi
    obtain ⟨⟨hlo, hhi⟩, hdvd⟩ := hi
    rcases hcond with rfl | rfl | hrem
    · exact hdvd (Nat.one_dvd i)
    · exact absurd hhi (Nat.not_lt_zero i)
    · have hadd := finishStart_add stride (show 0 < elems by omega)
      have hmod : (elems - 1) % (stride * 4) = 0 :=
        Nat.mod_eq_zero_of_dvd ((Nat.modEq_iff_dvd' (by omega)).mp (by
          show 1 % (stride * 4) = elems % (stride * 4)
          rw [hrem]
          exact Nat.mod_eq_of_lt (by omega)))
      rw [show i = finishStart elems stride by omega] at hdvd
      exact hdvd (stride_dvd_finishStart elems stride)

/-- The result is the strided sum exactly when what lies between adds up to nothing. -/
theorem test_eq_stridedSum_iff (data : ℕ → BitVec 64) (hs : 0 < stride)
    (hint : stride * 4 ≤ INT_MAX) (hmax : elems ≤ MAXELEMS) :
    test data elems stride = some ((stridedSum data elems stride).setWidth 32) ↔
      (∑ i ∈ between elems stride, data i).setWidth 32 = 0 := by
  rw [test_eq data hs hint hmax, Option.some_inj, BitVec.setWidth_add _ _ (by omega)]
  exact add_eq_left

/-- **The sizes at which `test` is the strided loop**: it returns the sum over the strided
elements, whatever the array holds, exactly when its second loop has no element between
two of them; at the other sizes exactly when those elements add up to zero. -/
theorem test_strided_iff (elems stride : ℕ) (hs : 0 < stride) (hint : stride * 4 ≤ INT_MAX)
    (hmax : elems ≤ MAXELEMS) :
    ((∀ data, test data elems stride = some ((stridedSum data elems stride).setWidth 32)) ↔
      stride = 1 ∨ elems = 0 ∨ elems % (stride * 4) = 1) ∧
    ∀ data, test data elems stride = some ((stridedSum data elems stride).setWidth 32) ↔
      (∑ i ∈ between elems stride, data i).setWidth 32 = 0 := by
  refine ⟨?_, fun data => test_eq_stridedSum_iff data hs hint hmax⟩
  rw [← between_empty_iff hs]
  constructor
  · intro hall
    rw [eq_empty_iff_forall_notMem]
    intro i hi
    -- an array that holds a one at `i` alone
    have hone := (test_eq_stridedSum_iff (fun x => if x = i then 1 else 0) hs hint hmax).mp
      (hall _)
    rw [sum_ite_eq' (between elems stride) i (fun _ => (1 : BitVec 64)), if_pos hi] at hone
    exact absurd hone (by decide)
  · intro hempty data
    rw [test_eq_stridedSum_iff data hs hint hmax, hempty, sum_empty]
    rfl

/-- Nine elements with stride two, one more than a block: `0 + 2 + 4 + 6 + 8`. -/
theorem test_strided_iff_nine_two : test (BitVec.ofNat 64) 9 2 = some 20 := by
  have hsum : (stridedSum (BitVec.ofNat 64) 9 2).setWidth 32 = 20 := by decide
  rw [← hsum]
  exact (test_strided_iff 9 2 (by decide) (by decide) (by decide)).1.mpr (Or.inr (Or.inr rfl)) _

/-- The array as `init_data` leaves it, two elements, stride two: `data[1]` is summed. -/
theorem test_two_two :
    test (fun i => BitVec.ofNat 64 i) 2 2 = some 1 ∧
      (stridedSum (fun i => BitVec.ofNat 64 i) 2 2).setWidth 32 = 0 := by
  decide

end ComputerScience.Mountain
