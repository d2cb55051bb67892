/-
  ComputerScience.Pqsort.Partition
  ────────────────────────────────
  **SERIAL PARTITION AND SERIAL QUICKSORT** (`26-parallelism/pqsort/pqsort.c`).

  `partition_sweep` is the two-pointer loop, `partition_serial` puts the pivot aside,
  sweeps and puts it between the two parts, `qsort_serial` recurses on the parts.
  `data_t` is any linear order: the code only compares.

  The pointer `right` is kept as `hi = right + 1`, the first address behind the part still
  to be swept: on an empty array `right` is `base - 1`.
-/
import ComputerScience.Lib.Rearrange

namespace ComputerScience.Pqsort

open ComputerScience.Lib
open ComputerScience.Lib.Cells

variable {α : Type*} [LinearOrder α]

/-! ## §1. The sweep. -/

/-- `while (left <= right && LTE(*left, pval)) left++`, with `n` cells from `left` on. -/
def skipLeft (m : Cells α) (pval : α) : ℕ → ℕ → ℕ
  | 0, left => left
  | n + 1, left => if m left ≤ pval then skipLeft m pval n (left + 1) else left

/-- `while (left <= right && LTE(pval, *right)) right--`, with `n` cells below `hi`. -/
def skipRight (m : Cells α) (pval : α) : ℕ → ℕ → ℕ
  | 0, hi => hi
  | n + 1, hi => if pval ≤ m (hi - 1) then skipRight m pval n (hi - 1) else hi

theorem skipLeft_spec (m : Cells α) (pval : α) (n left : ℕ) :
    (left ≤ skipLeft m pval n left ∧ skipLeft m pval n left ≤ left + n) ∧
    (∀ i, left ≤ i → i < skipLeft m pval n left → m i ≤ pval) ∧
    (skipLeft m pval n left < left + n → pval < m (skipLeft m pval n left)) := by
  induction n generalizing left with
  | zero =>
      unfold skipLeft
      exact ⟨by omega, fun i _ _ => by omega, by omega⟩
  | succ n ih =>
      unfold skipLeft
      by_cases h : m left ≤ pval
      · rw [if_pos h]
        obtain ⟨hrange, hle, hstop⟩ := ih (left + 1)
        refine ⟨by omega, ?_, fun hlt => hstop (by omega)⟩
        intro i hi hlt
        by_cases heq : i = left
        · rw [heq]
          exact h
        · exact hle i (by omega) hlt
      · rw [if_neg h]
        exact ⟨by omega, fun i _ _ => by omega, fun _ => not_le.mp h⟩

theorem skipRight_spec (m : Cells α) (pval : α) (n hi : ℕ) (hn : n ≤ hi) :
    (hi - n ≤ skipRight m pval n hi ∧ skipRight m pval n hi ≤ hi) ∧
    (∀ i, skipRight m pval n hi ≤ i → i < hi → pval ≤ m i) ∧
    (hi - n < skipRight m pval n hi → m (skipRight m pval n hi - 1) < pval) := by
  induction n generalizing hi with
  | zero =>
      unfold skipRight
      exact ⟨by omega, fun i _ _ => by omega, by omega⟩
  | succ n ih =>
      unfold skipRight
      by_cases h : pval ≤ m (hi - 1)
      · rw [if_pos h]
        obtain ⟨hrange, hge, hstop⟩ := ih (hi - 1) (by omega)
        refine ⟨by omega, ?_, fun hlt => hstop (by omega)⟩
        intro i hlt hi'
        by_cases heq : i = hi - 1
        · rw [heq]
          exact h
        · exact hge i hlt (by omega)
      · rw [if_neg h]
        exact ⟨by omega, fun i _ _ => by omega, fun _ => not_le.mp h⟩

/-- The left loop reads the cells from `left` on only. -/
theorem skipLeft_congr {m m' : Cells α} {pval : α} {n left : ℕ}
    (h : ∀ i, left ≤ i → i < left + n → m' i = m i) :
    skipLeft m' pval n left = skipLeft m pval n left := by
  induction n generalizing left with
  | zero => rfl
  | succ n ih =>
      unfold skipLeft
      rw [h left (by omega) (by omega), ih (fun i hlo hhi => h i (by omega) (by omega))]

/-- The right loop reads the cells below `hi` only. -/
theorem skipRight_congr {m m' : Cells α} {pval : α} {n hi : ℕ} (hn : n ≤ hi)
    (h : ∀ i, hi - n ≤ i → i < hi → m' i = m i) :
    skipRight m' pval n hi = skipRight m pval n hi := by
  induction n generalizing hi with
  | zero => rfl
  | succ n ih =>
      unfold skipRight
      rw [h (hi - 1) (by omega) (by omega),
        ih (by omega) (fun i hlo hhi => h i (by omega) (by omega))]

/-- The outer loop of `partition_sweep`, from `left` up to `hi`. -/
def sweepLoop (pval : α) (m : Cells α) (left hi : ℕ) : Cells α × ℕ :=
  let left' := skipLeft m pval (hi - left) left
  let hi' := skipRight m pval (hi - left') hi
  if left' + 1 < hi' then sweepLoop pval (m.swap left' (hi' - 1)) (left' + 1) (hi' - 1)
  else (m, left')
termination_by hi - left
decreasing_by
  have hleft : left ≤ left' ∧ left' ≤ left + (hi - left) :=
    (skipLeft_spec m pval (hi - left) left).1
  have hright : hi - (hi - left') ≤ hi' ∧ hi' ≤ hi :=
    (skipRight_spec m pval (hi - left') hi (by omega)).1
  have hlt : left' + 1 < hi' := by assumption
  show hi' - 1 - (left' + 1) < hi - left
  clear_value hi' left'
  omega

/-- One round of the loop, by the two places where the inner loops stop. -/
theorem sweepLoop_eq {pval : α} {m : Cells α} {left hi l r : ℕ}
    (hl : skipLeft m pval (hi - left) left = l) (hr : skipRight m pval (hi - l) hi = r) :
    sweepLoop pval m left hi =
      if l + 1 < r then sweepLoop pval (m.swap l (r - 1)) (l + 1) (r - 1) else (m, l) := by
  subst hl hr
  rw [sweepLoop]

/-- `partition_sweep(base, nele, pval)`: the array and the size of the left part. -/
def partitionSweep (m : Cells α) (base nele : ℕ) (pval : α) : Cells α × ℕ :=
  ((sweepLoop pval m base (base + nele)).1, (sweepLoop pval m base (base + nele)).2 - base)

/-- The array `m'` is `m` swept from `lo` to `hi`, with the border at `k`. -/
structure Swept (m m' : Cells α) (lo hi k : ℕ) (pval : α) : Prop where
  rearranged : Rearranged m m' lo (hi - lo)
  border : lo ≤ k ∧ k ≤ hi
  left : ∀ i, lo ≤ i → i < k → m' i ≤ pval
  right : ∀ i, k ≤ i → i < hi → pval ≤ m' i

/-- **The two-pointer loop sweeps its range.** -/
theorem sweepLoop_spec (pval : α) (m : Cells α) (left hi : ℕ) (h : left ≤ hi) :
    Swept m (sweepLoop pval m left hi).1 left hi (sweepLoop pval m left hi).2 pval := by
  induction hd : hi - left using Nat.strong_induction_on generalizing m left hi with
  | _ d ih =>
      obtain ⟨hl, hlle, hlstop⟩ := skipLeft_spec m pval (hi - left) left
      obtain ⟨hr, hrge, hrstop⟩ :=
        skipRight_spec m pval (hi - skipLeft m pval (hi - left) left) hi (by omega)
      -- from here on the two stopping places are just numbers
      generalize hl' : skipLeft m pval (hi - left) left = l at *
      generalize hr' : skipRight m pval (hi - l) hi = r at *
      rw [sweepLoop_eq hl' hr']
      by_cases hlr : l + 1 < r
      · simp only [if_pos hlr]
        obtain ⟨hrearr, hborder, hleft, hright⟩ :=
          ih (r - 1 - (l + 1)) (by omega) (m.swap l (r - 1)) (l + 1) (r - 1) (by omega) rfl
        generalize sweepLoop pval (m.swap l (r - 1)) (l + 1) (r - 1) = res at *
        have hkept : ∀ i, i < l + 1 ∨ r - 1 ≤ i → res.1 i = m.swap l (r - 1) i :=
          fun i hi' => hrearr.frame i (by omega)
        constructor
        · have hswap : Rearranged m (m.swap l (r - 1)) left (hi - left) :=
            Rearranged.swap m (by omega) (by omega)
          exact hswap.trans (hrearr.widen (by omega) (by omega))
        · omega
        · intro i hlo hk
          by_cases hil : i < l + 1
          · rw [hkept i (Or.inl hil)]
            by_cases heq : i = l
            · rw [heq, swap_left]
              exact le_of_lt (hrstop (by omega))
            · rw [swap_of_ne m heq (by omega)]
              exact hlle i hlo (by omega)
          · exact hleft i (by omega) hk
        · intro i hk hhi
          by_cases hir : r - 1 ≤ i
          · rw [hkept i (Or.inr hir)]
            by_cases heq : i = r - 1
            · rw [heq, swap_right]
              exact le_of_lt (hlstop (by omega))
            · rw [swap_of_ne m (by omega) heq]
              exact hrge i (by omega) hhi
          · exact hright i hk (by omega)
      · simp only [if_neg hlr]
        constructor
        · exact Rearranged.refl m left (hi - left)
        · omega
        · intro i hlo hk
          exact hlle i hlo hk
        · intro i hk hhi
          by_cases heq : i = l
          · rw [heq]
            exact le_of_lt (hlstop (by omega))
          · exact hrge i (by omega) hhi

theorem partitionSweep_spec (m : Cells α) (base nele : ℕ) (pval : α) :
    Swept m (partitionSweep m base nele pval).1 base (base + nele)
      (base + (partitionSweep m base nele pval).2) pval := by
  have h := sweepLoop_spec pval m base (base + nele) (by omega)
  unfold partitionSweep
  rw [show base + ((sweepLoop pval m base (base + nele)).2 - base) =
    (sweepLoop pval m base (base + nele)).2 by have := h.border; omega]
  exact h

/-- The border depends on the swept cells only. -/
theorem sweepLoop_congr {pval : α} {m m' : Cells α} {left hi : ℕ} (hle : left ≤ hi)
    (h : ∀ i, left ≤ i → i < hi → m' i = m i) :
    (sweepLoop pval m' left hi).2 = (sweepLoop pval m left hi).2 := by
  induction hd : hi - left using Nat.strong_induction_on generalizing m m' left hi with
  | _ d ih =>
      have hl := (skipLeft_spec m pval (hi - left) left).1
      have hlsame : skipLeft m' pval (hi - left) left = skipLeft m pval (hi - left) left :=
        skipLeft_congr (fun i hlo hhi => h i hlo (by omega))
      generalize hl' : skipLeft m pval (hi - left) left = l at *
      have hr := (skipRight_spec m pval (hi - l) hi (by omega)).1
      have hrsame : skipRight m' pval (hi - l) hi = skipRight m pval (hi - l) hi :=
        skipRight_congr (by omega) (fun i hlo hhi => h i (by omega) hhi)
      generalize hr' : skipRight m pval (hi - l) hi = r at *
      rw [sweepLoop_eq hlsame hrsame, sweepLoop_eq hl' hr']
      by_cases hlr : l + 1 < r
      · rw [if_pos hlr, if_pos hlr]
        apply ih (r - 1 - (l + 1)) (by omega) (by omega) _ rfl
        -- the two cells just exchanged are behind the pointers
        intro i hlo hhi
        rw [swap_of_ne m' (by omega) (by omega), swap_of_ne m (by omega) (by omega)]
        exact h i (by omega) (by omega)
      · rw [if_neg hlr, if_neg hlr]

/-- The size of the left part depends on the block only. -/
theorem partitionSweep_congr {pval : α} {m m' : Cells α} {base nele : ℕ}
    (h : ∀ i, base ≤ i → i < base + nele → m' i = m i) :
    (partitionSweep m' base nele pval).2 = (partitionSweep m base nele pval).2 := by
  unfold partitionSweep
  show (sweepLoop pval m' base (base + nele)).2 - base = _
  rw [sweepLoop_congr (by omega) h]

/-! ## §2. Serial partition. -/

/-- `pivot(base, nele)` -/
def pivot (base nele : ℕ) : ℕ := base + nele / 2

/-- `partition_serial(base, nele)` -/
def partitionSerial (m : Cells α) (base nele : ℕ) : Cells α × ℕ :=
  let p := pivot base nele
  let pval := m p
  let m := m.swap p (base + nele - 1)
  let swept := partitionSweep m base (nele - 1) pval
  (swept.1.swap (base + swept.2) (base + nele - 1), swept.2)

/-- Putting the pivot between the two parts. -/
theorem split_of_swap {m : Cells α} {base nele k : ℕ} {pval : α} (hk : k < nele)
    (hpivot : m (base + nele - 1) = pval)
    (hleft : ∀ i, base ≤ i → i < base + k → m i ≤ pval)
    (hright : ∀ i, base + k ≤ i → i < base + nele - 1 → pval ≤ m i) :
    Split (m.swap (base + k) (base + nele - 1)) base nele k pval := by
  constructor
  · exact hk
  · rw [swap_left, hpivot]
  · intro i hlo hhi
    rw [swap_of_ne m (by omega) (by omega)]
    exact hleft i hlo hhi
  · intro i hlo hhi
    by_cases heq : i = base + nele - 1
    · rw [heq, swap_right]
      exact hright (base + k) (by omega) (by omega)
    · rw [swap_of_ne m (by omega) heq]
      exact hright i (by omega) (by omega)

/-- **`partition_serial` partitions its range.** -/
theorem partitionSerial_spec (m : Cells α) (base nele : ℕ) (h : 0 < nele) :
    Rearranged m (partitionSerial m base nele).1 base nele ∧
      Split (partitionSerial m base nele).1 base nele (partitionSerial m base nele).2
        (m (pivot base nele)) := by
  simp only [partitionSerial]
  have hp : base ≤ pivot base nele ∧ pivot base nele < base + nele := by
    unfold pivot
    omega
  generalize hm1 : m.swap (pivot base nele) (base + nele - 1) = m₁
  have h1 : Rearranged m m₁ base nele := by
    rw [← hm1]
    exact Rearranged.swap m hp (by omega)
  have hlast : m₁ (base + nele - 1) = m (pivot base nele) := by
    rw [← hm1, swap_right]
  have hswept := partitionSweep_spec m₁ base (nele - 1) (m (pivot base nele))
  generalize partitionSweep m₁ base (nele - 1) (m (pivot base nele)) = r at *
  obtain ⟨hrearr, hborder, hleft, hright⟩ := hswept
  constructor
  · have h2 : Rearranged m₁ r.1 base nele := hrearr.widen (by omega) (by omega)
    exact (h1.trans h2).trans (Rearranged.swap r.1 (by omega) (by omega))
  · apply split_of_swap (by omega)
    · rw [hrearr.frame _ (by omega), hlast]
    · exact hleft
    · intro i hlo hhi
      exact hright i hlo (by omega)

/-! ## §3. Serial quicksort. -/

/-- `qsort_serial(base, nele, scratch_base)`; the scratch array is only passed on. -/
def qsortSerial (m : Cells α) (base nele : ℕ) : Cells α :=
  if h1 : nele ≤ 1 then m
  else if nele = 2 then
    if m base > m (base + 1) then m.swap base (base + 1) else m
  else
    have hlt : (partitionSerial m base nele).2 < nele :=
      (partitionSerial_spec m base nele (by omega)).2.lt
    let part := partitionSerial m base nele
    let m' := if part.2 > 1 then qsortSerial part.1 base part.2 else part.1
    if nele - 1 > part.2 + 1 then qsortSerial m' (base + part.2 + 1) (nele - part.2 - 1) else m'
termination_by nele

theorem qsortSerial_of_le_one (m : Cells α) (base : ℕ) {nele : ℕ} (h : nele ≤ 1) :
    qsortSerial m base nele = m := by
  rw [qsortSerial, dif_pos h]

theorem qsortSerial_two (m : Cells α) (base : ℕ) :
    qsortSerial m base 2 =
      if m base > m (base + 1) then m.swap base (base + 1) else m := by
  rw [qsortSerial, dif_neg (by omega), if_pos rfl]

/-- The recursive case, by the result of the partition. -/
theorem qsortSerial_eq {m m₁ : Cells α} {base nele k : ℕ} (h : 2 < nele)
    (hpart : partitionSerial m base nele = (m₁, k)) :
    qsortSerial m base nele =
      let m₂ := if k > 1 then qsortSerial m₁ base k else m₁
      if nele - 1 > k + 1 then qsortSerial m₂ (base + k + 1) (nele - k - 1) else m₂ := by
  rw [qsortSerial, dif_neg (by omega), if_neg (by omega)]
  simp only [hpart]

/-- Two cells in order are sorted. -/
theorem sortedOn_two {m : Cells α} {base : ℕ} (h : m base ≤ m (base + 1)) :
    SortedOn m base 2 := by
  intro i j hi hij hj
  by_cases heq : i = j
  · rw [heq]
  · rw [show i = base by omega, show j = base + 1 by omega]
    exact h

/-- **`qsort_serial` reaches every goal** of its range, and leaves the rest. -/
theorem qsortSerial_spec (m t : Cells α) (base nele : ℕ) (ht : SortedOn t base nele)
    (hperm : (m.load base nele).Perm (t.load base nele)) :
    Reached m (qsortSerial m base nele) t base nele := by
  induction nele using Nat.strong_induction_on generalizing m base with
  | _ nele ih =>
      by_cases h1 : nele ≤ 1
      · rw [qsortSerial_of_le_one m base h1]
        exact ⟨eq_of_le_one h1 hperm, fun i _ => rfl⟩
      by_cases h2 : nele = 2
      · subst h2
        rw [qsortSerial_two]
        by_cases hgt : m base > m (base + 1)
        · rw [if_pos hgt]
          have hsorted : SortedOn (m.swap base (base + 1)) base 2 := by
            apply sortedOn_two
            rw [swap_left, swap_right]
            exact le_of_lt hgt
          exact (Rearranged.swap m (by omega) (by omega)).reached hsorted ht hperm
        · rw [if_neg hgt]
          exact (Rearranged.refl m base 2).reached (sortedOn_two (not_lt.mp hgt)) ht hperm
      · -- the partition splits the goal; each part is sorted or too short to be unsorted
        obtain ⟨hrearr, hsplit⟩ := partitionSerial_spec m base nele (by omega)
        generalize hpart : partitionSerial m base nele = part at *
        obtain ⟨m₁, k⟩ := part
        dsimp only at hrearr hsplit
        have hk : k < nele := hsplit.lt
        obtain ⟨hleft, hpivot, hright⟩ := hsplit.goal ht (hrearr.perm.trans hperm)
        rw [qsortSerial_eq (by omega) hpart]
        have hpartDone : ∀ (m' : Cells α) (b n : ℕ), n < nele → SortedOn t b n →
            (m'.load b n).Perm (t.load b n) → ∀ (c : Prop) [Decidable c], (¬ c → n ≤ 1) →
            Reached m' (if c then qsortSerial m' b n else m') t b n := by
          intro m' b n hn htn hpn c _ hc
          by_cases h : c
          · rw [if_pos h]
            exact ih n hn m' b htn hpn
          · rw [if_neg h]
            exact ⟨eq_of_le_one (hc h) hpn, fun i _ => rfl⟩
        have h2 := hpartDone m₁ base k hk (ht.mono (by omega) (by omega)) hleft (k > 1) (by omega)
        dsimp only at h2 ⊢
        generalize (if k > 1 then qsortSerial m₁ base k else m₁) = m₂ at *
        have hright' : (m₂.load (base + k + 1) (nele - k - 1)).Perm
            (t.load (base + k + 1) (nele - k - 1)) := by
          rw [load_congr (fun i hlo _ => h2.2 i (Or.inr (by omega)))]
          exact hright
        have h3 := hpartDone m₂ (base + k + 1) (nele - k - 1) (by omega)
          (ht.mono (by omega) (by omega)) hright' (nele - 1 > k + 1) (by omega)
        generalize (if nele - 1 > k + 1 then
          qsortSerial m₂ (base + k + 1) (nele - k - 1) else m₂) = m₃ at *
        constructor
        · intro i hlo hhi
          by_cases hi : base + k + 1 ≤ i
          · exact h3.1 i hi (by omega)
          · rw [h3.2 i (by omega)]
            by_cases hik : i = base + k
            · rw [h2.2 i (by omega), hik]
              exact hpivot
            · exact h2.1 i hlo (by omega)
        · intro i hi
          rw [h3.2 i (by omega), h2.2 i (by omega), hrearr.frame i hi]

/-! ## §4. The library's quicksort. -/

/-- `dcomp`, on the values behind its pointers. -/
def dcomp (x1 x2 : α) : ℤ :=
  if ¬ x2 ≤ x1 then -1 else if x1 = x2 then 0 else 1

theorem dcomp_nonpos_iff (x1 x2 : α) : dcomp x1 x2 ≤ 0 ↔ x1 ≤ x2 := by
  unfold dcomp
  by_cases h : x2 ≤ x1
  · rw [if_neg (not_not.mpr h)]
    by_cases heq : x1 = x2
    · rw [if_pos heq, heq]
      exact ⟨fun _ => le_refl x2, fun _ => le_refl 0⟩
    · rw [if_neg heq]
      exact ⟨fun hc => absurd hc (by omega), fun hle => absurd (le_antisymm hle h) heq⟩
  · rw [if_pos h]
    exact ⟨fun _ => le_of_lt (not_le.mp h), fun _ => by omega⟩

/-- What `qsort(base, nele, sizeof(data_t), compar)` of libc promises: the range is
rearranged and in the order of `compar`. -/
def QsortSorts (qsort : (α → α → ℤ) → Cells α → ℕ → ℕ → Cells α) : Prop :=
  ∀ (m : Cells α) (base nele : ℕ), Rearranged m (qsort dcomp m base nele) base nele ∧
    ∀ i j, base ≤ i → i ≤ j → j < base + nele →
      dcomp (qsort dcomp m base nele i) (qsort dcomp m base nele j) ≤ 0

/-- A `qsort` that meets the promise: insertion sort by `compar`. -/
def insertionQsort (compar : α → α → ℤ) (m : Cells α) (base nele : ℕ) : Cells α :=
  m.store base ((m.load base nele).insertionSort fun x y => compar x y ≤ 0)

theorem insertionQsort_sorts : QsortSorts (@insertionQsort α) := by
  intro m base nele
  have hrel : (fun x y : α => dcomp x y ≤ 0) = (· ≤ ·) := by
    funext x y
    exact propext (dcomp_nonpos_iff x y)
  have hlen : ((m.load base nele).insertionSort fun x y => dcomp x y ≤ 0).length = nele := by
    rw [(List.perm_insertionSort _ _).length_eq, length_load]
  have hload : (insertionQsort dcomp m base nele).load base nele =
      (m.load base nele).insertionSort fun x y => dcomp x y ≤ 0 := by
    have := load_store_self m base ((m.load base nele).insertionSort fun x y => dcomp x y ≤ 0)
    rwa [hlen] at this
  have hsorted : SortedOn (insertionQsort dcomp m base nele) base nele := by
    apply sortedOn_of_pairwise
    rw [hload]
    have : Std.Total fun x y : α => dcomp x y ≤ 0 := hrel ▸ inferInstance
    have : IsTrans α fun x y : α => dcomp x y ≤ 0 := hrel ▸ inferInstance
    have hpair := List.pairwise_insertionSort (fun x y => dcomp x y ≤ 0) (m.load base nele)
    exact hpair.imp (fun hxy => (dcomp_nonpos_iff _ _).mp hxy)
  refine ⟨⟨?_, ?_⟩, ?_⟩
  · rw [hload]
    exact List.perm_insertionSort _ _
  · intro i hi
    exact store_apply_of_not_mem m (by rw [hlen]; exact hi)
  · intro i j hi hij hj
    exact (dcomp_nonpos_iff _ _).mpr (hsorted i j hi hij hj)

/-- `qsort_lib(base, nele, scratch_base)` -/
def qsortLib (qsort : (α → α → ℤ) → Cells α → ℕ → ℕ → Cells α) (m : Cells α)
    (base nele : ℕ) : Cells α :=
  qsort dcomp m base nele

/-- **`qsort_lib` reaches every goal** of its range. -/
theorem qsortLib_spec {qsort : (α → α → ℤ) → Cells α → ℕ → ℕ → Cells α}
    (hq : QsortSorts qsort) (m t : Cells α) (base nele : ℕ) (ht : SortedOn t base nele)
    (hperm : (m.load base nele).Perm (t.load base nele)) :
    Reached m (qsortLib qsort m base nele) t base nele := by
  obtain ⟨hrearr, hsorted⟩ := hq m base nele
  apply hrearr.reached _ ht hperm
  intro i j hi hij hj
  exact (dcomp_nonpos_iff _ _).mp (hsorted i j hi hij hj)

end ComputerScience.Pqsort
