/-
  ComputerScience.Pqsort.SweepAccess
  ──────────────────────────────────
  **THE SWEEP, POINTER BY POINTER** (`partition_sweep` in `26-parallelism/pqsort/pqsort.c`).

  `Pqsort.Partition` has the two-pointer loop as a function on the rest of the array.  Here
  it is as the code has it: `left` and `right` are addresses, `right` may be the address
  before the array, every access goes through a check as `CHK` makes one when it is switched
  on, and the three loops are loops.  The check is on the array of the call, positions `0` to
  `nele - 1`; an access outside of it has no result.

  Main results:
    • `scanLeft_run`, `scanRight_run` — the inner loops end where `skipLeft` and `skipRight` do,
    • `partitionSweepChk_eq` — the code does what `partitionSweep` says,
    • `partitionSweepChk_partitions` — so it ends, stays inside of the array and partitions it.
-/
import ComputerScience.Lib.While
import ComputerScience.Pqsort.Partition

namespace ComputerScience.Pqsort

open ComputerScience.Lib
open ComputerScience.Lib.Cells

variable {α : Type*}

/-! ## §1. The code. -/

/-- The array of a call: `nele` cells from the address `base` on. -/
structure Window where
  base : ℕ
  nele : ℕ

/-- The address `p` is that of an element. -/
def Window.Holds (w : Window) (p : ℤ) : Prop := w.base ≤ p ∧ p < w.base + w.nele

instance (w : Window) (p : ℤ) : Decidable (w.Holds p) := inferInstanceAs (Decidable (_ ∧ _))

/-- `*CHK(p)` -/
def Window.read (w : Window) (m : Cells α) (p : ℤ) : Option α :=
  if w.Holds p then some (m p.toNat) else none

/-- `*CHK(p) = x` -/
def Window.write (w : Window) (m : Cells α) (p : ℤ) (x : α) : Option (Cells α) :=
  if w.Holds p then some (Function.update m p.toNat x) else none

/-- `swap(p1, p2)` -/
def Window.swap (w : Window) (m : Cells α) (p1 p2 : ℤ) : Option (Cells α) := do
  let x1 ← w.read m p1
  let x2 ← w.read m p2
  let m ← w.write m p1 x2
  w.write m p2 x1

/-- The variables of `partition_sweep`. -/
structure Sweep (α : Type*) where
  m : Cells α
  left : ℤ
  right : ℤ

variable [LinearOrder α]

/-- `while (left <= right && LTE(*CHK(left), pval)) left++;` -/
def scanLeft (w : Window) (pval : α) : ℕ → Sweep α → Option (Sweep α) :=
  loopWhile
    (fun s => if s.left ≤ s.right then (w.read s.m s.left).map (fun x => decide (x ≤ pval))
      else some false)
    (fun s => some { s with left := s.left + 1 })

/-- `while (left <= right && LTE(pval, *CHK(right))) right--;` -/
def scanRight (w : Window) (pval : α) : ℕ → Sweep α → Option (Sweep α) :=
  loopWhile
    (fun s => if s.left ≤ s.right then (w.read s.m s.right).map (fun x => decide (pval ≤ x))
      else some false)
    (fun s => some { s with right := s.right - 1 })

/-- The body of `while (1)`. -/
def sweepBody (w : Window) (pval : α) (fuel : ℕ) (s : Sweep α) : Option (Sweep α × Bool) := do
  let s ← scanLeft w pval fuel s
  let s ← scanRight w pval fuel s
  if s.left < s.right then
    let m ← w.swap s.m s.left s.right
    return ({ m := m, left := s.left + 1, right := s.right - 1 }, true)
  else
    return (s, false)

/-- `partition_sweep(base, nele, pval)`: the array afterwards and the returned `left - base`;
`none` if an access leaves the array or a loop has used up its `fuel`. -/
def partitionSweepChk (fuel : ℕ) (m : Cells α) (base nele : ℕ) (pval : α) :
    Option (Cells α × ℤ) := do
  let s ← loopBreak (sweepBody ⟨base, nele⟩ pval fuel) fuel ⟨m, base, base + nele - 1⟩
  return (s.m, s.left - base)

/-! ## §2. The inner loops. -/

omit [LinearOrder α] in
theorem Window.read_eq {w : Window} (m : Cells α) {p : ℕ} (hlo : w.base ≤ p)
    (hhi : p < w.base + w.nele) : w.read m p = some (m p) := by
  unfold Window.read
  rw [if_pos ⟨by omega, by omega⟩, Int.toNat_natCast]

omit [LinearOrder α] in
theorem Window.swap_eq {w : Window} (m : Cells α) {p1 p2 : ℕ} (hlo : w.base ≤ p1)
    (hlt : p1 < p2) (hhi : p2 < w.base + w.nele) :
    w.swap m p1 p2 = some (m.swap p1 p2) := by
  have hwrite : ∀ (m : Cells α) (p : ℕ) (x : α), w.base ≤ p → p < w.base + w.nele →
      w.write m p x = some (Function.update m p x) := by
    intro m p x hlo hhi
    unfold Window.write
    rw [if_pos ⟨by omega, by omega⟩, Int.toNat_natCast]
  unfold Window.swap
  rw [Window.read_eq m hlo (by omega), Window.read_eq m (by omega) hhi]
  simp only [Option.bind_eq_bind, Option.bind_some]
  rw [hwrite m p1 _ hlo (by omega), Option.bind_some, hwrite _ p2 _ (by omega) hhi]
  rfl

/-- The pointers enclose the cells from `l` up to `hi`, a part of the array `m`. -/
structure Sweep.At (s : Sweep α) (w : Window) (m : Cells α) (l hi : ℕ) : Prop where
  cells : s.m = m
  left : s.left = l
  right : s.right = hi - 1
  inside : w.base ≤ l ∧ l ≤ hi ∧ hi ≤ w.base + w.nele

/-- The measure of all three loops: the cells still between the pointers. -/
def Sweep.between (s : Sweep α) : ℕ := (s.right + 1 - s.left).toNat

omit [LinearOrder α] in
theorem Sweep.At.between_eq {s : Sweep α} {w : Window} {m : Cells α} {l hi : ℕ}
    (h : s.At w m l hi) : s.between = hi - l := by
  unfold Sweep.between
  rw [h.left, h.right]
  omega

/-- **The left loop** ends where `skipLeft` does. -/
theorem scanLeft_run {w : Window} (pval : α) {fuel : ℕ} {s : Sweep α} {m : Cells α} {l hi : ℕ}
    (h : s.At w m l hi) (hfuel : hi - l < fuel) :
    ∃ s', scanLeft w pval fuel s = some s' ∧ s'.At w m (skipLeft m pval (hi - l) l) hi := by
  refine loopWhile_rule
    (I := fun t => ∃ k, t.At w m k hi ∧ skipLeft m pval (hi - k) k = skipLeft m pval (hi - l) l)
    Sweep.between ?_ ⟨l, h, rfl⟩ (by rw [h.between_eq]; exact hfuel)
  rintro t ⟨k, ht, hk⟩
  obtain ⟨hlo, hle, hhi⟩ := ht.inside
  by_cases hlt : k < hi
  · have hread : w.read t.m t.left = some (m k) := by
      rw [ht.cells, ht.left]
      exact Window.read_eq m hlo (by omega)
    rw [if_pos (show t.left ≤ t.right by rw [ht.left, ht.right]; omega), hread, Option.map_some]
    rw [show hi - k = hi - (k + 1) + 1 by omega, skipLeft] at hk
    by_cases hx : m k ≤ pval
    · refine Or.inl ⟨by simp [hx], _, rfl, ?_⟩
      have hnext : Sweep.At { t with left := t.left + 1 } w m (k + 1) hi :=
        ⟨ht.cells, by simp [ht.left], ht.right, by omega⟩
      refine ⟨⟨k + 1, hnext, by rwa [if_pos hx] at hk⟩, ?_⟩
      rw [hnext.between_eq, ht.between_eq]
      omega
    · refine Or.inr ⟨by simp [hx], ?_⟩
      rw [if_neg hx] at hk
      rwa [← hk]
  · rw [if_neg (show ¬ t.left ≤ t.right by rw [ht.left, ht.right]; omega)]
    refine Or.inr ⟨rfl, ?_⟩
    rw [show hi - k = 0 by omega, skipLeft] at hk
    rwa [← hk]

/-- **The right loop** ends where `skipRight` does. -/
theorem scanRight_run {w : Window} (pval : α) {fuel : ℕ} {s : Sweep α} {m : Cells α} {l hi : ℕ}
    (h : s.At w m l hi) (hfuel : hi - l < fuel) :
    ∃ s', scanRight w pval fuel s = some s' ∧ s'.At w m l (skipRight m pval (hi - l) hi) := by
  refine loopWhile_rule
    (I := fun t => ∃ k, t.At w m l k ∧
      skipRight m pval (k - l) k = skipRight m pval (hi - l) hi)
    Sweep.between ?_ ⟨hi, h, rfl⟩ (by rw [h.between_eq]; exact hfuel)
  rintro t ⟨k, ht, hk⟩
  obtain ⟨hlo, hle, hhi⟩ := ht.inside
  by_cases hlt : l < k
  · have hright : t.right = (k - 1 : ℕ) := by
      rw [ht.right]
      omega
    have hread : w.read t.m t.right = some (m (k - 1)) := by
      rw [ht.cells, hright]
      exact Window.read_eq m (by omega) (by omega)
    rw [if_pos (show t.left ≤ t.right by rw [ht.left, ht.right]; omega), hread, Option.map_some]
    rw [show k - l = k - 1 - l + 1 by omega, skipRight] at hk
    by_cases hx : pval ≤ m (k - 1)
    · refine Or.inl ⟨by simp [hx], _, rfl, ?_⟩
      have hnext : Sweep.At { t with right := t.right - 1 } w m l (k - 1) :=
        ⟨ht.cells, ht.left, by simp [hright], by omega⟩
      refine ⟨⟨k - 1, hnext, by rwa [if_pos hx] at hk⟩, ?_⟩
      rw [hnext.between_eq, ht.between_eq]
      omega
    · refine Or.inr ⟨by simp [hx], ?_⟩
      rw [if_neg hx] at hk
      rwa [← hk]
  · rw [if_neg (show ¬ t.left ≤ t.right by rw [ht.left, ht.right]; omega)]
    refine Or.inr ⟨rfl, ?_⟩
    rw [show k - l = 0 by omega, skipRight] at hk
    rwa [← hk]

/-! ## §3. The outer loop. -/

/-- **One turn of the outer loop**: with `l` and `r` where the inner loops stop, it swaps
and goes on, or breaks with `left` at `l`. -/
theorem sweepBody_run {w : Window} (pval : α) {fuel : ℕ} {s : Sweep α} {m : Cells α}
    {left hi l r : ℕ} (h : s.At w m left hi) (hfuel : hi - left < fuel)
    (hl : skipLeft m pval (hi - left) left = l) (hr : skipRight m pval (hi - l) hi = r) :
    (l + 1 < r ∧ ∃ s', sweepBody w pval fuel s = some (s', true) ∧
      s'.At w (m.swap l (r - 1)) (l + 1) (r - 1)) ∨
    (¬ l + 1 < r ∧ ∃ s', sweepBody w pval fuel s = some (s', false) ∧ s'.At w m l r) := by
  obtain ⟨s1, hs1, hat1⟩ := scanLeft_run pval h hfuel
  rw [hl] at hat1
  have hleft : left ≤ l := by
    rw [← hl]
    exact (skipLeft_spec m pval (hi - left) left).1.1
  obtain ⟨s2, hs2, hat2⟩ := scanRight_run pval hat1 (show hi - l < fuel by omega)
  rw [hr] at hat2
  have hbody : sweepBody w pval fuel s =
      if s2.left < s2.right then
        (w.swap s2.m s2.left s2.right).bind fun m =>
          some ({ m := m, left := s2.left + 1, right := s2.right - 1 }, true)
      else some (s2, false) := by
    unfold sweepBody
    rw [hs1, Option.bind_eq_bind, Option.bind_some, hs2, Option.bind_eq_bind, Option.bind_some]
    rfl
  rw [hbody]
  obtain ⟨hlo, hle, hhi⟩ := hat2.inside
  by_cases hlr : l + 1 < r
  · refine Or.inl ⟨hlr, { m := m.swap l (r - 1), left := s2.left + 1, right := s2.right - 1 },
      ?_, rfl, ?_, ?_, ?_⟩
    · have hright : s2.right = (r - 1 : ℕ) := by
        rw [hat2.right]
        omega
      rw [if_pos (by rw [hat2.left, hat2.right]; omega), hat2.cells, hat2.left, hright,
        Window.swap_eq m hlo (by omega) (by omega), Option.bind_some]
    · simp [hat2.left]
    · show s2.right - 1 = _
      rw [hat2.right]
      omega
    · omega
  · refine Or.inr ⟨hlr, s2, ?_, hat2⟩
    rw [if_neg (by rw [hat2.left, hat2.right]; omega)]

/-- **The code does what `partitionSweep` says.** -/
theorem partitionSweepChk_eq (m : Cells α) (base nele : ℕ) (pval : α) {fuel : ℕ}
    (hfuel : nele < fuel) :
    partitionSweepChk fuel m base nele pval =
      some ((partitionSweep m base nele pval).1, ((partitionSweep m base nele pval).2 : ℤ)) := by
  have hrun : ∃ s', loopBreak (sweepBody ⟨base, nele⟩ pval fuel) fuel
        ⟨m, base, base + nele - 1⟩ = some s' ∧
      s'.m = (sweepLoop pval m base (base + nele)).1 ∧
      s'.left = (sweepLoop pval m base (base + nele)).2 := by
    -- what `sweepLoop` still has to do from the pointers on is what it had to do at first
    refine loopBreak_rule
      (I := fun s => ∃ m' l hi, s.At ⟨base, nele⟩ m' l hi ∧
        sweepLoop pval m' l hi = sweepLoop pval m base (base + nele))
      Sweep.between ?_ ⟨m, base, base + nele, ⟨rfl, rfl, by simp, by simp⟩, rfl⟩ ?_
    · rintro s ⟨m', left, hi, hat, hloop⟩
      have hin : base ≤ left ∧ left ≤ hi ∧ hi ≤ base + nele := hat.inside
      have hfuel' : hi - left < fuel := by omega
      have heq := @sweepLoop_eq _ _ pval m' left hi _ _ rfl rfl
      rcases sweepBody_run pval hat hfuel' rfl rfl with
        ⟨hlr, s', hs', hat'⟩ | ⟨hlr, s', hs', hat'⟩
      · rw [if_pos hlr, hloop] at heq
        refine Or.inl ⟨s', hs', ⟨_, _, _, hat', heq.symm⟩, ?_⟩
        rw [hat'.between_eq, hat.between_eq]
        have := (skipLeft_spec m' pval (hi - left) left).1
        have := (skipRight_spec m' pval
          (hi - skipLeft m' pval (hi - left) left) hi (by omega)).1
        omega
      · rw [if_neg hlr, hloop] at heq
        rw [heq]
        exact Or.inr ⟨s', hs', hat'.cells, hat'.left⟩
    · show ((base : ℤ) + nele - 1 + 1 - base).toNat < fuel
      omega
  obtain ⟨s', hs', hm, hleft⟩ := hrun
  have hborder := (sweepLoop_spec pval m base (base + nele) (by omega)).border
  unfold partitionSweepChk partitionSweep
  rw [hs', Option.bind_eq_bind, Option.bind_some, hm, hleft, Int.ofNat_sub hborder.1]
  rfl

/-- **The sweep ends, stays inside of the array and partitions it.** -/
theorem partitionSweepChk_partitions (m : Cells α) (base nele : ℕ) (pval : α) :
    ∃ (m' : Cells α) (k : ℕ),
      (∀ fuel, nele < fuel → partitionSweepChk fuel m base nele pval = some (m', (k : ℤ))) ∧
      (m'.load base nele).Perm (m.load base nele) ∧
      (∀ p, p < base ∨ base + nele ≤ p → m' p = m p) ∧
      k ≤ nele ∧
      (∀ i < k, m' (base + i) ≤ pval) ∧
      (∀ i, k ≤ i → i < nele → pval ≤ m' (base + i)) := by
  have hspec := partitionSweep_spec m base nele pval
  have hsize : base + nele - base = nele := by omega
  have hrearr := hspec.rearranged
  rw [hsize] at hrearr
  refine ⟨_, _, fun fuel => partitionSweepChk_eq m base nele pval, hrearr.perm, hrearr.frame,
    ?_, ?_, ?_⟩
  · have := hspec.border.2
    omega
  · intro i hi
    exact hspec.left (base + i) (by omega) (by omega)
  · intro i hk hi
    exact hspec.right (base + i) (by omega) (by omega)

/-- On an empty array `right` is before `left` from the start and nothing is read. -/
example : (partitionSweepChk 1 (fun _ => 7) 0 0 5).map (·.2) = some 0 := by decide

end ComputerScience.Pqsort
