/-
  ComputerScience.Mountain.Sampler
  ────────────────────────────────
  **THE K-BEST SAMPLER** (`12-cache-memories/mountain/fcyc2.c`).

  `values` is to hold the `k` smallest samples in order.  A new sample goes to the next
  free cell, or takes the place of the largest of the `k`, and an insertion sort moves it
  down; or it is not kept at all.  The measurements are elements of any linear order.

  Both arrays are blocks from `calloc`, and an access outside of its block fails.  `values`
  has `k` cells and needs no more; `samples` has `maxsamples+k`, and `add_sample` stores every
  sample there without a test, so that many calls are the limit.  The loop of `fcyc2_full`
  stays below it.

    • `insertCells_sorted` — the insertion loop sorts a range whose last cell is new,
    • `KBest.addCells` — one sample keeps the invariant of the kept cells,
    • `Sampled.addSample`, `Sampled.addSamples` — so does `add_sample`, within the blocks,
    • `addSamples_overrun` — one call more than `maxsamples+k` leaves `samples`,
    • `sampleLoop_stops` — the measuring loop takes at most `maxsamples` samples.
-/
import ComputerScience.Lib.Rearrange
import ComputerScience.Lib.Word
import Mathlib.Order.Bounds.Basic

namespace ComputerScience.Mountain

open ComputerScience.Lib

variable {α : Type*} [LinearOrder α]

/-! ## §1. Blocks of memory. -/

/-- A block from `calloc`. -/
structure Block (α : Type*) where
  size : ℕ
  cells : Cells α

section

variable {β : Type*}

/-- `calloc(n, sizeof(...))` of an `int`.  A negative one is a size that no machine has; the
null pointer has no cells. -/
def calloc (zero : β) (n : ℤ) : Block β := ⟨n.toNat, fun _ => zero⟩

/-- `p[i]` -/
def Block.load (b : Block β) (i : ℕ) : Option β := if i < b.size then some (b.cells i) else none

/-- `p[i] = x` -/
def Block.store (b : Block β) (i : ℕ) (x : β) : Option (Block β) :=
  if i < b.size then some { b with cells := Function.update b.cells i x } else none

theorem Block.load_eq {b : Block β} {i : ℕ} (h : i < b.size) : b.load i = some (b.cells i) :=
  if_pos h

theorem Block.store_eq {b : Block β} {i : ℕ} (h : i < b.size) (x : β) :
    b.store i x = some { b with cells := Function.update b.cells i x } := if_pos h

end

/-! ## §2. The functions. -/

/-- The globals of `fcyc2.c`. -/
structure Sampler (α : Type*) where
  values : Block α
  samples : Block α
  samplecount : ℕ

omit [LinearOrder α] in
/-- `init_sampler(k, maxsamples)`; `maxsamples+k` is an `int`. -/
def initSampler (zero : α) (k maxsamples : ℕ) : Sampler α :=
  { values := calloc zero k
    samples := calloc zero (int32 (maxsamples + k))
    samplecount := 0 }

/-- `while (pos > 0 && values[pos-1] > values[pos])`: exchange the two, `pos--`. -/
def insertDown (values : Block α) : ℕ → Option (Block α)
  | 0 => some values
  | pos + 1 => do
      let below ← values.load pos
      let above ← values.load (pos + 1)
      if below > above then
        let values ← values.store pos above
        let values ← values.store (pos + 1) below
        insertDown values pos
      else some values

/-- The first statement of `add_sample`: where the sample is put, and the `pos` that the
insertion begins with. -/
def place (k : ℕ) (s : Sampler α) (val : α) : Option (Block α × ℕ) :=
  if s.samplecount < k then do
    let values ← s.values.store s.samplecount val
    some (values, s.samplecount)
  else do
    let last ← s.values.load (k - 1)
    if val < last then
      let values ← s.values.store (k - 1) val
      some (values, k - 1)
    else some (s.values, 0)

/-- `add_sample(val, k)` -/
def addSample (k : ℕ) (s : Sampler α) (val : α) : Option (Sampler α) := do
  let (values, pos) ← place k s val
  let samples ← s.samples.store s.samplecount val
  let values ← insertDown values pos
  some { values := values, samples := samples, samplecount := s.samplecount + 1 }

/-- A number of calls of `add_sample`. -/
def addSamples (k : ℕ) (s : Sampler α) (xs : List α) : Option (Sampler α) :=
  xs.foldlM (addSample k) s

omit [LinearOrder α] in
/-- `get_min` -/
def getMin (s : Sampler α) : Option α := s.values.load 0

omit [LinearOrder α] in
/-- `has_converged(k, epsilon, maxsamples)`; `close v w` is the test
`(1 + epsilon)*v >= w`. -/
def hasConverged (close : α → α → Bool) (k maxsamples : ℕ) (s : Sampler α) : Option ℤ :=
  let late : ℤ := if maxsamples ≤ s.samplecount then -1 else 0
  if k ≤ s.samplecount then
    match s.values.load 0, s.values.load (k - 1) with
    | some v, some w => some (if close v w then s.samplecount else late)
    | _, _ => none
  else some late

theorem addSample_samplecount {k : ℕ} {s s' : Sampler α} {val : α}
    (h : addSample k s val = some s') : s'.samplecount = s.samplecount + 1 := by
  unfold addSample at h
  simp only [Option.bind_eq_bind, Option.bind_eq_some_iff] at h
  obtain ⟨p, -, samples, -, values, -, hs'⟩ := h
  rw [← Option.some.inj hs']

/-- The `do`-loop of `fcyc2_full`; `cyc n` is the measurement after `n` samples. -/
def sampleLoop (cyc : ℕ → α) (close : α → α → Bool) (k maxsamples : ℕ) (s : Sampler α) :
    Option (Sampler α) :=
  match _hs : addSample k s (cyc s.samplecount) with
  | none => none
  | some s' =>
      match hasConverged close k maxsamples s' with
      | none => none
      | some converged =>
          if converged = 0 ∧ s'.samplecount < maxsamples then
            sampleLoop cyc close k maxsamples s'
          else some s'
termination_by maxsamples - s.samplecount
decreasing_by
  rename_i hmore
  have hcount := addSample_samplecount _hs
  omega

/-- `fcyc2_full`: the branches of `compensate` differ in the counter that is read.  The
result, with the sampler as it is left. -/
def fcyc2Full (compCounter counter : ℕ → α) (zero : α) (close : α → α → Bool)
    (k maxsamples : ℕ) (compensate : Bool) : Option (α × Sampler α) := do
  let s ← sampleLoop (if compensate then compCounter else counter) close k maxsamples
    (initSampler zero k maxsamples)
  let result ← s.values.load 0
  some (result, s)

/-! ## §3. The insertion loop, on its cells. -/

/-- What the insertion loop does to the cells, inside of a block. -/
def insertCells (m : Cells α) : ℕ → Cells α
  | 0 => m
  | pos + 1 => if m pos > m (pos + 1) then insertCells (m.swap pos (pos + 1)) pos else m

theorem insertDown_eq (b : Block α) {pos : ℕ} (h : pos < b.size) :
    insertDown b pos = some { b with cells := insertCells b.cells pos } := by
  induction pos generalizing b with
  | zero => rfl
  | succ pos ih =>
      have hpos : pos < b.size := Nat.lt_of_succ_lt h
      rw [insertDown, insertCells, Block.load_eq hpos, Block.load_eq h]
      show (if b.cells pos > b.cells (pos + 1) then _ else _) = _
      by_cases hgt : b.cells pos > b.cells (pos + 1)
      · rw [if_pos hgt, if_pos hgt, Block.store_eq hpos]
        have hsecond := Block.store_eq
          (b := { b with cells := Function.update b.cells pos (b.cells (pos + 1)) }) h (b.cells pos)
        show (Block.store { b with cells := _ } (pos + 1) _ >>= fun b => insertDown b pos) = _
        rw [hsecond]
        exact ih { b with cells := b.cells.swap pos (pos + 1) } hpos
      · rw [if_neg hgt, if_neg hgt]

/-- **The insertion loop** sorts a range whose last cell alone may be out of place. -/
theorem insertCells_sorted (m : Cells α) (pos : ℕ) (h : m.SortedOn 0 pos) :
    m.Rearranged (insertCells m pos) 0 (pos + 1) ∧ (insertCells m pos).SortedOn 0 (pos + 1) := by
  induction pos generalizing m with
  | zero =>
      refine ⟨Cells.Rearranged.refl m 0 1, ?_⟩
      intro i j _ hij hj
      rw [show i = j by omega]
  | succ pos ih =>
      unfold insertCells
      split
      next hgt =>
        -- the cell above keeps the largest of the range
        have hbelow : ∀ i, i < pos → m.swap pos (pos + 1) i = m i := fun i hi =>
          Cells.swap_of_ne m (by omega) (by omega)
        have hsorted : (m.swap pos (pos + 1)).SortedOn 0 pos := by
          intro i j hi hij hj
          rw [hbelow i (by omega), hbelow j (by omega)]
          exact h i j hi hij (by omega)
        obtain ⟨hperm, hres⟩ := ih (m.swap pos (pos + 1)) hsorted
        have hswap : m.Rearranged (m.swap pos (pos + 1)) 0 (pos + 1 + 1) :=
          Cells.Rearranged.swap m (by omega) (by omega)
        refine ⟨hswap.trans (hperm.widen (by omega) (by omega)), ?_⟩
        have htop : insertCells (m.swap pos (pos + 1)) pos (pos + 1) = m pos := by
          rw [hperm.frame (pos + 1) (by omega), Cells.swap_right]
        have hle : ∀ i, i < pos + 1 → insertCells (m.swap pos (pos + 1)) pos i ≤ m pos := by
          intro i hi
          have hmem : insertCells (m.swap pos (pos + 1)) pos i ∈
              (insertCells (m.swap pos (pos + 1)) pos).load 0 (pos + 1) :=
            (Cells.mem_load _).mpr ⟨i, Nat.zero_le i, by omega, rfl⟩
          obtain ⟨x, _, hx, hval⟩ := (Cells.mem_load _).mp (hperm.perm.mem_iff.mp hmem)
          rw [← hval]
          by_cases hxpos : x = pos
          · rw [hxpos, Cells.swap_left]
            exact le_of_lt hgt
          · rw [hbelow x (by omega)]
            exact h x pos (Nat.zero_le x) (by omega) (by omega)
        intro i j hi hij hj
        by_cases hjtop : j = pos + 1
        · by_cases hitop : i = pos + 1
          · rw [hitop, hjtop]
          · rw [hjtop, htop]
            exact hle i (by omega)
        · exact hres i j hi hij (by omega)
      next hle =>
        refine ⟨Cells.Rearranged.refl m 0 _, ?_⟩
        intro i j hi hij hj
        by_cases hjtop : j = pos + 1
        · by_cases hitop : i = pos + 1
          · rw [hitop, hjtop]
          · rw [hjtop]
            exact le_trans (h i pos hi (by omega) (by omega)) (not_lt.mp hle)
        · exact h i j hi hij (by omega)

/-- A new last cell and the insertion loop: a sorted range with one element more. -/
theorem insertCells_update (m : Cells α) (pos : ℕ) (val : α) (h : m.SortedOn 0 pos) :
    ((insertCells (Function.update m pos val) pos).load 0 (pos + 1)).Perm
        (m.load 0 pos ++ [val]) ∧
      (insertCells (Function.update m pos val) pos).SortedOn 0 (pos + 1) := by
  have hbelow : ∀ i, i < pos → Function.update m pos val i = m i := fun i hi =>
    Function.update_of_ne (by omega) val m
  have hsorted : Cells.SortedOn (Function.update m pos val) 0 pos := by
    intro i j hi hij hj
    rw [hbelow i (by omega), hbelow j (by omega)]
    exact h i j hi hij hj
  obtain ⟨hperm, hres⟩ := insertCells_sorted _ pos hsorted
  refine ⟨?_, hres⟩
  have hload : Cells.load (Function.update m pos val) 0 (pos + 1) = m.load 0 pos ++ [val] := by
    rw [Cells.load_add, Cells.load_one, Nat.zero_add, Function.update_self]
    congr 1
    exact Cells.load_congr (fun i _ hi => hbelow i (by omega))
  rw [← hload]
  exact hperm.perm

/-! ## §4. The kept cells. -/

/-- What a call of `add_sample` makes of the cells of `values` when `n` samples came before. -/
def addCells (k n : ℕ) (m : Cells α) (val : α) : Cells α :=
  if n < k then insertCells (Function.update m n val) n
  else if val < m (k - 1) then insertCells (Function.update m (k - 1) val) (k - 1)
  else m

/-- The cells begin with the smallest `min k n` of the `n` samples `xs`, in order; the others
are no smaller. -/
structure KBest (k : ℕ) (xs : List α) (m : Cells α) : Prop where
  sorted : m.SortedOn 0 (min k xs.length)
  split : ∃ rest, (m.load 0 (min k xs.length) ++ rest).Perm xs ∧
    ∀ y ∈ m.load 0 (min k xs.length), ∀ r ∈ rest, y ≤ r

variable {k : ℕ} {xs : List α} {m : Cells α}

theorem kBest_nil (k : ℕ) (m : Cells α) : KBest k [] m where
  sorted := by
    intro i j _ _ hj
    rw [List.length_nil, Nat.min_zero] at hj
    omega
  split := ⟨[], by rw [List.length_nil, Nat.min_zero, Cells.load_zero]; rfl, by simp⟩

/-- The invariant after one more sample, from the cells that are left. -/
theorem KBest.next {val : α} {n : ℕ} {m' : Cells α} (rest : List α)
    (hn : min k (xs.length + 1) = n) (hsorted : m'.SortedOn 0 n)
    (hperm : (m'.load 0 n ++ rest).Perm (xs ++ [val]))
    (hle : ∀ y ∈ m'.load 0 n, ∀ r ∈ rest, y ≤ r) : KBest k (xs ++ [val]) m' := by
  have hlen : min k (xs ++ [val]).length = n := by
    rw [List.length_append, List.length_singleton, hn]
  constructor
  · rw [hlen]
    exact hsorted
  · rw [hlen]
    exact ⟨rest, hperm, hle⟩

/-- Fewer than `k` samples so far: all of them are kept. -/
theorem KBest.append (h : KBest k xs m) (hlt : xs.length < k) (val : α) :
    KBest k (xs ++ [val]) (insertCells (Function.update m xs.length val) xs.length) := by
  have hmin : min k xs.length = xs.length := by omega
  obtain ⟨rest, hperm, _⟩ := h.split
  have hsorted := h.sorted
  rw [hmin] at hperm hsorted
  have hrest : rest = [] := by
    have := hperm.length_eq
    rw [List.length_append, Cells.length_load] at this
    exact List.eq_nil_of_length_eq_zero (by omega)
  rw [hrest, List.append_nil] at hperm
  obtain ⟨hload, hres⟩ := insertCells_update m xs.length val hsorted
  apply KBest.next [] (show _ = xs.length + 1 by omega) hres
  · rw [List.append_nil]
    exact hload.trans (hperm.append_right [val])
  · intro y _ r hr
    exact absurd hr List.not_mem_nil

/-- `k` samples or more: the cells hold `k` of them. -/
theorem KBest.full (h : KBest k xs m) (hge : ¬ xs.length < k) :
    min k (xs.length + 1) = k ∧ m.SortedOn 0 k ∧
      ∃ rest, (m.load 0 k ++ rest).Perm xs ∧ ∀ y ∈ m.load 0 k, ∀ r ∈ rest, y ≤ r := by
  have hmin : min k xs.length = k := by omega
  have hsorted := h.sorted
  have hsplit := h.split
  rw [hmin] at hsorted hsplit
  exact ⟨by omega, hsorted, hsplit⟩

/-- The sample is smaller than the largest of the `k`: that one goes. -/
theorem KBest.replace (h : KBest k xs m) (hk : 0 < k) (hge : ¬ xs.length < k) {val : α}
    (hval : val < m (k - 1)) :
    KBest k (xs ++ [val]) (insertCells (Function.update m (k - 1) val) (k - 1)) := by
  obtain ⟨hmin, hsorted, rest, hperm, hle⟩ := h.full hge
  have hlast : m.load 0 k = m.load 0 (k - 1) ++ [m (k - 1)] := by
    nth_rewrite 1 [show k = k - 1 + 1 by omega]
    rw [Cells.load_add, Cells.load_one, Nat.zero_add]
  obtain ⟨hload, hres⟩ := insertCells_update m (k - 1) val
    (hsorted.mono (Nat.le_refl 0) (by omega))
  apply KBest.next (m (k - 1) :: rest) (show _ = k - 1 + 1 by omega) hres
  · -- the new sample and the one that goes change sides
    rw [hlast, List.append_assoc] at hperm
    have hsides : (m.load 0 (k - 1) ++ [val] ++ (m (k - 1) :: rest)).Perm
        (m.load 0 (k - 1) ++ (m (k - 1) :: rest) ++ [val]) := by
      rw [List.append_assoc, List.append_assoc]
      exact List.Perm.append_left _ List.perm_append_comm
    exact (hload.append_right _).trans (hsides.trans (hperm.append_right [val]))
  · have htop : m (k - 1) ∈ m.load 0 k :=
      (Cells.mem_load _).mpr ⟨k - 1, Nat.zero_le _, by omega, rfl⟩
    have hbelow : ∀ y ∈ m.load 0 (k - 1) ++ [val], y ≤ m (k - 1) ∧ ∀ r ∈ rest, y ≤ r := by
      intro y hy
      rcases List.mem_append.mp hy with hy | hy
      · obtain ⟨i, _, hi, rfl⟩ := (Cells.mem_load _).mp hy
        have hi' : m i ∈ m.load 0 k :=
          (Cells.mem_load _).mpr ⟨i, Nat.zero_le _, by omega, rfl⟩
        exact ⟨hsorted i (k - 1) (Nat.zero_le _) (by omega) (by omega), hle _ hi'⟩
      · rw [List.mem_singleton.mp hy]
        exact ⟨le_of_lt hval, fun r hr => le_trans (le_of_lt hval) (hle _ htop r hr)⟩
    intro y hy r hr
    obtain ⟨hyt, hyr⟩ := hbelow y (hload.mem_iff.mp hy)
    rcases List.mem_cons.mp hr with rfl | hr
    · exact hyt
    · exact hyr r hr

/-- The sample is none of the `k` smallest: nothing moves. -/
theorem KBest.reject (h : KBest k xs m) (hk : 0 < k) (hge : ¬ xs.length < k) {val : α}
    (hval : ¬ val < m (k - 1)) : KBest k (xs ++ [val]) m := by
  obtain ⟨hmin, hsorted, rest, hperm, hle⟩ := h.full hge
  apply KBest.next (rest ++ [val]) hmin hsorted
  · rw [← List.append_assoc]
    exact hperm.append_right [val]
  · intro y hy r hr
    rcases List.mem_append.mp hr with hr | hr
    · exact hle y hy r hr
    · rw [List.mem_singleton.mp hr]
      obtain ⟨i, _, hi, rfl⟩ := (Cells.mem_load _).mp hy
      exact le_trans (hsorted i (k - 1) (Nat.zero_le _) (by omega) (by omega)) (not_lt.mp hval)

/-- **One sample keeps the invariant.** -/
theorem KBest.addCells (h : KBest k xs m) (hk : 0 < k) (val : α) :
    KBest k (xs ++ [val]) (addCells k xs.length m val) := by
  unfold Mountain.addCells
  split
  next hlt => exact h.append hlt val
  next hge =>
    split
    next hval => exact h.replace hk hge hval
    next hval => exact h.reject hk hge hval

/-- The kept samples are the beginning of all samples in order. -/
theorem KBest.load_eq (h : KBest k xs m) :
    m.load 0 (min k xs.length) = (xs.insertionSort (· ≤ ·)).take (min k xs.length) := by
  obtain ⟨rest, hperm, hle⟩ := h.split
  have hsorted : (m.load 0 (min k xs.length) ++ rest.insertionSort (· ≤ ·)).Pairwise
      (· ≤ ·) := by
    rw [List.pairwise_append]
    refine ⟨h.sorted.pairwise, List.pairwise_insertionSort _ _, ?_⟩
    intro y hy r hr
    exact hle y hy r ((List.mem_insertionSort _).mp hr)
  have hall : (xs.insertionSort (· ≤ ·)).Perm
      (m.load 0 (min k xs.length) ++ rest.insertionSort (· ≤ ·)) :=
    (List.perm_insertionSort _ xs).trans
      (hperm.symm.trans ((List.perm_insertionSort _ rest).symm.append_left _))
  rw [hall.eq_of_pairwise' (List.pairwise_insertionSort _ _) hsorted]
  exact (List.take_left' (Cells.length_load _ _ _)).symm

/-- The first of them is the smallest of all samples. -/
theorem KBest.isLeast (h : KBest k xs m) (hk : 0 < k) (hne : xs ≠ []) :
    IsLeast {x | x ∈ xs} (m 0) := by
  have hpos : 0 < min k xs.length := Nat.lt_min.mpr ⟨hk, List.length_pos_of_ne_nil hne⟩
  obtain ⟨rest, hperm, hle⟩ := h.split
  have hmem : m 0 ∈ m.load 0 (min k xs.length) :=
    (Cells.mem_load _).mpr ⟨0, Nat.le_refl 0, by omega, rfl⟩
  constructor
  · exact hperm.mem_iff.mp (List.mem_append_left rest hmem)
  · intro x hx
    rcases List.mem_append.mp (hperm.mem_iff.mpr hx) with hx | hx
    · obtain ⟨i, _, hi, rfl⟩ := (Cells.mem_load _).mp hx
      exact h.sorted 0 i (Nat.le_refl 0) (Nat.zero_le i) (by omega)
    · exact hle _ hmem x hx

/-! ## §5. The blocks. -/

/-- After the samples `xs`: `values` is a block of `k` cells that holds the smallest, `samples`
one of `n` that holds all of them. -/
structure Sampled (k n : ℕ) (xs : List α) (s : Sampler α) : Prop where
  count : s.samplecount = xs.length
  valuesSize : s.values.size = k
  samplesSize : s.samples.size = n
  best : KBest k xs s.values.cells
  all : s.samples.cells.load 0 xs.length = xs

variable {n maxsamples : ℕ} {s : Sampler α}

theorem sampled_init (zero : α) (hint : maxsamples + k < 2 ^ 31) :
    Sampled k (maxsamples + k) [] (initSampler zero k maxsamples) where
  count := rfl
  valuesSize := Int.toNat_natCast k
  samplesSize := by
    have hsum : int32 ((maxsamples : ℤ) + k) = (maxsamples + k : ℕ) := by
      rw [← Int.natCast_add, int32_natCast hint]
    simp only [initSampler, calloc, hsum, Int.toNat_natCast]
  best := kBest_nil k _
  all := rfl

/-- The first statement of `add_sample` and the insertion loop stay inside of `values`. -/
theorem Sampled.place (h : Sampled k n xs s) (hk : 0 < k) (val : α) :
    ∃ b pos, place k s val = some (b, pos) ∧
      insertDown b pos = some { s.values with
        cells := Mountain.addCells k xs.length s.values.cells val } := by
  have hlast : k - 1 < s.values.size := by
    rw [h.valuesSize]
    omega
  unfold Mountain.place Mountain.addCells
  rw [h.count]
  by_cases hlt : xs.length < k
  · have hroom : xs.length < s.values.size := by rwa [h.valuesSize]
    rw [if_pos hlt, if_pos hlt, Block.store_eq hroom]
    exact ⟨_, _, rfl, insertDown_eq _ hroom⟩
  · rw [if_neg hlt, if_neg hlt, Block.load_eq hlast]
    show ∃ b pos, (if val < s.values.cells (k - 1) then _ else _) = some (b, pos) ∧ _
    by_cases hval : val < s.values.cells (k - 1)
    · rw [if_pos hval, if_pos hval, Block.store_eq hlast]
      exact ⟨_, _, rfl, insertDown_eq _ hlast⟩
    · rw [if_neg hval, if_neg hval]
      exact ⟨_, _, rfl, rfl⟩

/-- **One call of `add_sample`**, while there is room in `samples`. -/
theorem Sampled.addSample (h : Sampled k n xs s) (hk : 0 < k) (hroom : xs.length < n) (val : α) :
    ∃ s', addSample k s val = some s' ∧ Sampled k n (xs ++ [val]) s' := by
  obtain ⟨b, pos, hplace, hinsert⟩ := h.place hk val
  have hcell : s.samplecount < s.samples.size := by rwa [h.count, h.samplesSize]
  have hcall : Mountain.addSample k s val = insertDown b pos >>= fun values =>
      some ⟨values, { s.samples with cells := Function.update s.samples.cells s.samplecount val },
        s.samplecount + 1⟩ := by
    rw [Mountain.addSample, hplace, Block.store_eq hcell]
    rfl
  refine ⟨_, hcall.trans (by rw [hinsert]; rfl), ?_⟩
  refine ⟨?_, h.valuesSize, h.samplesSize, h.best.addCells hk val, ?_⟩
  · show s.samplecount + 1 = (xs ++ [val]).length
    rw [h.count, List.length_append, List.length_singleton]
  · show Cells.load (Function.update s.samples.cells s.samplecount val) 0 _ = _
    rw [List.length_append, List.length_singleton, Cells.load_add, Cells.load_one, Nat.zero_add,
      h.count, Function.update_self]
    congr 1
    rw [← h.all, Cells.length_load]
    exact Cells.load_congr (fun i _ hi => Function.update_of_ne (by omega) _ _)

/-- **So does every sequence of calls** that fits into `samples`. -/
theorem Sampled.addSamples (h : Sampled k n xs s) (hk : 0 < k) (ys : List α)
    (hroom : xs.length + ys.length ≤ n) :
    ∃ s', addSamples k s ys = some s' ∧ Sampled k n (xs ++ ys) s' := by
  induction ys generalizing xs s with
  | nil => exact ⟨s, rfl, by rwa [List.append_nil]⟩
  | cons y ys ih =>
      rw [List.length_cons] at hroom
      obtain ⟨s₁, hs₁, h₁⟩ := h.addSample hk (by omega) y
      obtain ⟨s', hs', h'⟩ := ih h₁ (by rw [List.length_append, List.length_singleton]; omega)
      rw [List.append_assoc] at h'
      refine ⟨s', ?_, h'⟩
      unfold Mountain.addSamples at hs' ⊢
      rw [List.foldlM_cons, hs₁]
      exact hs'

/-- **One call too many** stores behind the end of `samples`. -/
theorem Sampled.overrun (h : Sampled k n xs s) (hk : 0 < k) (hfull : xs.length = n) (val : α) :
    Mountain.addSample k s val = none := by
  obtain ⟨b, pos, hplace, -⟩ := h.place hk val
  have hcell : s.samples.store s.samplecount val = none :=
    if_neg (by rw [h.count, h.samplesSize, hfull]; exact Nat.lt_irrefl n)
  rw [Mountain.addSample, hplace, Option.bind_eq_bind, Option.bind_some, hcell]
  rfl

theorem addSamples_overrun (hk : 0 < k) (h : Sampled k n [] s) {ys : List α}
    (hlong : n < ys.length) : addSamples k s ys = none := by
  have hsplit : ys = ys.take n ++ (ys[n] :: ys.drop (n + 1)) := by
    rw [← List.drop_eq_getElem_cons hlong, List.take_append_drop]
  have hlen : (ys.take n).length = n := List.length_take_of_le (Nat.le_of_lt hlong)
  obtain ⟨s', hs', h'⟩ := h.addSamples hk (ys.take n) (by rw [hlen, List.length_nil, Nat.zero_add])
  rw [List.nil_append] at h'
  rw [hsplit]
  unfold addSamples at hs' ⊢
  rw [List.foldlM_append, hs']
  show (addSample k s' ys[n] >>= fun s => List.foldlM (addSample k) s (ys.drop (n + 1))) = none
  rw [h'.overrun hk hlen]
  rfl

/-! ## §6. The measuring loop. -/

/-- The samples of a run of the loop. -/
def taken (cyc : ℕ → α) (n : ℕ) : List α := (List.range n).map cyc

omit [LinearOrder α] in
theorem length_taken (cyc : ℕ → α) (n : ℕ) : (taken cyc n).length = n := by
  rw [taken, List.length_map, List.length_range]

omit [LinearOrder α] in
theorem taken_succ (cyc : ℕ → α) (n : ℕ) : taken cyc (n + 1) = taken cyc n ++ [cyc n] := by
  unfold taken
  rw [List.range_succ, List.map_append]
  rfl

/-- `has_converged` reads inside of `values`. -/
theorem Sampled.hasConverged (h : Sampled k n xs s) (hk : 0 < k) (close : α → α → Bool)
    (maxsamples : ℕ) : ∃ converged, hasConverged close k maxsamples s = some converged := by
  unfold Mountain.hasConverged
  dsimp only
  split
  · rw [Block.load_eq (by rw [h.valuesSize]; exact hk), Block.load_eq (by rw [h.valuesSize]; omega)]
    exact ⟨_, rfl⟩
  · exact ⟨_, rfl⟩

/-- **The loop stops**, after one sample at least and before there are more than
`maxsamples`: it has added the first measurements, in order. -/
theorem sampleLoop_stops (cyc : ℕ → α) (close : α → α → Bool) (hk : 0 < k)
    (hroom : maxsamples ≤ n) {s₀ : Sampler α} {i : ℕ}
    (hi : i < maxsamples) (h : Sampled k n (taken cyc i) s)
    (hs : addSamples k s₀ (taken cyc i) = some s) :
    ∃ (j : ℕ) (s' : Sampler α), 0 < j ∧ j ≤ maxsamples ∧
      sampleLoop cyc close k maxsamples s = some s' ∧
      addSamples k s₀ (taken cyc j) = some s' ∧ Sampled k n (taken cyc j) s' := by
  induction hd : maxsamples - i using Nat.strong_induction_on generalizing i s with
  | _ d ih =>
      have hcount : s.samplecount = i := h.count.trans (length_taken cyc i)
      obtain ⟨s', hs', h'⟩ := h.addSample hk (by rw [length_taken]; omega) (cyc i)
      have hrun : addSamples k s₀ (taken cyc (i + 1)) = some s' := by
        unfold addSamples at hs ⊢
        rw [taken_succ, List.foldlM_append, hs]
        show (addSample k s (cyc i) >>= some) = some s'
        rw [hs']
        rfl
      rw [← taken_succ] at h'
      obtain ⟨converged, hconv⟩ := h'.hasConverged hk close maxsamples
      have hcount' : s'.samplecount = i + 1 := h'.count.trans (length_taken cyc (i + 1))
      have hturn : sampleLoop cyc close k maxsamples s =
          if converged = 0 ∧ s'.samplecount < maxsamples then
            sampleLoop cyc close k maxsamples s'
          else some s' := by
        rw [sampleLoop]
        split
        next hnone =>
          rw [hcount, hs'] at hnone
          cases hnone
        next t ht =>
          rw [hcount, hs'] at ht
          cases ht
          rw [hconv]
      rw [hturn, hcount']
      split
      next hmore =>
        have hlt : i + 1 < maxsamples := hmore.2
        exact ih (maxsamples - (i + 1)) (by omega) hlt h' hrun rfl
      next => exact ⟨i + 1, s', Nat.succ_pos i, hi, rfl, hrun, h'⟩

/-- **The sampler keeps the `k` smallest samples in order** for as many samples as `samples`
has room for, which is `maxsamples+k`, and one more is stored behind its end.  The measuring
loop stays inside of both blocks, takes at most `maxsamples` samples and returns the smallest
of those it took. -/
theorem sampler_kBest (zero : α) (k maxsamples : ℕ) (hk : 0 < k) (hmax : 0 < maxsamples)
    (hint : maxsamples + k < 2 ^ 31) :
    (∀ xs : List α, xs.length ≤ maxsamples + k →
      ∃ s, addSamples k (initSampler zero k maxsamples) xs = some s ∧
        s.samplecount = xs.length ∧
        (s.values.cells.load 0 (min k s.samplecount)).Pairwise (· ≤ ·) ∧
        (s.values.cells.load 0 (min k s.samplecount)).Perm
          ((xs.insertionSort (· ≤ ·)).take (min k s.samplecount))) ∧
    (∀ xs : List α, maxsamples + k < xs.length →
      addSamples k (initSampler zero k maxsamples) xs = none) ∧
    ∀ (compCounter counter : ℕ → α) (close : α → α → Bool) (compensate : Bool),
      ∃ r s, fcyc2Full compCounter counter zero close k maxsamples compensate = some (r, s) ∧
        s.samplecount ≤ maxsamples ∧
        (let xs := taken (if compensate then compCounter else counter) s.samplecount
         addSamples k (initSampler zero k maxsamples) xs = some s ∧ IsLeast {x | x ∈ xs} r) := by
  have h₀ := sampled_init (k := k) zero hint
  refine ⟨fun xs hlen => ?_, fun xs hlong => addSamples_overrun hk h₀ hlong, ?_⟩
  · obtain ⟨s, hs, h⟩ := h₀.addSamples hk xs (by rw [List.length_nil]; omega)
    rw [List.nil_append] at h
    refine ⟨s, hs, h.count, ?_⟩
    rw [h.count]
    exact ⟨h.best.sorted.pairwise, h.best.load_eq ▸ List.Perm.refl _⟩
  · intro compCounter counter close compensate
    obtain ⟨j, s, hpos, hle, hloop, hrun, h⟩ :=
      sampleLoop_stops (if compensate then compCounter else counter) close hk
        (Nat.le_add_right maxsamples k) hmax h₀ rfl
    have hcount : s.samplecount = j := h.count.trans (length_taken _ j)
    have hzero : s.values.load 0 = some (s.values.cells 0) :=
      Block.load_eq (by rw [h.valuesSize]; exact hk)
    refine ⟨s.values.cells 0, s, ?_, by omega, ?_⟩
    · rw [fcyc2Full, hloop]
      show (s.values.load 0 >>= fun result => some (result, s)) = _
      rw [hzero]
      rfl
    · rw [hcount]
      refine ⟨hrun, h.best.isLeast hk ?_⟩
      exact List.ne_nil_of_length_pos (by rw [length_taken]; exact hpos)

/-- Two of four samples are kept; the four are all that `samples` has room for. -/
theorem sampler_kBest_two_of_four :
    ∃ s, addSamples 2 (initSampler 0 2 2) [5, 3, 4, 3] = some s ∧ s.samplecount = 4 ∧
      (s.values.cells.load 0 (min 2 s.samplecount)).Pairwise (· ≤ ·) ∧
      (s.values.cells.load 0 (min 2 s.samplecount)).Perm
        (([5, 3, 4, 3].insertionSort (· ≤ ·)).take (min 2 s.samplecount)) :=
  (sampler_kBest 0 2 2 (by decide) (by decide) (by decide)).1 [5, 3, 4, 3] (by decide)

/-- **The third sample after `init_sampler(1, 1)`** is stored behind the end of `samples`, which
has two cells. -/
theorem addSamples_third :
    ¬ ∀ k maxsamples : ℕ, 0 < k → 0 < maxsamples → ∀ xs : List ℕ,
      ∃ s, addSamples k (initSampler 0 k maxsamples) xs = some s ∧
        (s.values.cells.load 0 (min k s.samplecount)).Pairwise (· ≤ ·) ∧
        (s.values.cells.load 0 (min k s.samplecount)).Perm
          ((xs.insertionSort (· ≤ ·)).take (min k s.samplecount)) := by
  intro hall
  obtain ⟨s, hs, -⟩ := hall 1 1 Nat.one_pos Nat.one_pos [7, 5, 6]
  have hnone : addSamples 1 (initSampler 0 1 1) [7, 5, 6] = none := by decide
  rw [hnone] at hs
  cases hs

end ComputerScience.Mountain
