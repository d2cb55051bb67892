/-
  ComputerScience.Lib.Rearrange
  ─────────────────────────────
  **SORTING IN PLACE, RANGE BY RANGE.**

  `Rearranged m m' off n`: the cells of a range were permuted and the others left alone.
  `Split m off n k p`: a partition of a range around its pivot `p` at position `k`.

  The goal of a sort is a fixed row of cells `t`, sorted on the range and holding the same
  elements.  A partition step splits such a goal into three independent ones
  (`Split.goal`), and a sorted range with the right elements has reached it
  (`eq_of_sorted`).  Nothing has to be known about the order in which the parts are
  sorted, or about who sorts them.
-/
import ComputerScience.Lib.Cells
import Mathlib.Data.List.Sort
import Mathlib.Logic.Equiv.Basic

namespace ComputerScience.Lib

namespace Cells

variable {α : Type*}

/-- Exchange two cells. -/
def swap (m : Cells α) (i j : ℕ) : Cells α :=
  Function.update (Function.update m i (m j)) j (m i)

theorem swap_left (m : Cells α) (i j : ℕ) : m.swap i j i = m j := by
  unfold swap
  by_cases h : i = j
  · rw [h, Function.update_self]
  · rw [Function.update_of_ne h, Function.update_self]

theorem swap_right (m : Cells α) (i j : ℕ) : m.swap i j j = m i := by
  unfold swap
  rw [Function.update_self]

theorem swap_of_ne (m : Cells α) {i j k : ℕ} (hi : k ≠ i) (hj : k ≠ j) :
    m.swap i j k = m k := by
  unfold swap
  rw [Function.update_of_ne hj, Function.update_of_ne hi]

theorem swap_eq_comp (m : Cells α) (i j : ℕ) : m.swap i j = m ∘ Equiv.swap i j := by
  funext k
  show m.swap i j k = m (Equiv.swap i j k)
  by_cases hi : k = i
  · rw [hi, swap_left, Equiv.swap_apply_left]
  · by_cases hj : k = j
    · rw [hj, swap_right, Equiv.swap_apply_right]
    · rw [swap_of_ne m hi hj, Equiv.swap_apply_of_ne_of_ne hi hj]

/-! ## §1. Rearranged ranges. -/

/-- The range from `off` was permuted, the rest is as it was. -/
structure Rearranged (m m' : Cells α) (off n : ℕ) : Prop where
  perm : (m'.load off n).Perm (m.load off n)
  frame : ∀ i, i < off ∨ off + n ≤ i → m' i = m i

theorem Rearranged.refl (m : Cells α) (off n : ℕ) : Rearranged m m off n :=
  ⟨List.Perm.refl _, fun _ _ => rfl⟩

theorem Rearranged.trans {m m' m'' : Cells α} {off n : ℕ} (h : Rearranged m m' off n)
    (h' : Rearranged m' m'' off n) : Rearranged m m'' off n := by
  refine ⟨h'.perm.trans h.perm, ?_⟩
  intro i hi
  rw [h'.frame i hi, h.frame i hi]

/-- A range read in three pieces. -/
theorem load_three (m : Cells α) {off n off' n' : ℕ} (hlo : off' ≤ off)
    (hhi : off + n ≤ off' + n') :
    m.load off' n' =
      m.load off' (off - off') ++ (m.load off n ++ m.load (off + n) (off' + n' - (off + n))) := by
  obtain ⟨d, rfl⟩ : ∃ d, off = off' + d := ⟨off - off', by omega⟩
  rw [← load_add, show off' + d - off' = d by omega, ← load_add]
  congr 1
  omega

/-- A rearranged part is a rearranged whole. -/
theorem Rearranged.widen {m m' : Cells α} {off n : ℕ} (h : Rearranged m m' off n)
    {off' n' : ℕ} (hlo : off' ≤ off) (hhi : off + n ≤ off' + n') : Rearranged m m' off' n' := by
  constructor
  · rw [load_three m hlo hhi, load_three m' hlo hhi]
    have hpre : m'.load off' (off - off') = m.load off' (off - off') :=
      load_congr (fun i _ hi => h.frame i (by omega))
    have hpost : m'.load (off + n) (off' + n' - (off + n)) =
        m.load (off + n) (off' + n' - (off + n)) :=
      load_congr (fun i hi _ => h.frame i (by omega))
    rw [hpre, hpost]
    exact List.Perm.append_left _ (List.Perm.append_right _ h.perm)
  · intro i hi
    exact h.frame i (by omega)

/-- **Exchanging two cells of a range rearranges it.** -/
theorem Rearranged.swap (m : Cells α) {off n i j : ℕ} (hi : off ≤ i ∧ i < off + n)
    (hj : off ≤ j ∧ j < off + n) : Rearranged m (m.swap i j) off n := by
  constructor
  · -- the exchange permutes the addresses of the range
    have haddr : ((List.range' off n).map (Equiv.swap i j)).Perm (List.range' off n) := by
      rw [List.perm_ext_iff_of_nodup (List.Nodup.map (Equiv.injective _) List.nodup_range')
        List.nodup_range']
      intro k
      have hinv : ∀ x, Equiv.swap i j (Equiv.swap i j x) = x := by
        intro x
        rw [← Equiv.trans_apply, Equiv.swap_swap]
        rfl
      have hrange : ∀ x, off ≤ x ∧ x < off + n →
          off ≤ Equiv.swap i j x ∧ Equiv.swap i j x < off + n := by
        intro x hx
        rw [Equiv.swap_apply_def]
        split
        · exact hj
        · split
          · exact hi
          · exact hx
      simp only [List.mem_map, List.mem_range'_1]
      constructor
      · intro ⟨x, hx, hk⟩
        rw [← hk]
        exact hrange x hx
      · intro hk
        exact ⟨Equiv.swap i j k, hrange k hk, hinv k⟩
    have hload : ∀ m : Cells α, m.load off n = (List.range' off n).map m := by
      intro m
      unfold load
      rw [List.range'_eq_map_range, List.map_map]
      rfl
    rw [hload, hload, swap_eq_comp, ← List.map_map]
    exact haddr.map m
  · intro k hk
    exact swap_of_ne m (by omega) (by omega)

/-- Equal loads are equal cells. -/
theorem eq_of_load_eq {m t : Cells α} {off n : ℕ} (h : m.load off n = t.load off n) :
    ∀ i, off ≤ i → i < off + n → m i = t i := by
  intro i hlo hhi
  have hi : i - off < (m.load off n).length := by
    rw [length_load]
    omega
  have hi' : i - off < (t.load off n).length := by
    rw [length_load]
    omega
  have hget : (m.load off n)[i - off] = (t.load off n)[i - off] := by
    simp only [h]
  rw [getElem_load, getElem_load] at hget
  rwa [show off + (i - off) = i by omega] at hget

theorem load_split (m : Cells α) {off n k : ℕ} (hk : k < n) :
    m.load off n = m.load off k ++ (m (off + k) :: m.load (off + k + 1) (n - k - 1)) := by
  rw [← load_succ, ← load_add]
  congr 1
  omega

/-- A range is its last cell and the rest. -/
theorem cons_last_perm (m : Cells α) {off n : ℕ} (hn : 0 < n) :
    (m (off + (n - 1)) :: m.load off (n - 1)).Perm (m.load off n) := by
  rw [load_split m (show n - 1 < n by omega), show n - (n - 1) - 1 = 0 by omega, load_zero]
  exact (List.perm_append_singleton _ _).symm

/-- A range of at most one cell has reached its goal. -/
theorem eq_of_le_one {m t : Cells α} {off n : ℕ} (hn : n ≤ 1)
    (hperm : (m.load off n).Perm (t.load off n)) : ∀ i, off ≤ i → i < off + n → m i = t i := by
  intro i hlo hhi
  obtain rfl : n = 1 := by omega
  obtain rfl : i = off := by omega
  rw [load_one, load_one] at hperm
  exact List.singleton_perm_singleton.mp hperm

/-! ## §2. Sorted ranges and partitions. -/

variable [LinearOrder α]

/-- The range from `off` is nondecreasing. -/
def SortedOn (m : Cells α) (off n : ℕ) : Prop :=
  ∀ i j, off ≤ i → i ≤ j → j < off + n → m i ≤ m j

theorem SortedOn.mono {m : Cells α} {off n off' n' : ℕ} (h : SortedOn m off n)
    (hlo : off ≤ off') (hhi : off' + n' ≤ off + n) : SortedOn m off' n' :=
  fun i j hi hij hj => h i j (by omega) hij (by omega)

theorem SortedOn.pairwise {m : Cells α} {off n : ℕ} (h : SortedOn m off n) :
    (m.load off n).Pairwise (· ≤ ·) := by
  rw [List.pairwise_iff_getElem]
  intro i j hi hj hij
  rw [getElem_load, getElem_load]
  rw [length_load] at hj
  exact h _ _ (by omega) (by omega) (by omega)

theorem sortedOn_of_pairwise {m : Cells α} {off n : ℕ} (h : (m.load off n).Pairwise (· ≤ ·)) :
    SortedOn m off n := by
  intro i j hi hij hj
  by_cases heq : i = j
  · rw [heq]
  · have hlen : (m.load off n).length = n := length_load m off n
    have := List.pairwise_iff_getElem.mp h (i - off) (j - off) (by omega) (by omega) (by omega)
    rw [getElem_load, getElem_load] at this
    rwa [show off + (i - off) = i by omega, show off + (j - off) = j by omega] at this

/-- **A sorted range with the goal's elements is the goal.** -/
theorem eq_of_sorted {m t : Cells α} {off n : ℕ} (hm : SortedOn m off n) (ht : SortedOn t off n)
    (hperm : (m.load off n).Perm (t.load off n)) : ∀ i, off ≤ i → i < off + n → m i = t i :=
  eq_of_load_eq (hperm.eq_of_pairwise' hm.pairwise ht.pairwise)

/-- The range holds the goal, and the rest of the row is as in `m`. -/
def Reached (m m' t : Cells α) (off n : ℕ) : Prop :=
  (∀ i, off ≤ i → i < off + n → m' i = t i) ∧ ∀ i, i < off ∨ off + n ≤ i → m' i = m i

/-- A sorted rearrangement has reached every goal of the range. -/
theorem Rearranged.reached {m m' t : Cells α} {off n : ℕ} (h : Rearranged m m' off n)
    (hs : SortedOn m' off n) (ht : SortedOn t off n)
    (hperm : (m.load off n).Perm (t.load off n)) : Reached m m' t off n :=
  ⟨eq_of_sorted hs ht (h.perm.trans hperm), h.frame⟩

/-- The range is partitioned around the pivot `p` at position `k`. -/
structure Split (m : Cells α) (off n k : ℕ) (p : α) : Prop where
  lt : k < n
  pivot : m (off + k) = p
  left : ∀ i, off ≤ i → i < off + k → m i ≤ p
  right : ∀ i, off + k < i → i < off + n → p ≤ m i

/-- **A partition splits the goal**: both sides hold the elements the goal has there, and
the pivot is in its final place. -/
theorem Split.goal {m t : Cells α} {off n k : ℕ} {p : α} (h : Split m off n k p)
    (ht : SortedOn t off n) (hperm : (m.load off n).Perm (t.load off n)) :
    (m.load off k).Perm (t.load off k) ∧ m (off + k) = t (off + k) ∧
      (m.load (off + k + 1) (n - k - 1)).Perm (t.load (off + k + 1) (n - k - 1)) := by
  have hk := h.lt
  -- sort both sides: the result is sorted, so it is the goal
  let l := (m.load off k).insertionSort (· ≤ ·)
  let r := (m.load (off + k + 1) (n - k - 1)).insertionSort (· ≤ ·)
  have hl : l.Perm (m.load off k) := List.perm_insertionSort _ _
  have hr : r.Perm (m.load (off + k + 1) (n - k - 1)) := List.perm_insertionSort _ _
  have hle : ∀ x ∈ l, x ≤ p := by
    intro x hx
    obtain ⟨i, hlo, hhi, rfl⟩ := (mem_load m).mp (hl.mem_iff.mp hx)
    exact h.left i hlo hhi
  have hge : ∀ x ∈ r, p ≤ x := by
    intro x hx
    obtain ⟨i, hlo, hhi, rfl⟩ := (mem_load m).mp (hr.mem_iff.mp hx)
    exact h.right i (by omega) (by omega)
  have hsorted : (l ++ (p :: r)).Pairwise (· ≤ ·) := by
    rw [List.pairwise_append, List.pairwise_cons]
    refine ⟨List.pairwise_insertionSort _ _, ⟨hge, List.pairwise_insertionSort _ _⟩, ?_⟩
    intro x hx y hy
    rcases List.mem_cons.mp hy with rfl | hy
    · exact hle x hx
    · exact le_trans (hle x hx) (hge y hy)
  have hall : (l ++ (p :: r)).Perm (t.load off n) := by
    refine List.Perm.trans ?_ hperm
    rw [load_split m hk, h.pivot]
    exact List.Perm.append hl (hr.cons p)
  have heq : l ++ (p :: r) = t.load off n := hall.eq_of_pairwise' hsorted ht.pairwise
  rw [load_split t hk] at heq
  have hlen : l.length = (t.load off k).length := by
    rw [hl.length_eq, length_load, length_load]
  obtain ⟨hleft, hrest⟩ := List.append_inj heq hlen
  injection hrest with hp hright
  refine ⟨?_, h.pivot.trans hp, ?_⟩
  · rw [← hleft]
    exact hl.symm
  · rw [← hright]
    exact hr.symm

/-- Every range has a goal: its sorted elements, stored over it. -/
theorem exists_goal (m : Cells α) (off n : ℕ) :
    ∃ t : Cells α, SortedOn t off n ∧ (m.load off n).Perm (t.load off n) := by
  let xs := (m.load off n).insertionSort (· ≤ ·)
  have hperm : xs.Perm (m.load off n) := List.perm_insertionSort _ _
  have hlen : xs.length = n := by
    rw [hperm.length_eq, length_load]
  have hload : (m.store off xs).load off n = xs := by
    have := load_store_self m off xs
    rwa [hlen] at this
  refine ⟨m.store off xs, sortedOn_of_pairwise ?_, ?_⟩
  · rw [hload]
    exact List.pairwise_insertionSort _ _
  · rw [hload]
    exact hperm.symm

end Cells

end ComputerScience.Lib
