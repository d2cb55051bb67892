/-
  ComputerScience.Lib.Pool
  ────────────────────────
  **POOLS OF THREADS AND HOW TO COUNT IN THEM.**

  The threads of a program are a list of control states; a step replaces one of them
  or starts a new one.  Counting invariants ("so many threads hold a token") are sums
  of a weight over the list; `weight_set` says what replacing one thread does to such
  a sum.
-/
import Mathlib.Data.List.Basic
import Mathlib.Algebra.BigOperators.Group.List.Basic
import Mathlib.Algebra.Ring.Nat

namespace ComputerScience.Lib

variable {α : Type*}

/-- The sum of `w` over the pool. -/
def weight (w : α → ℕ) (l : List α) : ℕ := (l.map w).sum

theorem weight_nil (w : α → ℕ) : weight w [] = 0 := rfl

theorem weight_concat (w : α → ℕ) (l : List α) (x : α) :
    weight w (l ++ [x]) = weight w l + w x := by
  simp [weight]

/-- **Replacing one thread** moves its weight out and the new weight in. -/
theorem weight_set (w : α → ℕ) {l : List α} {i : ℕ} {x : α} (y : α) (h : l[i]? = some x) :
    weight w (l.set i y) + w x = weight w l + w y := by
  induction l generalizing i with
  | nil => simp at h
  | cons a l ih =>
      cases i with
      | zero =>
          simp only [List.getElem?_cons_zero, Option.some.injEq] at h
          subst h
          simp only [List.set_cons_zero, weight, List.map_cons, List.sum_cons]
          omega
      | succ i =>
          simp only [List.getElem?_cons_succ] at h
          have := ih h
          simp only [List.set_cons_succ, weight, List.map_cons, List.sum_cons] at this ⊢
          omega

theorem le_weight (w : α → ℕ) {l : List α} {i : ℕ} {x : α} (h : l[i]? = some x) :
    w x ≤ weight w l := by
  induction l generalizing i with
  | nil => simp at h
  | cons a l ih =>
      cases i with
      | zero =>
          simp only [List.getElem?_cons_zero, Option.some.injEq] at h
          subst h
          simp only [weight, List.map_cons, List.sum_cons]
          omega
      | succ i =>
          simp only [List.getElem?_cons_succ] at h
          have := ih h
          simp only [weight, List.map_cons, List.sum_cons] at this ⊢
          omega

/-- Two threads of the pool together. -/
theorem add_le_weight (w : α → ℕ) {l : List α} {i j : ℕ} {x y : α} (hi : l[i]? = some x)
    (hj : l[j]? = some y) (hne : i ≠ j) : w x + w y ≤ weight w l := by
  induction l generalizing i j with
  | nil => simp at hi
  | cons a l ih =>
      have hcons : weight w (a :: l) = w a + weight w l := by
        simp only [weight, List.map_cons, List.sum_cons]
      cases i with
      | zero =>
          obtain ⟨j, rfl⟩ := Nat.exists_eq_succ_of_ne_zero (Ne.symm hne)
          have := le_weight w (List.getElem?_cons_succ.symm.trans hj)
          rw [List.getElem?_cons_zero, Option.some.injEq] at hi
          subst hi
          omega
      | succ i =>
          have hx := List.getElem?_cons_succ.symm.trans hi
          cases j with
          | zero =>
              have := le_weight w hx
              rw [List.getElem?_cons_zero, Option.some.injEq] at hj
              subst hj
              omega
          | succ j =>
              have := ih hx (List.getElem?_cons_succ.symm.trans hj) (by omega)
              omega

theorem weight_mono {w w' : α → ℕ} (h : ∀ x, w x ≤ w' x) (l : List α) :
    weight w l ≤ weight w' l := by
  induction l with
  | nil => exact Nat.le_refl _
  | cons a l ih =>
      have := h a
      simp only [weight, List.map_cons, List.sum_cons] at ih ⊢
      omega

theorem weight_add (w w' : α → ℕ) (l : List α) :
    weight (fun x => w x + w' x) l = weight w l + weight w' l := by
  induction l with
  | nil => rfl
  | cons a l ih =>
      simp only [weight, List.map_cons, List.sum_cons] at ih ⊢
      omega

/-- An inequality between sums of two counts, thread by thread. -/
theorem weight_add_mono {w w' v v' : α → ℕ} (h : ∀ x, w x + w' x ≤ v x + v' x) (l : List α) :
    weight w l + weight w' l ≤ weight v l + weight v' l := by
  rw [← weight_add, ← weight_add]
  exact weight_mono h l

theorem weight_le_length {w : α → ℕ} (h : ∀ x, w x ≤ 1) (l : List α) : weight w l ≤ l.length := by
  induction l with
  | nil => exact Nat.le_refl _
  | cons a l ih =>
      have := h a
      simp only [weight, List.map_cons, List.sum_cons, List.length_cons] at ih ⊢
      omega

/-- A pool whose threads all count the same. -/
theorem weight_eq_length_mul {w : α → ℕ} {c : ℕ} {l : List α} (h : ∀ x ∈ l, w x = c) :
    weight w l = l.length * c := by
  induction l with
  | nil => exact (Nat.zero_mul c).symm
  | cons a l ih =>
      have ha := h a List.mem_cons_self
      have hl := ih fun x hx => h x (List.mem_cons_of_mem a hx)
      rw [List.length_cons, Nat.succ_mul]
      simp only [weight, List.map_cons, List.sum_cons] at hl ⊢
      omega

/-- A pool in which every thread is counted. -/
theorem weight_eq_length {w : α → ℕ} {l : List α} (h : ∀ x ∈ l, w x = 1) :
    weight w l = l.length := by
  rw [weight_eq_length_mul h, Nat.mul_one]

/-- When the count is the size of the pool every thread is counted. -/
theorem all_of_weight_eq_length {w : α → ℕ} (h : ∀ x, w x ≤ 1) {l : List α}
    (hw : weight w l = l.length) : ∀ x ∈ l, w x = 1 := by
  induction l with
  | nil => exact fun x hx => absurd hx (by simp)
  | cons a l ih =>
      have ha := h a
      have hl := weight_le_length h l
      simp only [weight, List.map_cons, List.sum_cons, List.length_cons] at hw hl
      intro x hx
      rcases List.mem_cons.mp hx with rfl | hx
      · omega
      · exact ih (by simp only [weight]; omega) x hx

/-- A positive sum has a positive summand. -/
theorem exists_of_weight_pos (w : α → ℕ) {l : List α} (h : 0 < weight w l) :
    ∃ (i : ℕ) (x : α), l[i]? = some x ∧ 0 < w x := by
  induction l with
  | nil => simp [weight] at h
  | cons a l ih =>
      by_cases ha : 0 < w a
      · exact ⟨0, a, rfl, ha⟩
      · simp only [weight, List.map_cons, List.sum_cons] at h ih
        obtain ⟨i, x, hi, hx⟩ := ih (by omega)
        exact ⟨i + 1, x, by simpa using hi, hx⟩

/-- Counting a pool by the numbers of its threads. -/
theorem count_eq_countP_range [DecidableEq α] (l : List α) (x : α) :
    l.count x = (List.range l.length).countP (fun i => l[i]? = some x) := by
  induction l with
  | nil => rfl
  | cons a l ih =>
      rw [List.length_cons, List.range_succ_eq_map, List.countP_cons, List.countP_map,
        List.count_cons, ih]
      congr 1
      simp

/-- The other threads of the pool are as they were. -/
theorem getElem?_set_cases {l : List α} {i j : ℕ} {x y : α} (h : (l.set i y)[j]? = some x) :
    (j = i ∧ x = y) ∨ (j ≠ i ∧ l[j]? = some x) := by
  rw [List.getElem?_set] at h
  split at h
  next hij =>
    split at h
    next => exact Or.inl ⟨hij.symm, (Option.some.inj h).symm⟩
    next => exact absurd h (by simp)
  next hij => exact Or.inr ⟨fun e => hij e.symm, h⟩

/-- A thread of a pool that grew by one is an old one or the new one. -/
theorem getElem?_concat_cases {l : List α} {i : ℕ} {x y : α} (h : (l ++ [y])[i]? = some x) :
    l[i]? = some x ∨ (i = l.length ∧ x = y) := by
  rw [List.getElem?_append] at h
  split at h
  next => exact Or.inl h
  next hge =>
    have hlt := (List.getElem?_eq_some_iff.mp h).1
    rw [List.length_singleton] at hlt
    exact Or.inr ⟨by omega, List.mem_singleton.mp (List.mem_of_getElem? h)⟩

/-- Where a thread of the pool is after one of them was replaced. -/
theorem getElem?_set_of_some {l : List α} {i j : ℕ} {x z : α} (y : α) (hi : l[i]? = some x)
    (hj : l[j]? = some z) :
    (j = i ∧ z = x ∧ (l.set i y)[j]? = some y) ∨ (j ≠ i ∧ (l.set i y)[j]? = some z) := by
  by_cases h : j = i
  · subst h
    rw [hi] at hj
    exact Or.inl ⟨rfl, (Option.some.inj hj).symm,
      List.getElem?_set_self (List.getElem?_eq_some_iff.mp hi).1⟩
  · rw [List.getElem?_set_ne (fun e => h e.symm)]
    exact Or.inr ⟨h, hj⟩

/-- A thread that starts to be counted adds one entry. -/
theorem filterMap_set_perm {β : Type*} {f : α → Option β} {l : List α} {i : ℕ} {x y : α} {b : β}
    (h : l[i]? = some x) (hx : f x = none) (hy : f y = some b) :
    ((l.set i y).filterMap f).Perm (b :: l.filterMap f) := by
  induction l generalizing i with
  | nil => simp at h
  | cons a l ih =>
      cases i with
      | zero =>
          simp only [List.getElem?_cons_zero, Option.some.injEq] at h
          subst h
          rw [List.set_cons_zero, List.filterMap_cons_some hy, List.filterMap_cons_none hx]
      | succ i =>
          simp only [List.getElem?_cons_succ] at h
          rw [List.set_cons_succ]
          cases ha : f a with
          | none =>
              rw [List.filterMap_cons_none ha, List.filterMap_cons_none ha]
              exact ih h
          | some c =>
              rw [List.filterMap_cons_some ha, List.filterMap_cons_some ha]
              exact ((ih h).cons c).trans (List.Perm.swap b c _)

/-- A thread that is no longer counted takes one entry away. -/
theorem filterMap_set_perm_of_none {β : Type*} {f : α → Option β} {l : List α} {i : ℕ} {x y : α}
    {b : β} (h : l[i]? = some x) (hx : f x = some b) (hy : f y = none) :
    (l.filterMap f).Perm (b :: (l.set i y).filterMap f) := by
  obtain ⟨hi, hget⟩ := List.getElem?_eq_some_iff.mp h
  have hback : (l.set i y).set i x = l := by
    rw [List.set_set, ← hget, List.set_getElem_self]
  have hperm := filterMap_set_perm (f := f) (y := x) (List.getElem?_set_self hi) hy hx
  rw [hback] at hperm
  exact hperm

/-- A thread that is counted as before leaves the entries. -/
theorem filterMap_set_eq {β : Type*} {f : α → Option β} {l : List α} {i : ℕ} {x y : α}
    (h : l[i]? = some x) (hxy : f y = f x) : (l.set i y).filterMap f = l.filterMap f := by
  induction l generalizing i with
  | nil => rfl
  | cons a l ih =>
      cases i with
      | zero =>
          simp only [List.getElem?_cons_zero, Option.some.injEq] at h
          subst h
          rw [List.set_cons_zero, List.filterMap_cons, List.filterMap_cons, hxy]
      | succ i =>
          simp only [List.getElem?_cons_succ] at h
          rw [List.set_cons_succ, List.filterMap_cons, List.filterMap_cons, ih h]

/-- A thread that looks as before leaves the view of the pool. -/
theorem map_set_eq {β : Type*} {f : α → β} {l : List α} {i : ℕ} {x y : α}
    (h : l[i]? = some x) (hxy : f y = f x) : (l.set i y).map f = l.map f := by
  have hset := @filterMap_set_eq α β (fun x => some (f x)) l i x y h (by rw [hxy])
  simpa only [List.filterMap_eq_map'] using hset

/-- Entries without repetition come from different threads. -/
theorem nodup_filterMap_iff {β : Type*} {f : α → Option β} {l : List α} :
    (l.filterMap f).Nodup ↔ ∀ (i j : ℕ) x y b, l[i]? = some x → l[j]? = some y →
      f x = some b → f y = some b → i = j := by
  unfold List.Nodup
  rw [List.pairwise_filterMap, List.pairwise_iff_getElem]
  constructor
  · intro h i j x y b hi hj hx hy
    obtain ⟨hilt, rfl⟩ := List.getElem?_eq_some_iff.mp hi
    obtain ⟨hjlt, rfl⟩ := List.getElem?_eq_some_iff.mp hj
    rcases Nat.lt_trichotomy i j with hlt | heq | hgt
    · exact absurd rfl (h i j hilt hjlt hlt b hx b hy)
    · exact heq
    · exact absurd rfl (h j i hjlt hilt hgt b hy b hx)
  · rintro h i j hi hj hlt b hx b' hy rfl
    have := h i j _ _ b (List.getElem?_eq_getElem hi) (List.getElem?_eq_getElem hj) hx hy
    omega

theorem set_ne_nil {l : List α} {i : ℕ} {x : α} (y : α) (h : l[i]? = some x) : l.set i y ≠ [] := by
  intro hnil
  rw [List.set_eq_nil_iff] at hnil
  rw [hnil] at h
  exact absurd h (by simp)

end ComputerScience.Lib
