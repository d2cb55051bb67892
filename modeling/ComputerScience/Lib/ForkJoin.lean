/-
  ComputerScience.Lib.ForkJoin
  ────────────────────────────
  **FORK–JOIN PROGRAMS.**

  A main thread creates `n` threads of one routine, one after another, and then waits for
  them in the same order; the threads share a memory and are numbered by their creation.
  Every interleaving is a run.  The rules:

    • `Fork.Ok.reachable` — where the main thread is tells how many threads there are and
      which of them have finished,
    • `forkJoin_invariant` — an invariant of the memory and the threads,
    • `forkJoin_each` — the same for threads that do not interfere, one thread at a time,
    • `forkJoin_ends` — every run ends with all threads joined.

  `total` adds up what each thread has done, by its number.
-/
import ComputerScience.Lib.Pool
import ComputerScience.Lib.TransitionSystem
import Mathlib.Algebra.BigOperators.Intervals
import Mathlib.Algebra.BigOperators.Group.List.Basic
import Mathlib.Algebra.Order.BigOperators.Group.List
import Mathlib.Algebra.Ring.Int.Defs
import Mathlib.Data.Int.Order.Basic

namespace ComputerScience.Lib

/-! ## §1. The system. -/

/-- A thread routine over a memory `M` with local states `L`. -/
structure Routine (M L : Type*) where
  /-- The local state of a new thread. -/
  enter : L
  /-- The next step of thread `j`; `none` if it waits or has no step left. -/
  step : ℕ → M → L → Option (M × L)
  finished : L → Bool
  stop : ∀ j m l, finished l = true → step j m l = none

/-- Where the main thread is. -/
inductive MainPc where
  /-- at the test of the first loop -/
  | creating (i : ℕ)
  /-- at the test of the second loop -/
  | joining (i : ℕ)
  | joined
  deriving DecidableEq, Repr

structure Fork (M L : Type*) where
  mem : M
  threads : List L
  main : MainPc

variable {M L : Type*}

/-- One step of the main thread or of a thread it has created. -/
inductive ForkStep (R : Routine M L) (n : ℕ) (s : Fork M L) : Fork M L → Prop where
  | create (i : ℕ) (h : s.main = .creating i) (hi : i < n) :
      ForkStep R n s ⟨s.mem, s.threads ++ [R.enter], .creating (i + 1)⟩
  | createEnd (i : ℕ) (h : s.main = .creating i) (hi : n ≤ i) :
      ForkStep R n s { s with main := .joining 0 }
  | join (i : ℕ) (t : L) (h : s.main = .joining i) (hi : i < n) (ht : s.threads[i]? = some t)
      (hfin : R.finished t = true) :
      ForkStep R n s { s with main := .joining (i + 1) }
  | joinEnd (i : ℕ) (h : s.main = .joining i) (hi : n ≤ i) :
      ForkStep R n s { s with main := .joined }
  | thread (j : ℕ) (t t' : L) (m' : M) (ht : s.threads[j]? = some t)
      (hstep : R.step j s.mem t = some (m', t')) :
      ForkStep R n s { s with mem := m', threads := s.threads.set j t' }

/-- The program with `n` threads that starts in the memory `m`. -/
def forkJoin (R : Routine M L) (n : ℕ) (m : M) : System (Fork M L) where
  init s := s = ⟨m, [], .creating 0⟩
  step := ForkStep R n

variable {R : Routine M L} {n : ℕ} {m : M}

/-! ## §2. The main thread. -/

/-- The first `k` threads exist and have finished. -/
def FinishedBelow (R : Routine M L) (k : ℕ) (ts : List L) : Prop :=
  ∀ j < k, ∃ t, ts[j]? = some t ∧ R.finished t = true

/-- A step of a thread is not one of a finished thread. -/
theorem FinishedBelow.set {k j : ℕ} {ts : List L} {t t' : L} {m m' : M}
    (h : FinishedBelow R k ts) (ht : ts[j]? = some t) (hstep : R.step j m t = some (m', t')) :
    FinishedBelow R k (ts.set j t') := by
  intro i hi
  obtain ⟨u, hu, hfin⟩ := h i hi
  have hij : i ≠ j := by
    rintro rfl
    rw [ht] at hu
    cases hu
    rw [R.stop i m t hfin] at hstep
    cases hstep
  exact ⟨u, by rw [List.getElem?_set_ne (Ne.symm hij)]; exact hu, hfin⟩

/-- What the place of the main thread tells. -/
def Fork.Ok (R : Routine M L) (n : ℕ) (s : Fork M L) : Prop :=
  match s.main with
  | .creating i => s.threads.length = i ∧ i ≤ n
  | .joining i => s.threads.length = n ∧ i ≤ n ∧ FinishedBelow R i s.threads
  | .joined => s.threads.length = n ∧ FinishedBelow R n s.threads

theorem Fork.Ok.step {s s' : Fork M L} (h : s.Ok R n) (hstep : ForkStep R n s s') :
    s'.Ok R n := by
  cases hstep with
  | create i hmain hi =>
      rw [Fork.Ok, hmain] at h
      show (s.threads ++ [R.enter]).length = i + 1 ∧ i + 1 ≤ n
      rw [List.length_append, h.1]
      exact ⟨rfl, hi⟩
  | createEnd i hmain hi =>
      rw [Fork.Ok, hmain] at h
      refine ⟨?_, Nat.zero_le n, fun j hj => by omega⟩
      show s.threads.length = n
      omega
  | join i t hmain hi ht hfin =>
      rw [Fork.Ok, hmain] at h
      refine ⟨h.1, hi, ?_⟩
      intro j hj
      by_cases hji : j = i
      · rw [hji]
        exact ⟨t, ht, hfin⟩
      · exact h.2.2 j (by omega)
  | joinEnd i hmain hi =>
      rw [Fork.Ok, hmain] at h
      refine ⟨h.1, ?_⟩
      rw [show n = i by omega]
      exact h.2.2
  | thread j t t' m' ht hstep =>
      unfold Fork.Ok at h ⊢
      cases hmain : s.main with
      | creating i =>
          simp only [hmain] at h ⊢
          rw [List.length_set]
          exact h
      | joining i =>
          simp only [hmain] at h ⊢
          rw [List.length_set]
          exact ⟨h.1, h.2.1, h.2.2.set ht hstep⟩
      | joined =>
          simp only [hmain] at h ⊢
          rw [List.length_set]
          exact ⟨h.1, h.2.set ht hstep⟩

theorem Fork.Ok.reachable {s : Fork M L} (h : (forkJoin R n m).Reachable s) : s.Ok R n := by
  refine h.invariant ?_ (fun _ _ _ hok hstep => hok.step hstep)
  rintro s rfl
  exact ⟨rfl, Nat.zero_le n⟩

theorem Fork.Ok.length_le {s : Fork M L} (h : s.Ok R n) : s.threads.length ≤ n := by
  unfold Fork.Ok at h
  split at h <;> omega

/-! ## §3. Invariants. -/

/-- **The invariant rule**: what holds in the first memory without threads, when a thread is
created, and after a step of any thread. -/
theorem forkJoin_invariant {I : M → List L → Prop} (h0 : I m [])
    (hcreate : ∀ m ts, ts.length < n → I m ts → I m (ts ++ [R.enter]))
    (hstep : ∀ m ts j t m' t', ts.length ≤ n → I m ts → ts[j]? = some t →
      R.step j m t = some (m', t') → I m' (ts.set j t'))
    {s : Fork M L} (h : (forkJoin R n m).Reachable s) : I s.mem s.threads := by
  refine h.invariant (I := fun s => I s.mem s.threads) ?_ ?_
  · rintro s rfl
    exact h0
  · intro s s' hr hI hs
    have hok := Fork.Ok.reachable hr
    cases hs with
    | create i hmain hi =>
        rw [Fork.Ok, hmain] at hok
        exact hcreate s.mem s.threads (by omega) hI
    | createEnd i hmain hi => exact hI
    | join i t hmain hi ht hfin => exact hI
    | joinEnd i hmain hi => exact hI
    | thread j t t' m' ht hs => exact hstep s.mem s.threads j t m' t' hok.length_le hI ht hs

/-- **The rule for threads that do not interfere**: `T j` is about thread `j` (`none` before
it is created) and its part of the memory, which no other thread touches. -/
theorem forkJoin_each {T : ℕ → M → Option L → Prop} (h0 : ∀ j, T j m none)
    (hcreate : ∀ j m, j < n → T j m none → T j m (some R.enter))
    (hown : ∀ j m t m' t', j < n → T j m (some t) → R.step j m t = some (m', t') →
      T j m' (some t'))
    (hframe : ∀ k j m t m' t' o, k ≠ j → T k m o → R.step j m t = some (m', t') → T k m' o)
    {s : Fork M L} (h : (forkJoin R n m).Reachable s) : ∀ j, T j s.mem s.threads[j]? := by
  refine forkJoin_invariant (I := fun m ts => ∀ j, T j m ts[j]?) (by simpa using h0) ?_ ?_ h
  · intro m ts hlen hT j
    by_cases hj : j = ts.length
    · have hnone := hT j
      rw [List.getElem?_eq_none (by omega)] at hnone
      rw [hj, List.getElem?_concat_length]
      exact hcreate _ m hlen (by rw [← hj]; exact hnone)
    · have hsame : (ts ++ [R.enter])[j]? = ts[j]? := by
        rcases Nat.lt_or_gt_of_ne hj with hlt | hgt
        · exact List.getElem?_append_left hlt
        · rw [List.getElem?_eq_none (by simp; omega), List.getElem?_eq_none (by omega)]
      rw [hsame]
      exact hT j
  · intro m ts j t m' t' hlen hT ht hstep k
    have hj := (List.getElem?_eq_some_iff.mp ht).1
    by_cases hkj : k = j
    · subst hkj
      rw [List.getElem?_set_self hj]
      exact hown k m t m' t' (by omega) (by rw [← ht]; exact hT k) hstep
    · rw [List.getElem?_set_ne (Ne.symm hkj)]
      exact hframe k j m t m' t' _ hkj (hT k) hstep

/-! ## §4. Every run ends. -/

/-- What the main thread and the threads still have to do, if a thread's part of it is
`rank`. -/
def Fork.left (R : Routine M L) (n : ℕ) (rank : L → ℕ) (s : Fork M L) : ℕ :=
  weight rank s.threads +
    match s.main with
    | .creating i => (n - i) * (rank R.enter + 1) + n + 2
    | .joining i => n - i + 1
    | .joined => 0

/-- **The termination rule**: if each step of a thread decreases its rank, and some thread
can move while one has not finished, every run ends with all threads joined. -/
theorem forkJoin_ends {I : M → List L → Prop} (rank : L → ℕ)
    (hI : ∀ s, (forkJoin R n m).Reachable s → I s.mem s.threads)
    (hrank : ∀ m ts j t m' t', I m ts → ts[j]? = some t → R.step j m t = some (m', t') →
      rank t' < rank t)
    (hmoves : ∀ m ts, I m ts → (∃ (j : ℕ) (t : L), ts[j]? = some t ∧ R.finished t = false) →
      ∃ (j : ℕ) (t : L), ts[j]? = some t ∧ (R.step j m t).isSome) :
    (forkJoin R n m).EndsIn fun s => s.main = .joined ∧ s.threads.length = n ∧
      (∀ j < n, ∃ t, s.threads[j]? = some t ∧ R.finished t = true) ∧ I s.mem s.threads := by
  refine System.ends_of_measure (Fork.left R n rank) ?_ ?_
  · intro s s' hr hstep
    cases hstep with
    | create i hmain hi =>
        have hturns : (n - i) * (rank R.enter + 1) =
            (n - (i + 1)) * (rank R.enter + 1) + (rank R.enter + 1) := by
          rw [← Nat.succ_mul]
          congr 1
          omega
        simp only [Fork.left, hmain, weight_concat]
        omega
    | createEnd i hmain hi =>
        simp only [Fork.left, hmain]
        omega
    | join i t hmain hi ht hfin =>
        simp only [Fork.left, hmain]
        omega
    | joinEnd i hmain hi =>
        simp only [Fork.left, hmain]
        omega
    | thread j t t' m' ht hs =>
        have hlt := hrank _ _ j t m' t' (hI s hr) ht hs
        have hset := weight_set rank t' ht
        simp only [Fork.left]
        omega
  · intro s hr hstuck
    have hok := Fork.Ok.reachable hr
    have hinv := hI s hr
    cases hmain : s.main with
    | creating i =>
        exfalso
        rcases Nat.lt_or_ge i n with hi | hi
        · exact hstuck _ (.create i hmain hi)
        · exact hstuck _ (.createEnd i hmain hi)
    | joining i =>
        exfalso
        rw [Fork.Ok, hmain] at hok
        rcases Nat.lt_or_ge i n with hi | hi
        · obtain ⟨t, ht⟩ : ∃ t, s.threads[i]? = some t :=
            ⟨_, List.getElem?_eq_getElem (by omega)⟩
          cases hfin : R.finished t with
          | true => exact hstuck _ (.join i t hmain hi ht hfin)
          | false =>
              obtain ⟨j, u, hu, hmove⟩ := hmoves s.mem s.threads hinv ⟨i, t, ht, hfin⟩
              obtain ⟨⟨m', u'⟩, hs⟩ := Option.isSome_iff_exists.mp hmove
              exact hstuck _ (.thread j u u' m' hu hs)
        · exact hstuck _ (.joinEnd i hmain hi)
    | joined =>
        rw [Fork.Ok, hmain] at hok
        exact ⟨rfl, hok.1, hok.2, hinv⟩

/-- Without threads nothing happens to the memory. -/
theorem forkJoin_zero_mem {s : Fork M L} (h : (forkJoin R 0 m).Reachable s) :
    s.mem = m ∧ s.threads = [] := by
  refine forkJoin_invariant (I := fun m' ts => m' = m ∧ ts = []) ⟨rfl, rfl⟩ ?_ ?_ h
  · intro _ ts hlen
    omega
  · rintro _ ts j t _ _ _ ⟨-, rfl⟩ ht
    simp at ht

theorem forkJoin_zero_ends (R : Routine M L) (m : M) :
    (forkJoin R 0 m).EndsIn fun s => s.main = .joined ∧ s.mem = m := by
  have hends := forkJoin_ends (I := fun m' ts => m' = m ∧ ts = []) (R := R) (n := 0) (m := m)
    (fun _ => 0) (fun s h => forkJoin_zero_mem h) ?_ ?_
  · refine ⟨hends.1, ?_⟩
    intro s hr hstuck
    obtain ⟨hmain, -, -, hmem, -⟩ := hends.2 s hr hstuck
    exact ⟨hmain, hmem⟩
  · rintro _ ts j t _ _ ⟨-, rfl⟩ ht
    simp at ht
  · rintro _ ts ⟨-, rfl⟩ ⟨j, t, ht, -⟩
    simp at ht

/-- The main thread may create all its threads before one of them moves. -/
theorem reachable_creating (R : Routine M L) (m : M) {k : ℕ} (hk : k ≤ n) :
    ∃ s, (forkJoin R n m).Reachable s ∧ s.main = .creating k := by
  induction k with
  | zero => exact ⟨_, System.Reachable.of_init rfl, rfl⟩
  | succ k ih =>
      obtain ⟨s, hr, hmain⟩ := ih (by omega)
      exact ⟨_, hr.tail (ForkStep.create k hmain hk), rfl⟩

/-! ## §5. What the threads have done together. -/

/-- The sum over the threads of what each has done, by its number. -/
def total (w : ℕ → L → ℤ) (ts : List L) : ℤ := (ts.mapIdx w).sum

variable {w : ℕ → L → ℤ} {ts : List L}

theorem total_concat (w : ℕ → L → ℤ) (ts : List L) (t : L) :
    total w (ts ++ [t]) = total w ts + w ts.length t := by
  unfold total
  rw [List.mapIdx_concat, List.sum_append, List.sum_singleton]

/-- Replacing one thread moves its share out and the new one in. -/
theorem total_set (w : ℕ → L → ℤ) {j : ℕ} {t : L} (t' : L) (h : ts[j]? = some t) :
    total w (ts.set j t') = total w ts - w j t + w j t' := by
  obtain ⟨hj, hget⟩ := List.getElem?_eq_some_iff.mp h
  unfold total
  rw [List.mapIdx_set, List.sum_set']
  simp only [List.length_mapIdx, hj, dif_pos, List.getElem_mapIdx, hget]
  omega

/-- The sum of equal shares. -/
theorem total_eq_sum {f : ℕ → ℤ} (h : ∀ j t, ts[j]? = some t → w j t = f j) :
    total w ts = ∑ j ∈ Finset.range ts.length, f j := by
  induction ts using List.reverseRecOn with
  | nil => rfl
  | append_singleton ts t ih =>
      have hlast := h ts.length t List.getElem?_concat_length
      rw [total_concat, List.length_append, List.length_singleton, Finset.sum_range_succ, hlast,
        ih fun j u hu => h j u (by
          rw [List.getElem?_append_left (List.getElem?_eq_some_iff.mp hu).1]
          exact hu)]

/-- Bounds on each share are bounds on the sum. -/
theorem total_bounds {f : ℕ → ℤ} (h : ∀ j t, ts[j]? = some t → 0 ≤ w j t ∧ w j t ≤ f j) :
    0 ≤ total w ts ∧ total w ts ≤ ∑ j ∈ Finset.range ts.length, f j := by
  induction ts using List.reverseRecOn with
  | nil => exact ⟨le_refl _, le_refl _⟩
  | append_singleton ts t ih =>
      have hlast := h ts.length t List.getElem?_concat_length
      have hrest := ih fun j u hu => h j u (by
        rw [List.getElem?_append_left (List.getElem?_eq_some_iff.mp hu).1]
        exact hu)
      rw [total_concat, List.length_append, List.length_singleton, Finset.sum_range_succ]
      omega

end ComputerScience.Lib
