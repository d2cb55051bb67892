/-
  ComputerScience.Psum.Mutex
  ──────────────────────────
  **`psum-mutex`** (`26-parallelism/psum-mutex.c`).

  The invariant is a conservation law: `gsum` is at every moment what the threads have
  added so far, each of them a part of its own range.  Since every part is at most the
  thread's share, `gsum` never exceeds the final sum and does not overflow.

  `main` checks that `nthreads` divides `nelems` and that `log_nelems` is at most 31, but
  nothing about `nthreads` itself: zero is divided by before the check can reject it, a
  negative number starts no thread, and a power of two above `MAXTHREADS` runs past the end
  of `myid` and `tid`.

  Main results:
    • `MutexInv.step` — one step of a thread,
    • `psumMutex_ends`, `psumMutex_no_overflow` — whole runs,
    • `psumMutex_meets_iff` — the arguments on which the program is right.
-/
import ComputerScience.Psum.Routines

namespace ComputerScience.Psum

open ComputerScience.Lib

/-! ## §1. The invariant. -/

/-- Twice what thread `myid` has added to `gsum`. -/
def MutexPc.added (per : ℤ) (myid : ℕ) : MutexPc → ℤ
  | .entry => 0
  | .test i _ => twice (myid * per) i
  | .locked i _ => twice (myid * per) i
  | .loaded i _ _ => twice (myid * per) i
  | .stored i _ => twice (myid * per) (i + 1)
  | .returned => twice (myid * per) (myid * per + per)
  | .overflow => 0

/-- 1 for the thread between `P` and `V`. -/
def MutexPc.holds : MutexPc → ℕ
  | .locked _ _ | .loaded _ _ _ | .stored _ _ => 1
  | _ => 0

/-- The thread is in its range and has not overflowed; what it has read of `gsum` is still
there. -/
def MutexPc.Ok (per : ℤ) (gsum : ℤ) (myid : ℕ) : MutexPc → Prop
  | .entry => True
  | .test i stop => InRange per myid i stop
  | .locked i stop => InRange per myid i stop ∧ i < stop
  | .loaded i stop v => InRange per myid i stop ∧ i < stop ∧ v = gsum
  | .stored i stop => InRange per myid i stop ∧ i < stop
  | .returned => True
  | .overflow => False

structure MutexInv (per : ℤ) (m : MutexMem) (ts : List MutexPc) : Prop where
  each : ∀ (j : ℕ) (t : MutexPc), ts[j]? = some t → t.Ok per m.gsum j
  lock : m.mutex + weight MutexPc.holds ts = 1
  sum : 2 * m.gsum = total (MutexPc.added per) ts

variable {n : ℕ} {per : ℤ} {m : MutexMem} {ts : List MutexPc}

theorem MutexInv.init (per : ℤ) : MutexInv per ⟨0, 1⟩ [] :=
  ⟨by simp, rfl, rfl⟩

theorem MutexInv.create (h : MutexInv per m ts) : MutexInv per m (ts ++ [.entry]) := by
  refine ⟨?_, ?_, ?_⟩
  · intro j t ht
    rcases getElem?_concat_cases ht with hold | ⟨-, rfl⟩
    · exact h.each j t hold
    · trivial
  · rw [weight_concat]
    exact h.lock
  · rw [total_concat]
    exact h.sum.trans (add_zero _).symm

/-- `gsum` lies between zero and the whole sum. -/
theorem MutexInv.gsum_le (h : MutexInv per m ts) (hs : Shares n per) (hlen : ts.length ≤ n) :
    0 ≤ m.gsum ∧ 2 * m.gsum ≤ 2 ^ 62 := by
  have hshare : ∀ (j : ℕ) (t : MutexPc), ts[j]? = some t →
      0 ≤ t.added per j ∧ t.added per j ≤ twice (j * per) (j * per + per) := by
    intro j t ht
    have hj : j < n := Nat.lt_of_lt_of_le (List.getElem?_eq_some_iff.mp ht).1 hlen
    have hok := h.each j t ht
    have hstop := hs.stop_le hj
    have hall := twice_nonneg hstop.1 (show (j : ℤ) * per ≤ j * per + per by
      have := hs.nonneg
      omega)
    cases t with
    | entry => exact ⟨le_refl _, hall⟩
    | test i stop => exact InRange.twice_le hok hs hj
    | locked i stop => exact InRange.twice_le hok.1 hs hj
    | loaded i stop v => exact InRange.twice_le hok.1 hs hj
    | stored i stop => exact (hok.1.next hok.2).twice_le hs hj
    | returned => exact ⟨hall, le_refl _⟩
    | overflow => exact absurd hok (by simp [MutexPc.Ok])
  obtain ⟨h0, hle⟩ := total_bounds hshare
  rw [sum_twice, ← h.sum] at hle
  rw [← h.sum] at h0
  have hnonneg := hs.nonneg
  have hall : (ts.length : ℤ) * per ≤ 2 ^ 31 :=
    (mul_le_mul_of_nonneg_right (by exact_mod_cast hlen) hnonneg).trans hs.bound
  have hmax := twice_le_of_le (le_refl 0) (by positivity) hall
  exact ⟨by omega, hle.trans hmax⟩

/-- While a thread holds the semaphore no other does. -/
theorem MutexInv.alone (h : MutexInv per m ts) {j k : ℕ} {t u : MutexPc}
    (ht : ts[j]? = some t) (hheld : t.holds = 1) (hu : ts[k]? = some u) (hkj : k ≠ j) :
    u.holds = 0 := by
  have hset := weight_set MutexPc.holds .returned ht
  have hle : u.holds ≤ weight MutexPc.holds (ts.set j .returned) :=
    le_weight _ (by rw [List.getElem?_set_ne (Ne.symm hkj)]; exact hu)
  have hlock := h.lock
  simp only [MutexPc.holds] at hset hheld
  omega

/-! ## §2. One step of a thread. -/

/-- A new state of thread `j`, with the share and the hold on the semaphore it now has. -/
theorem MutexInv.set (h : MutexInv per m ts) {j : ℕ} {t : MutexPc} (ht : ts[j]? = some t)
    {m' : MutexMem} {t' : MutexPc} (hok : t'.Ok per m'.gsum j)
    (hother : ∀ (k : ℕ) (u : MutexPc), k ≠ j → ts[k]? = some u → u.Ok per m'.gsum k)
    (hlock : m'.mutex + t'.holds = m.mutex + t.holds)
    (hsum : 2 * m'.gsum - t'.added per j = 2 * m.gsum - t.added per j) :
    MutexInv per m' (ts.set j t') := by
  refine ⟨?_, ?_, ?_⟩
  · intro k u hu
    rcases getElem?_set_cases hu with ⟨rfl, rfl⟩ | ⟨hkj, hu'⟩
    · exact hok
    · exact hother k u hkj hu'
  · have hset := weight_set MutexPc.holds t' ht
    have := h.lock
    omega
  · rw [total_set _ t' ht, ← h.sum]
    omega

/-- **One step of a thread** keeps the invariant. -/
theorem MutexInv.step (h : MutexInv per m ts) (hs : Shares n per) (hlen : ts.length ≤ n) {j : ℕ}
    {t t' : MutexPc} {m' : MutexMem} (ht : ts[j]? = some t)
    (hstep : t.step per j m = some (m', t')) : MutexInv per m' (ts.set j t') := by
  have hj : j < n := Nat.lt_of_lt_of_le (List.getElem?_eq_some_iff.mp ht).1 hlen
  have hok := h.each j t ht
  have hkeep : ∀ (k : ℕ) (u : MutexPc), k ≠ j → ts[k]? = some u → u.Ok per m.gsum k :=
    fun k u _ hu => h.each k u hu
  cases t with
  | entry =>
      rw [MutexPc.step, hs.bounds_eq hj] at hstep
      cases hstep
      have hper := hs.nonneg
      refine h.set ht ⟨le_refl _, by omega, rfl⟩ hkeep rfl ?_
      simp only [MutexPc.added, twice_self]
  | test i stop =>
      rw [MutexPc.step] at hstep
      split at hstep
      next hlt =>
        split at hstep
        next hfree =>
          cases hstep
          refine h.set ht ⟨hok, hlt⟩ hkeep ?_ rfl
          simp only [MutexPc.holds]
          omega
        next => cases hstep
      next hge =>
        cases hstep
        refine h.set ht trivial hkeep rfl ?_
        obtain rfl := hok.at_end hge
        rfl
  | locked i stop =>
      cases hstep
      exact h.set ht ⟨hok.1, hok.2, rfl⟩ hkeep rfl rfl
  | loaded i stop v =>
      obtain ⟨hrange, hlt, rfl⟩ := hok
      obtain ⟨h0, hmax⟩ := h.gsum_le hs hlen
      obtain ⟨hstart, hend⟩ := hs.stop_le hj
      have hlower := hrange.lower
      have heq := hrange.stop_eq
      rw [MutexPc.step, long_eq_some (by omega) (by omega)] at hstep
      cases hstep
      refine h.set ht ⟨hrange, hlt⟩ ?_ rfl ?_
      · -- no other thread has read the old value
        intro k u hkj hu
        have hu' := h.each k u hu
        have hout := h.alone ht rfl hu hkj
        cases u with
        | loaded i' stop' v' => cases hout
        | _ => exact hu'
      · simp only [MutexPc.added, twice_succ]
        ring
  | stored i stop =>
      rw [MutexPc.step, hok.1.long_next hs hj hok.2] at hstep
      cases hstep
      refine h.set ht (hok.1.next hok.2) hkeep rfl rfl
  | returned => cases hstep
  | overflow => cases hstep

/-- What a thread has left to do. -/
def MutexPc.rank (per : ℤ) : MutexPc → ℕ
  | .entry => 4 * per.toNat + 2
  | .test i stop => 4 * (stop - i).toNat + 1
  | .locked i stop => 4 * (stop - i).toNat
  | .loaded i stop _ => 4 * (stop - i).toNat - 1
  | .stored i stop => 4 * (stop - i).toNat - 2
  | .returned => 0
  | .overflow => 0

theorem MutexInv.rank_lt (h : MutexInv per m ts) (hs : Shares n per) (hlen : ts.length ≤ n)
    {j : ℕ} {t t' : MutexPc} {m' : MutexMem} (ht : ts[j]? = some t)
    (hstep : t.step per j m = some (m', t')) : t'.rank per < t.rank per := by
  have hj : j < n := Nat.lt_of_lt_of_le (List.getElem?_eq_some_iff.mp ht).1 hlen
  have hok := h.each j t ht
  -- none of the steps overflows, since the next state is in the invariant too
  have hok' := (h.step hs hlen ht hstep).each j t'
    (List.getElem?_set_self (List.getElem?_eq_some_iff.mp ht).1)
  cases t with
  | entry =>
      rw [MutexPc.step, hs.bounds_eq hj] at hstep
      cases hstep
      simp only [MutexPc.rank]
      omega
  | test i stop =>
      rw [MutexPc.step] at hstep
      split at hstep
      next hlt =>
        split at hstep
        next => cases hstep; simp only [MutexPc.rank]; omega
        next => cases hstep
      next => cases hstep; simp only [MutexPc.rank]; omega
  | locked i stop =>
      cases hstep
      have := hok.2
      simp only [MutexPc.rank]
      omega
  | loaded i stop v =>
      rw [MutexPc.step] at hstep
      split at hstep
      next => cases hstep; have := hok.2.1; simp only [MutexPc.rank]; omega
      next => cases hstep; exact absurd hok' (by simp [MutexPc.Ok])
  | stored i stop =>
      rw [MutexPc.step, hok.1.long_next hs hj hok.2] at hstep
      cases hstep
      have := hok.2
      simp only [MutexPc.rank]
      omega
  | returned => cases hstep
  | overflow => cases hstep

/-- **No deadlock**: a thread that waits for the semaphore waits for one that can move. -/
theorem MutexInv.moves (h : MutexInv per m ts) {j : ℕ} {t : MutexPc} (ht : ts[j]? = some t)
    (hrun : t ≠ .returned) : ∃ (k : ℕ) (u : MutexPc), ts[k]? = some u ∧ (u.step per k m).isSome := by
  have hheld : ∀ (k : ℕ) (u : MutexPc), 0 < u.holds → (u.step per k m).isSome := by
    intro k u hu
    cases u with
    | locked i stop => rfl
    | loaded i stop v =>
        rw [MutexPc.step]
        split <;> rfl
    | stored i stop =>
        rw [MutexPc.step]
        split <;> rfl
    | _ => cases hu
  by_cases hmutex : 0 < m.mutex
  · refine ⟨j, t, ht, ?_⟩
    cases t with
    | entry =>
        rw [MutexPc.step]
        split <;> rfl
    | test i stop =>
        rw [MutexPc.step, if_pos hmutex]
        split <;> rfl
    | locked i stop => exact hheld j _ Nat.one_pos
    | loaded i stop v => exact hheld j _ Nat.one_pos
    | stored i stop => exact hheld j _ Nat.one_pos
    | returned => exact absurd rfl hrun
    | overflow => exact absurd (h.each j _ ht) (by simp [MutexPc.Ok])
  · have hlock := h.lock
    obtain ⟨k, u, hu, hholds⟩ := exists_of_weight_pos MutexPc.holds (l := ts) (by omega)
    exact ⟨k, u, hu, hheld k u hholds⟩

/-! ## §3. Whole runs. -/

theorem mutexInv_reachable (hs : Shares n per) {s : Fork MutexMem MutexPc}
    (h : (forkJoin (sumMutex per) n ⟨0, 1⟩).Reachable s) :
    MutexInv per s.mem s.threads ∧ s.threads.length ≤ n := by
  refine ⟨?_, (Fork.Ok.reachable h).length_le⟩
  refine forkJoin_invariant (MutexInv.init per) ?_ ?_ h
  · intro m ts _ hinv
    exact hinv.create
  · intro m ts j t m' t' hlen hinv ht hstep
    exact hinv.step hs hlen ht hstep

/-- Every run of the threads ends with the sum of the whole range. -/
theorem mutex_ends (hs : Shares n per) : (forkJoin (sumMutex per) n ⟨0, 1⟩).EndsIn fun s =>
    s.main = .joined ∧ 2 * s.mem.gsum = twice 0 (n * per) := by
  have hends := forkJoin_ends (R := sumMutex per) (n := n) (m := ⟨0, 1⟩)
    (I := fun m ts => MutexInv per m ts ∧ ts.length ≤ n) (MutexPc.rank per)
    (fun s h => mutexInv_reachable hs h) ?_ ?_
  · refine ⟨hends.1, ?_⟩
    intro s hr hstuck
    obtain ⟨hmain, hlen, hfin, hinv, -⟩ := hends.2 s hr hstuck
    refine ⟨hmain, ?_⟩
    rw [hinv.sum, total_eq_sum (f := fun j : ℕ => twice (j * per) (j * per + per)), hlen, sum_twice]
    intro j t ht
    obtain ⟨u, hu, hret⟩ := hfin j (by rw [← hlen]; exact (List.getElem?_eq_some_iff.mp ht).1)
    rw [ht] at hu
    cases hu
    rw [show t = .returned from beq_iff_eq.mp hret]
    rfl
  · intro m ts j t m' t' hinv ht hstep
    exact hinv.1.rank_lt hs hinv.2 ht hstep
  · rintro m ts hinv ⟨j, t, ht, hfin⟩
    refine hinv.1.moves ht ?_
    rintro rfl
    simp [sumMutex] at hfin

/-- **`psum-mutex` with a sensible number of threads**: every run ends, with the right sum. -/
theorem psumMutex_ends {nthreads nelems : ℤ} (h1 : 1 ≤ nthreads) (h0 : 0 ≤ nelems)
    (hmax : nelems ≤ 2 ^ 31) (hdvd : nthreads ∣ nelems) :
    (psumMutex nthreads nelems).EndsIn fun s =>
      s.main = .joined ∧ s.mem.gsum = nelems * (nelems - 1) / 2 := by
  obtain ⟨hs, hmul⟩ := shares_of_dvd h1 h0 hmax hdvd
  have hends := mutex_ends hs
  rw [hmul] at hends
  refine ⟨hends.1, ?_⟩
  intro s hr hstuck
  obtain ⟨hmain, hsum⟩ := hends.2 s hr hstuck
  exact ⟨hmain, eq_half_of_twice hsum⟩

/-- No thread overflows. -/
theorem psumMutex_no_overflow {nthreads nelems : ℤ} (h1 : 1 ≤ nthreads) (h0 : 0 ≤ nelems)
    (hmax : nelems ≤ 2 ^ 31) (hdvd : nthreads ∣ nelems) {s : Fork MutexMem MutexPc}
    (hr : (psumMutex nthreads nelems).Reachable s) : .overflow ∉ s.threads := by
  obtain ⟨hs, -⟩ := shares_of_dvd h1 h0 hmax hdvd
  intro hmem
  obtain ⟨j, hj⟩ := List.getElem?_of_mem hmem
  exact (mutexInv_reachable hs hr).1.each j _ hj

/-! ## §4. The arguments on which the program is right. -/

/-- Every index that `main` uses into `myid` and `tid` is inside of these arrays. -/
def IndicesOk (nthreads : ℤ) (s : Fork MutexMem MutexPc) : Prop :=
  ∀ i : ℕ, s.main = .creating i ∨ s.main = .joining i → (i : ℤ) < nthreads → i < maxThreads

/-- No division by zero (or other division error) in `main`, all indices inside of the
arrays, and the right sum at the end of every run. -/
def Meets (undefined : ℤ → ℤ) (nthreads logNelems : ℤ) : Prop :=
  match checkArguments undefined nthreads logNelems with
  | .accepted nelems =>
      (∀ s, (psumMutex nthreads nelems).Reachable s → IndicesOk nthreads s) ∧
      (psumMutex nthreads nelems).EndsIn fun s =>
        s.main = .joined ∧ s.mem.gsum = nelems * (nelems - 1) / 2
  | _ => False

/-- With more than `MAXTHREADS` threads `main` uses an index outside of its arrays. -/
theorem not_indicesOk {nthreads nelems : ℤ} (h : (maxThreads : ℤ) < nthreads) :
    ∃ s, (psumMutex nthreads nelems).Reachable s ∧ ¬ IndicesOk nthreads s := by
  obtain ⟨s, hr, hmain⟩ := reachable_creating (n := nthreads.toNat) (k := maxThreads)
    (sumMutex (nelems.tdiv nthreads)) ⟨0, 1⟩ (by omega)
  refine ⟨s, hr, ?_⟩
  intro hok
  exact absurd (hok maxThreads (Or.inl hmain) h) (Nat.lt_irrefl _)

/-- With a negative number of threads `gsum` stays zero. -/
theorem psumMutex_negative {nthreads nelems : ℤ} (h : nthreads < 0) :
    (∀ s, (psumMutex nthreads nelems).Reachable s → s.mem.gsum = 0) ∧
      (psumMutex nthreads nelems).EndsIn fun s => s.main = .joined ∧ s.mem = ⟨0, 1⟩ := by
  unfold psumMutex
  rw [Int.toNat_of_nonpos h.le]
  refine ⟨?_, forkJoin_zero_ends _ _⟩
  intro s hr
  rw [(forkJoin_zero_mem hr).1]

/-- The sum of more than one element is not zero. -/
theorem half_pos {k : ℕ} (hk : k ≠ 0) : (0 : ℤ) < 2 ^ k * (2 ^ k - 1) / 2 := by
  have hpow : (2 : ℤ) ≤ 2 ^ k := by
    calc (2 : ℤ) = 2 ^ 1 := by norm_num
      _ ≤ 2 ^ k := pow_le_pow_right₀ (by norm_num) (by omega)
  have hprod : (2 : ℤ) ≤ 2 ^ k * (2 ^ k - 1) := by nlinarith
  omega

/-- **`psum-mutex` is right exactly for 1 to `MAXTHREADS` threads**, apart from the one case
where a sum of nothing, computed by no thread, is expected: -1 threads for one element. -/
theorem psumMutex_meets_iff (undefined : ℤ → ℤ) (nthreads logNelems : ℤ) (h0 : 0 ≤ logNelems)
    (h : checkArguments undefined nthreads logNelems ≠ .rejected) :
    Meets undefined nthreads logNelems ↔
      (1 ≤ nthreads ∧ nthreads ≤ maxThreads) ∨ (nthreads = -1 ∧ logNelems = 0) := by
  unfold Meets
  rcases checkArguments_cases undefined h0 h with ⟨rfl, hcheck⟩ | ⟨rfl, hlog, hcheck⟩ |
    ⟨hne, hlog, hdvd, hcheck⟩
  · rw [hcheck]
    simp
  · rw [hcheck]
    simp
    omega
  · rw [hcheck]
    have hpos : (0 : ℤ) ≤ 2 ^ logNelems.toNat := by positivity
    constructor
    · rintro ⟨hindex, hends⟩
      rcases Int.lt_or_gt_of_ne hne with hneg | hposn
      · -- no thread runs: the expected sum is zero for one element only
        right
        obtain ⟨s, hr, -, hgsum⟩ := hends.exists_good rfl
        rw [(psumMutex_negative hneg).1 s hr] at hgsum
        have hlog0 : logNelems = 0 := by
          by_contra hlog0
          have := half_pos (k := logNelems.toNat) (by omega)
          omega
        subst hlog0
        refine ⟨?_, rfl⟩
        have hunit : IsUnit nthreads := isUnit_of_dvd_one (by simpa using hdvd)
        rcases Int.isUnit_iff.mp hunit with rfl | rfl
        · omega
        · rfl
      · left
        refine ⟨hposn, ?_⟩
        by_contra hmany
        obtain ⟨s, hr, hbad⟩ := @not_indicesOk nthreads (2 ^ logNelems.toNat) (not_le.mp hmany)
        exact hbad (hindex s hr)
    · rintro (⟨h1, hmany⟩ | ⟨rfl, rfl⟩)
      · refine ⟨?_, psumMutex_ends h1 hpos (two_pow_le hlog) hdvd⟩
        intro s _ i _ hi
        omega
      · refine ⟨?_, ?_⟩
        · intro s _ i _ hi
          omega
        · have hneg : (-1 : ℤ) < 0 := by omega
          have hends := (@psumMutex_negative (-1) (2 ^ (0 : ℤ).toNat) hneg).2
          refine ⟨hends.1, ?_⟩
          intro s hr hstuck
          obtain ⟨hmain, hmem⟩ := hends.2 s hr hstuck
          refine ⟨hmain, ?_⟩
          rw [hmem]
          rfl

/-- Four threads, 1024 elements. -/
theorem psumMutex_meets_iff_four : Meets (fun _ => 0) 4 10 :=
  (psumMutex_meets_iff (fun _ => 0) 4 10 (by decide) (by decide)).mpr (.inl (by decide))

/-- 64 threads for 64 elements are accepted, and index 32 is used. -/
theorem psumMutex_index_out_of_range :
    checkArguments (fun _ => 0) 64 6 = .accepted 64 ∧ ¬ Meets (fun _ => 0) 64 6 := by
  have hcheck : checkArguments (fun _ => 0) 64 6 = .accepted 64 := by decide
  refine ⟨hcheck, ?_⟩
  unfold Meets
  rw [hcheck]
  rintro ⟨hindex, -⟩
  obtain ⟨s, hr, hbad⟩ := @not_indicesOk 64 64 (by decide)
  exact hbad (hindex s hr)

end ComputerScience.Psum
