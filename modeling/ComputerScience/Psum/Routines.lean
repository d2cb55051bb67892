/-
  ComputerScience.Psum.Routines
  ─────────────────────────────
  **THREE PARALLEL SUMS** (`26-parallelism/psum-mutex.c`, `psum-array.c`, `psum-local.c`).

  Each program adds up `0, …, nelems - 1` with `nthreads` threads, of which thread `myid`
  adds its `nelems_per_thread` elements to

      psum-mutex   the global `gsum`, under a semaphore
      psum-array   the element `psum[myid]`
      psum-local   a local variable, which it stores in `psum[myid]` at the end.

  The three `main`s read and check their arguments in the same way and create and join the
  threads in the same way; the last two then add up the array.  A read and the write that
  follows it are two steps.  A `long` is an integer, and a result that does not fit puts the
  thread in the state `overflow`.

  The printing and the `exit`s of `main` are left out, and so is a `Pthread_create` that
  fails, which ends the process.
-/
import ComputerScience.Lib.ForkJoin
import ComputerScience.Lib.Loop
import Mathlib.Tactic.Linarith

namespace ComputerScience.Psum

open ComputerScience.Lib

/-! ## §1. `main`. -/

/-- The result of an operation on `long`s; `none` is an overflow. -/
def long (x : ℤ) : Option ℤ := if -2 ^ 63 ≤ x ∧ x < 2 ^ 63 then some x else none

theorem long_eq_some {x : ℤ} (h0 : 0 ≤ x) (h1 : x < 2 ^ 63) : long x = some x :=
  if_pos ⟨by omega, h1⟩

def maxThreads : ℕ := 32

/-- How the part of `main` before the threads ends. -/
inductive Checked where
  /-- "Error: invalid nelems" -/
  | rejected
  | divisionByZero
  /-- the quotient of the least `long` and -1 -/
  | overflow
  | accepted (nelems : ℤ)
  deriving DecidableEq, Repr

/-- `1L << log_nelems`; `undefined` is what the machine makes of a shift that C does not
define. -/
def shift (undefined : ℤ → ℤ) (logNelems : ℤ) : ℤ :=
  if 0 ≤ logNelems ∧ logNelems < 63 then 2 ^ logNelems.toNat else undefined logNelems

/-- The check of the arguments.  The remainder is evaluated first. -/
def checkArguments (undefined : ℤ → ℤ) (nthreads logNelems : ℤ) : Checked :=
  let nelems := shift undefined logNelems
  if nthreads = 0 then .divisionByZero
  else if nelems = -2 ^ 63 ∧ nthreads = -1 then .overflow
  else if nelems.tmod nthreads ≠ 0 ∨ logNelems > 31 then .rejected
  else .accepted nelems

/-- The last loop of `psum-array` and `psum-local`. -/
def sumPartials (nthreads : ℤ) (psum : ℕ → ℤ) : Option ℤ :=
  forLoop 0 nthreads.toNat 1 (fun i result => long (result + psum i)) 0

/-! ## §2. The thread routines. -/

/-- `long start = myid * nelems_per_thread; long end = start + nelems_per_thread;` -/
def bounds (per : ℤ) (myid : ℕ) : Option (ℤ × ℤ) :=
  (long (myid * per)).bind fun start => (long (start + per)).map fun stop => (start, stop)

/-- The global variables of `psum-mutex`. -/
structure MutexMem where
  gsum : ℤ
  mutex : ℕ

/-- Where a thread in `sum_mutex` is. -/
inductive MutexPc where
  | entry
  /-- at the test `i < end`, before `P(&mutex)` -/
  | test (i stop : ℤ)
  /-- before `gsum` is read -/
  | locked (i stop : ℤ)
  /-- `gsum` was read, before it is written -/
  | loaded (i stop v : ℤ)
  /-- before `V(&mutex)` and `i++` -/
  | stored (i stop : ℤ)
  | returned
  | overflow
  deriving DecidableEq, Repr

def MutexPc.step (per : ℤ) (myid : ℕ) (m : MutexMem) : MutexPc → Option (MutexMem × MutexPc)
  | .entry =>
      match bounds per myid with
      | some (start, stop) => some (m, .test start stop)
      | none => some (m, .overflow)
  | .test i stop =>
      if i < stop then
        -- `P` waits for a positive semaphore
        if 0 < m.mutex then some ({ m with mutex := m.mutex - 1 }, .locked i stop) else none
      else some (m, .returned)
  | .locked i stop => some (m, .loaded i stop m.gsum)
  | .loaded i stop v =>
      match long (v + i) with
      | some g => some ({ m with gsum := g }, .stored i stop)
      | none => some (m, .overflow)
  | .stored i stop =>
      match long (i + 1) with
      | some i' => some ({ m with mutex := m.mutex + 1 }, .test i' stop)
      | none => some (m, .overflow)
  | .returned => none
  | .overflow => none

/-- `sum_mutex` -/
def sumMutex (per : ℤ) : Routine MutexMem MutexPc where
  enter := .entry
  step := MutexPc.step per
  finished t := t == .returned
  stop myid m t h := by
    rw [beq_iff_eq.mp h]
    rfl

/-- Where a thread in `sum_array` is. -/
inductive ArrayPc where
  | entry
  /-- at the test `i < end` -/
  | test (i stop : ℤ)
  /-- `psum[myid]` was read, before it is written and `i++` -/
  | loaded (i stop v : ℤ)
  | returned
  | overflow
  deriving DecidableEq, Repr

def ArrayPc.step (per : ℤ) (myid : ℕ) (psum : ℕ → ℤ) : ArrayPc → Option ((ℕ → ℤ) × ArrayPc)
  | .entry =>
      match bounds per myid with
      | some (start, stop) => some (psum, .test start stop)
      | none => some (psum, .overflow)
  | .test i stop =>
      if i < stop then some (psum, .loaded i stop (psum myid)) else some (psum, .returned)
  | .loaded i stop v =>
      match long (v + i), long (i + 1) with
      | some s, some i' => some (Function.update psum myid s, .test i' stop)
      | _, _ => some (psum, .overflow)
  | .returned => none
  | .overflow => none

/-- `sum_array` -/
def sumArray (per : ℤ) : Routine (ℕ → ℤ) ArrayPc where
  enter := .entry
  step := ArrayPc.step per
  finished t := t == .returned
  stop myid m t h := by
    rw [beq_iff_eq.mp h]
    rfl

/-- Where a thread in `sum_local` is. -/
inductive LocalPc where
  | entry
  /-- at the test `i < end` -/
  | test (i stop sum : ℤ)
  | returned
  | overflow
  deriving DecidableEq, Repr

def LocalPc.step (per : ℤ) (myid : ℕ) (psum : ℕ → ℤ) : LocalPc → Option ((ℕ → ℤ) × LocalPc)
  | .entry =>
      match bounds per myid with
      | some (start, stop) => some (psum, .test start stop 0)
      | none => some (psum, .overflow)
  | .test i stop sum =>
      if i < stop then
        match long (sum + i), long (i + 1) with
        | some s, some i' => some (psum, .test i' stop s)
        | _, _ => some (psum, .overflow)
      else some (Function.update psum myid sum, .returned)
  | .returned => none
  | .overflow => none

/-- `sum_local` -/
def sumLocal (per : ℤ) : Routine (ℕ → ℤ) LocalPc where
  enter := .entry
  step := LocalPc.step per
  finished t := t == .returned
  stop myid m t h := by
    rw [beq_iff_eq.mp h]
    rfl

/-- The runs of `psum-mutex` with arguments that `main` has accepted; the two loops of
`main` have no turn for a negative number of threads. -/
def psumMutex (nthreads nelems : ℤ) : System (Fork MutexMem MutexPc) :=
  forkJoin (sumMutex (nelems.tdiv nthreads)) nthreads.toNat ⟨0, 1⟩

/-- The runs of `psum-array`. -/
def psumArray (nthreads nelems : ℤ) : System (Fork (ℕ → ℤ) ArrayPc) :=
  forkJoin (sumArray (nelems.tdiv nthreads)) nthreads.toNat fun _ => 0

/-- The runs of `psum-local`. -/
def psumLocal (nthreads nelems : ℤ) : System (Fork (ℕ → ℤ) LocalPc) :=
  forkJoin (sumLocal (nelems.tdiv nthreads)) nthreads.toNat fun _ => 0

/-! ## §3. The range of a thread. -/

/-- Twice the sum of the numbers from `a` to `b - 1`. -/
def twice (a b : ℤ) : ℤ := b * (b - 1) - a * (a - 1)

theorem twice_self (a : ℤ) : twice a a = 0 := sub_self _

theorem twice_succ (a b : ℤ) : twice a (b + 1) = twice a b + 2 * b := by
  unfold twice
  ring

theorem twice_mono {a b c : ℤ} (hb : 0 ≤ b) (hbc : b ≤ c) : twice a b ≤ twice a c := by
  unfold twice
  rcases hbc.lt_or_eq with hlt | rfl
  · nlinarith [mul_nonneg (sub_nonneg.mpr hlt.le) (show (0 : ℤ) ≤ b + c - 1 by omega)]
  · exact le_refl _

theorem twice_nonneg {a b : ℤ} (ha : 0 ≤ a) (hab : a ≤ b) : 0 ≤ twice a b := by
  rw [← twice_self a]
  exact twice_mono ha hab

/-- The threads' ranges make up the whole range. -/
theorem sum_twice (per : ℤ) (n : ℕ) :
    ∑ j ∈ Finset.range n, twice (j * per) (j * per + per) = twice 0 (n * per) := by
  have hterm : ∀ j : ℕ, twice (j * per) (j * per + per) =
      ((j + 1 : ℕ) * per) * ((j + 1 : ℕ) * per - 1) - (j * per) * (j * per - 1) := by
    intro j
    unfold twice
    push_cast
    ring
  simp only [hterm]
  rw [Finset.sum_range_sub (fun j : ℕ => ((j : ℤ) * per) * ((j : ℤ) * per - 1))]
  simp [twice]

/-- `n` threads with `per` elements each, no more than `2^31` in all. -/
structure Shares (n : ℕ) (per : ℤ) : Prop where
  nonneg : 0 ≤ per
  bound : n * per ≤ 2 ^ 31

variable {n : ℕ} {per : ℤ}

/-- The indices of a thread are small. -/
theorem Shares.stop_le (h : Shares n per) {myid : ℕ} (hid : myid < n) :
    0 ≤ (myid : ℤ) * per ∧ (myid : ℤ) * per + per ≤ 2 ^ 31 := by
  have hnonneg := h.nonneg
  refine ⟨by positivity, ?_⟩
  have hle : ((myid : ℤ) + 1) * per ≤ n * per := by
    have : (myid : ℤ) + 1 ≤ n := by omega
    exact mul_le_mul_of_nonneg_right this h.nonneg
  linarith [h.bound]

/-- `start` and `end` are computed without overflow. -/
theorem Shares.bounds_eq (h : Shares n per) {myid : ℕ} (hid : myid < n) :
    bounds per myid = some (myid * per, myid * per + per) := by
  obtain ⟨h0, hstop⟩ := h.stop_le hid
  have hper := h.nonneg
  unfold bounds
  rw [long_eq_some h0 (by omega), Option.bind_some, long_eq_some (by omega) (by omega)]
  rfl

/-- `i` is a place in the range of the thread. -/
structure InRange (per : ℤ) (myid : ℕ) (i stop : ℤ) : Prop where
  lower : myid * per ≤ i
  upper : i ≤ stop
  stop_eq : stop = myid * per + per

theorem InRange.next {myid : ℕ} {i stop : ℤ} (h : InRange per myid i stop) (hlt : i < stop) :
    InRange per myid (i + 1) stop :=
  ⟨by have := h.lower; omega, hlt, h.stop_eq⟩

/-- The loop ends at the end of the range. -/
theorem InRange.at_end {myid : ℕ} {i stop : ℤ} (h : InRange per myid i stop) (hge : ¬ i < stop) :
    i = myid * per + per :=
  (le_antisymm h.upper (not_lt.mp hge)).trans h.stop_eq

/-- The next index does not overflow. -/
theorem InRange.long_next {myid : ℕ} {i stop : ℤ} (h : InRange per myid i stop)
    (hs : Shares n per) (hid : myid < n) (hlt : i < stop) : long (i + 1) = some (i + 1) := by
  obtain ⟨h0, hstop⟩ := hs.stop_le hid
  have := h.lower
  have := h.stop_eq
  exact long_eq_some (by omega) (by omega)

/-- What a thread has added is at most its share. -/
theorem InRange.twice_le {myid : ℕ} {i stop : ℤ} (h : InRange per myid i stop)
    (hs : Shares n per) (hid : myid < n) :
    0 ≤ twice (myid * per) i ∧ twice (myid * per) i ≤ twice (myid * per) (myid * per + per) := by
  obtain ⟨h0, -⟩ := hs.stop_le hid
  refine ⟨twice_nonneg h0 h.lower, twice_mono (h0.trans h.lower) ?_⟩
  rw [← h.stop_eq]
  exact h.upper

/-- Sums up to `2^31` are small. -/
theorem twice_le_of_le {a b : ℤ} (ha : 0 ≤ a) (hb0 : 0 ≤ b) (hb : b ≤ 2 ^ 31) :
    twice a b ≤ 2 ^ 62 := by
  have hsub : twice a b ≤ twice 0 b := by
    unfold twice
    rcases ha.lt_or_eq with hlt | rfl
    · nlinarith [mul_nonneg ha (show (0 : ℤ) ≤ a - 1 by omega)]
    · exact le_refl _
  have hmax : twice 0 b ≤ twice 0 (2 ^ 31) := twice_mono hb0 hb
  have hval : twice 0 (2 ^ 31) ≤ 2 ^ 62 := by
    unfold twice
    norm_num
  exact hsub.trans (hmax.trans hval)

/-! ## §4. The arguments that are accepted. -/

/-- `1L << log_nelems` for the values that the check lets through. -/
theorem shift_eq (undefined : ℤ → ℤ) {logNelems : ℤ} (h0 : 0 ≤ logNelems) (h : logNelems ≤ 31) :
    shift undefined logNelems = 2 ^ logNelems.toNat :=
  if_pos ⟨h0, by omega⟩

theorem two_pow_le {logNelems : ℤ} (h : logNelems ≤ 31) : (2 : ℤ) ^ logNelems.toNat ≤ 2 ^ 31 :=
  pow_le_pow_right₀ (by norm_num) (by omega)

/-- A divisor of `2^log_nelems` passes the check. -/
theorem checkArguments_accepted (undefined : ℤ → ℤ) {nthreads logNelems : ℤ} (hne : nthreads ≠ 0)
    (h0 : 0 ≤ logNelems) (h : logNelems ≤ 31) (hdvd : nthreads ∣ 2 ^ logNelems.toNat) :
    checkArguments undefined nthreads logNelems = .accepted (2 ^ logNelems.toNat) := by
  have hpos : (0 : ℤ) < 2 ^ logNelems.toNat := by positivity
  unfold checkArguments
  simp only [shift_eq undefined h0 h]
  rw [if_neg hne, if_neg (by omega), if_neg]
  push Not
  exact ⟨Int.tmod_eq_zero_of_dvd hdvd, h⟩

/-- **What the check lets through**: a division error, or a divisor of `2^log_nelems`. -/
theorem checkArguments_cases (undefined : ℤ → ℤ) {nthreads logNelems : ℤ} (h0 : 0 ≤ logNelems)
    (h : checkArguments undefined nthreads logNelems ≠ .rejected) :
    (nthreads = 0 ∧ checkArguments undefined nthreads logNelems = .divisionByZero) ∨
    (nthreads = -1 ∧ 31 < logNelems ∧
      checkArguments undefined nthreads logNelems = .overflow) ∨
    (nthreads ≠ 0 ∧ logNelems ≤ 31 ∧ nthreads ∣ 2 ^ logNelems.toNat ∧
      checkArguments undefined nthreads logNelems = .accepted (2 ^ logNelems.toNat)) := by
  unfold checkArguments at h ⊢
  by_cases hz : nthreads = 0
  · exact Or.inl ⟨hz, if_pos hz⟩
  · right
    simp only [hz, if_false] at h ⊢
    by_cases hlog : logNelems ≤ 31
    · right
      have hpos : (0 : ℤ) < 2 ^ logNelems.toNat := by positivity
      have hno : ¬ (shift undefined logNelems = -2 ^ 63 ∧ nthreads = -1) := by
        rw [shift_eq undefined h0 hlog]
        omega
      rw [if_neg hno, shift_eq undefined h0 hlog] at h ⊢
      by_cases hmod : (2 ^ logNelems.toNat : ℤ).tmod nthreads ≠ 0 ∨ logNelems > 31
      · exact absurd (if_pos hmod) h
      · rw [if_neg hmod]
        push Not at hmod
        exact ⟨hz, hlog, Int.dvd_of_tmod_eq_zero hmod.1, rfl⟩
    · left
      by_cases hmin : shift undefined logNelems = -2 ^ 63 ∧ nthreads = -1
      · rw [if_pos hmin]
        exact ⟨hmin.2, by omega, rfl⟩
      · rw [if_neg hmin, if_pos (Or.inr (by omega))] at h
        exact absurd rfl h

/-- The shares of a positive number of threads that divides `nelems`. -/
theorem shares_of_dvd {nthreads nelems : ℤ} (h1 : 1 ≤ nthreads) (h0 : 0 ≤ nelems)
    (hmax : nelems ≤ 2 ^ 31) (hdvd : nthreads ∣ nelems) :
    Shares nthreads.toNat (nelems.tdiv nthreads) ∧
      (nthreads.toNat : ℤ) * nelems.tdiv nthreads = nelems := by
  have hmul : (nthreads.toNat : ℤ) * nelems.tdiv nthreads = nelems := by
    rw [Int.toNat_of_nonneg (by omega), Int.mul_tdiv_cancel_of_dvd hdvd]
  exact ⟨⟨Int.tdiv_nonneg h0 (by omega), by rw [hmul]; exact hmax⟩, hmul⟩

/-- `nelems * (nelems - 1) / 2` is what it should be. -/
theorem eq_half_of_twice {x nelems : ℤ} (h : 2 * x = twice 0 nelems) :
    x = nelems * (nelems - 1) / 2 := by
  unfold twice at h
  omega

end ComputerScience.Psum
