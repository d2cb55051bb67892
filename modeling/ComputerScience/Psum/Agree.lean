/-
  ComputerScience.Psum.Agree
  ──────────────────────────
  **THE THREE PARALLEL SUMS AGREE** (`26-parallelism/psum-mutex.c`, `psum-array.c`,
  `psum-local.c`).

  In `psum-array` and `psum-local` a thread writes its own element of `psum` only, so what
  is known of one thread and its element is not disturbed by the others; `main` adds up the
  elements when all threads have been joined.

  Main results:
    • `ArrayPc.Ok.step`, `LocalPc.Ok.step` — one step of one thread,
    • `sumPartials_eq` — the last loop of `main`,
    • `psum_agree` — the three programs end with the same sum, and nothing overflows.
-/
import ComputerScience.Psum.Mutex

namespace ComputerScience.Psum

open ComputerScience.Lib

variable {n : ℕ} {per : ℤ} {myid : ℕ} {psum psum' : ℕ → ℤ}

/-! ## §1. One partial sum. -/

/-- A partial sum over the beginning of the thread's range can take the next element. -/
theorem InRange.long_add {i stop v : ℤ} (h : InRange per myid i stop) (hs : Shares n per)
    (hid : myid < n) (hlt : i < stop) (hv : 2 * v = twice (myid * per) i) :
    long (v + i) = some (v + i) := by
  obtain ⟨hstart, hend⟩ := hs.stop_le hid
  obtain ⟨h0, hle⟩ := h.twice_le hs hid
  have hmax := twice_le_of_le hstart (hstart.trans h.lower) (by have := h.stop_eq; omega)
  have hlower := h.lower
  have hstop := h.stop_eq
  exact long_eq_some (by omega) (by omega)

/-- The last loop of `main`: the sums of the threads' ranges make up the whole. -/
theorem sumPartials_eq {nthreads : ℤ} (hs : Shares nthreads.toNat per)
    (h : ∀ j < nthreads.toNat, 2 * psum j = twice (j * per) (j * per + per)) :
    ∃ result, sumPartials nthreads psum = some result ∧
      2 * result = twice 0 (nthreads.toNat * per) := by
  refine forLoop_rule_one (fun k (result : ℤ) => 2 * result = twice 0 (k * per))
    (Nat.zero_le _) (by simp [twice]) ?_
  intro k result _ hk hresult
  obtain ⟨hstart, hend⟩ := hs.stop_le hk
  have hper := hs.nonneg
  have hnext : 2 * (result + psum k) = twice 0 (((k + 1 : ℕ) : ℤ) * per) := by
    have hadd : twice 0 (((k + 1 : ℕ) : ℤ) * per) =
        twice 0 (k * per) + twice (k * per) (k * per + per) := by
      unfold twice
      push_cast
      ring
    rw [hadd, ← hresult, ← h k hk]
    ring
  have hpos : (0 : ℤ) ≤ ((k + 1 : ℕ) : ℤ) * per := by positivity
  have hmax := twice_le_of_le (le_refl 0) hpos (by push_cast; linarith)
  have h0 := twice_nonneg (le_refl 0) hpos
  exact ⟨result + psum k, long_eq_some (by omega) (by omega), hnext⟩

/-! ## §2. Threads with an element of their own. -/

/-- A routine that leaves the sum of the thread's range in the thread's element of `psum`:
`Ok` is what is known of a thread (`none` before it is created) and its element, `rank` what
the thread has left to do. -/
structure PartialSums {L : Type} (R : Routine (ℕ → ℤ) L) (n : ℕ) (per : ℤ)
    (Ok : ℕ → (ℕ → ℤ) → Option L → Prop) (rank : L → ℕ) : Prop where
  init : ∀ myid, Ok myid (fun _ => 0) none
  enter : ∀ myid psum, Ok myid psum none → Ok myid psum (some R.enter)
  step : ∀ myid psum t psum' t', myid < n → Ok myid psum (some t) →
    R.step myid psum t = some (psum', t') → Ok myid psum' (some t') ∧ rank t' < rank t
  frame : ∀ k j psum t psum' t', k ≠ j → R.step j psum t = some (psum', t') → psum' k = psum k
  congr : ∀ myid psum psum' o, psum' myid = psum myid → Ok myid psum o → Ok myid psum' o
  moves : ∀ myid psum t, Ok myid psum (some t) → R.finished t = false →
    (R.step myid psum t).isSome
  result : ∀ myid psum t, Ok myid psum (some t) → R.finished t = true →
    2 * psum myid = twice (myid * per) (myid * per + per)

section

variable {L : Type} {R : Routine (ℕ → ℤ) L} {Ok : ℕ → (ℕ → ℤ) → Option L → Prop} {rank : L → ℕ}

theorem PartialSums.reachable (h : PartialSums R n per Ok rank) {s : Fork (ℕ → ℤ) L}
    (hr : (forkJoin R n fun _ => 0).Reachable s) : ∀ j, Ok j s.mem s.threads[j]? := by
  refine forkJoin_each h.init (fun j psum _ => h.enter j psum) ?_ ?_ hr
  · intro j psum t psum' t' hj hok hstep
    exact (h.step j psum t psum' t' hj hok hstep).1
  · intro k j psum t psum' t' o hkj hok hstep
    exact h.congr k psum psum' o (h.frame k j psum t psum' t' hkj hstep) hok

/-- A state that `Ok` excludes is that of no thread. -/
theorem PartialSums.not_mem (h : PartialSums R n per Ok rank) (t : L)
    (hbad : ∀ j psum, ¬ Ok j psum (some t)) {s : Fork (ℕ → ℤ) L}
    (hr : (forkJoin R n fun _ => 0).Reachable s) : t ∉ s.threads := by
  intro hmem
  obtain ⟨j, hj⟩ := List.getElem?_of_mem hmem
  have hok := h.reachable hr j
  rw [hj] at hok
  exact hbad j s.mem hok

/-- Every run ends with the sums of all ranges. -/
theorem PartialSums.ends (h : PartialSums R n per Ok rank) :
    (forkJoin R n fun _ => 0).EndsIn fun s => s.main = .joined ∧
      ∀ j < n, 2 * s.mem j = twice (j * per) (j * per + per) := by
  have hends := forkJoin_ends (R := R) (n := n) (m := fun _ => 0)
    (I := fun psum ts => (∀ (j : ℕ) (t : L), ts[j]? = some t → Ok j psum (some t)) ∧ ts.length ≤ n)
    rank ?_ ?_ ?_
  · refine ⟨hends.1, ?_⟩
    intro s hr hstuck
    obtain ⟨hmain, -, hfin, hok, -⟩ := hends.2 s hr hstuck
    refine ⟨hmain, ?_⟩
    intro j hj
    obtain ⟨t, ht, hret⟩ := hfin j hj
    exact h.result j s.mem t (hok j t ht) hret
  · intro s hr
    refine ⟨?_, (Fork.Ok.reachable hr).length_le⟩
    intro j t ht
    rw [← ht]
    exact h.reachable hr j
  · rintro psum ts j t psum' t' ⟨hok, hlen⟩ ht hstep
    have hj : j < n := Nat.lt_of_lt_of_le (List.getElem?_eq_some_iff.mp ht).1 hlen
    exact (h.step j psum t psum' t' hj (hok j t ht) hstep).2
  · rintro psum ts ⟨hok, -⟩ ⟨j, t, ht, hfin⟩
    exact ⟨j, t, ht, h.moves j psum t (hok j t ht) hfin⟩

/-- The result of `main`: every run ends, and the last loop gives the right sum. -/
theorem PartialSums.result_eq {nthreads nelems : ℤ}
    (h : PartialSums R nthreads.toNat per Ok rank) (hs : Shares nthreads.toNat per)
    (hmul : (nthreads.toNat : ℤ) * per = nelems) :
    (forkJoin R nthreads.toNat fun _ => 0).EndsIn fun s => s.main = .joined ∧
      sumPartials nthreads s.mem = some (nelems * (nelems - 1) / 2) := by
  have hends := h.ends
  refine ⟨hends.1, ?_⟩
  intro s hr hstuck
  obtain ⟨hmain, hsums⟩ := hends.2 s hr hstuck
  obtain ⟨result, hresult, htwice⟩ := sumPartials_eq hs hsums
  rw [hmul] at htwice
  exact ⟨hmain, by rw [hresult, eq_half_of_twice htwice]⟩

end

/-! ## §3. `psum-array`. -/

/-- What is known of a thread of `psum-array` and of its element. -/
def ArrayPc.Ok (per : ℤ) (myid : ℕ) (psum : ℕ → ℤ) : Option ArrayPc → Prop
  | none | some .entry => psum myid = 0
  | some (.test i stop) => InRange per myid i stop ∧ 2 * psum myid = twice (myid * per) i
  | some (.loaded i stop v) =>
      InRange per myid i stop ∧ i < stop ∧ v = psum myid ∧ 2 * psum myid = twice (myid * per) i
  | some .returned => 2 * psum myid = twice (myid * per) (myid * per + per)
  | some .overflow => False

/-- What a thread has left to do. -/
def ArrayPc.rank (per : ℤ) : ArrayPc → ℕ
  | .entry => 2 * per.toNat + 2
  | .test i stop => 2 * (stop - i).toNat + 1
  | .loaded i stop _ => 2 * (stop - i).toNat
  | .returned => 0
  | .overflow => 0

/-- **One step of a thread**: it keeps what is known of its element, and has less to do. -/
theorem ArrayPc.Ok.step (hs : Shares n per) (hid : myid < n) {t t' : ArrayPc}
    (h : ArrayPc.Ok per myid psum (some t)) (hstep : t.step per myid psum = some (psum', t')) :
    ArrayPc.Ok per myid psum' (some t') ∧ t'.rank per < t.rank per := by
  cases t with
  | entry =>
      rw [ArrayPc.step, hs.bounds_eq hid] at hstep
      cases hstep
      have hper := hs.nonneg
      refine ⟨⟨⟨le_refl _, by omega, rfl⟩, ?_⟩, ?_⟩
      · rw [twice_self, show psum myid = 0 from h, mul_zero]
      · simp only [ArrayPc.rank]
        omega
  | test i stop =>
      obtain ⟨hrange, hsum⟩ := h
      rw [ArrayPc.step] at hstep
      split at hstep
      next hlt =>
        cases hstep
        exact ⟨⟨hrange, hlt, rfl, hsum⟩, by simp [ArrayPc.rank]⟩
      next hge =>
        cases hstep
        obtain rfl := hrange.at_end hge
        exact ⟨hsum, by simp [ArrayPc.rank]⟩
  | loaded i stop v =>
      obtain ⟨hrange, hlt, rfl, hsum⟩ := h
      rw [ArrayPc.step, hrange.long_add hs hid hlt hsum, hrange.long_next hs hid hlt] at hstep
      cases hstep
      refine ⟨⟨hrange.next hlt, ?_⟩, ?_⟩
      · rw [Function.update_self, twice_succ, ← hsum]
        ring
      · simp only [ArrayPc.rank]
        omega
  | returned => cases hstep
  | overflow => cases hstep

/-- A thread touches its own element only. -/
theorem ArrayPc.step_frame {k j : ℕ} (hkj : k ≠ j) {t t' : ArrayPc}
    (hstep : t.step per j psum = some (psum', t')) : psum' k = psum k := by
  cases t with
  | entry =>
      rw [ArrayPc.step] at hstep
      split at hstep <;> cases hstep <;> rfl
  | test i stop =>
      rw [ArrayPc.step] at hstep
      split at hstep <;> cases hstep <;> rfl
  | loaded i stop v =>
      rw [ArrayPc.step] at hstep
      split at hstep
      next => cases hstep; exact Function.update_of_ne hkj _ _
      next => cases hstep; rfl
  | returned => cases hstep
  | overflow => cases hstep

/-- What is known of a thread depends on its own element only. -/
theorem ArrayPc.Ok.congr {o : Option ArrayPc} (h : ArrayPc.Ok per myid psum o)
    (heq : psum' myid = psum myid) : ArrayPc.Ok per myid psum' o := by
  unfold ArrayPc.Ok at h ⊢
  rw [heq]
  exact h

theorem sumArray_partialSums (hs : Shares n per) :
    PartialSums (sumArray per) n per (ArrayPc.Ok per) (ArrayPc.rank per) where
  init _ := rfl
  enter _ _ h := h
  step _ _ _ _ _ hid h hstep := ArrayPc.Ok.step hs hid h hstep
  frame _ _ _ _ _ _ hkj hstep := ArrayPc.step_frame hkj hstep
  congr _ _ _ _ heq h := h.congr heq
  moves myid psum t h hfin := by
    show (t.step per myid psum).isSome
    cases t with
    | entry | test i stop | loaded i stop v =>
        rw [ArrayPc.step]
        split <;> rfl
    | returned => cases hfin
    | overflow => exact h.elim
  result myid psum t h hfin := by
    rw [show t = .returned from beq_iff_eq.mp hfin] at h
    exact h

/-! ## §4. `psum-local`. -/

/-- What is known of a thread of `psum-local` and of its element. -/
def LocalPc.Ok (per : ℤ) (myid : ℕ) (psum : ℕ → ℤ) : Option LocalPc → Prop
  | none | some .entry => True
  | some (.test i stop sum) => InRange per myid i stop ∧ 2 * sum = twice (myid * per) i
  | some .returned => 2 * psum myid = twice (myid * per) (myid * per + per)
  | some .overflow => False

/-- What a thread has left to do. -/
def LocalPc.rank (per : ℤ) : LocalPc → ℕ
  | .entry => per.toNat + 2
  | .test i stop _ => (stop - i).toNat + 1
  | .returned => 0
  | .overflow => 0

/-- **One step of a thread.** -/
theorem LocalPc.Ok.step (hs : Shares n per) (hid : myid < n) {t t' : LocalPc}
    (h : LocalPc.Ok per myid psum (some t)) (hstep : t.step per myid psum = some (psum', t')) :
    LocalPc.Ok per myid psum' (some t') ∧ t'.rank per < t.rank per := by
  cases t with
  | entry =>
      rw [LocalPc.step, hs.bounds_eq hid] at hstep
      cases hstep
      have hper := hs.nonneg
      refine ⟨⟨⟨le_refl _, by omega, rfl⟩, (twice_self _).symm⟩, ?_⟩
      simp only [LocalPc.rank]
      omega
  | test i stop sum =>
      obtain ⟨hrange, hsum⟩ := h
      rw [LocalPc.step] at hstep
      split at hstep
      next hlt =>
        rw [hrange.long_add hs hid hlt hsum, hrange.long_next hs hid hlt] at hstep
        cases hstep
        refine ⟨⟨hrange.next hlt, ?_⟩, ?_⟩
        · rw [twice_succ, ← hsum]
          ring
        · simp only [LocalPc.rank]
          omega
      next hge =>
        cases hstep
        obtain rfl := hrange.at_end hge
        refine ⟨?_, by simp [LocalPc.rank]⟩
        show 2 * Function.update psum myid sum myid = _
        rw [Function.update_self]
        exact hsum
  | returned => cases hstep
  | overflow => cases hstep

/-- A thread touches its own element only. -/
theorem LocalPc.step_frame {k j : ℕ} (hkj : k ≠ j) {t t' : LocalPc}
    (hstep : t.step per j psum = some (psum', t')) : psum' k = psum k := by
  cases t with
  | entry =>
      rw [LocalPc.step] at hstep
      split at hstep <;> cases hstep <;> rfl
  | test i stop sum =>
      rw [LocalPc.step] at hstep
      split at hstep
      next => split at hstep <;> cases hstep <;> rfl
      next => cases hstep; exact Function.update_of_ne hkj _ _
  | returned => cases hstep
  | overflow => cases hstep

theorem LocalPc.Ok.congr {o : Option LocalPc} (h : LocalPc.Ok per myid psum o)
    (heq : psum' myid = psum myid) : LocalPc.Ok per myid psum' o := by
  unfold LocalPc.Ok at h ⊢
  rw [heq]
  exact h

theorem sumLocal_partialSums (hs : Shares n per) :
    PartialSums (sumLocal per) n per (LocalPc.Ok per) (LocalPc.rank per) where
  init _ := trivial
  enter _ _ h := h
  step _ _ _ _ _ hid h hstep := LocalPc.Ok.step hs hid h hstep
  frame _ _ _ _ _ _ hkj hstep := LocalPc.step_frame hkj hstep
  congr _ _ _ _ heq h := h.congr heq
  moves myid psum t h hfin := by
    show (t.step per myid psum).isSome
    cases t with
    | entry =>
        rw [LocalPc.step]
        split <;> rfl
    | test i stop sum =>
        rw [LocalPc.step]
        split
        next => split <;> rfl
        next => rfl
    | returned => cases hfin
    | overflow => exact h.elim
  result myid psum t h hfin := by
    rw [show t = .returned from beq_iff_eq.mp hfin] at h
    exact h

/-! ## §5. The three programs. -/

/-- **The parallel sums agree**: for 1 to `MAXTHREADS` threads, up to `2^31` elements and
every interleaving, the three programs pass their check and end with
`nelems * (nelems - 1) / 2` as `gsum` or as `result`; no thread overflows, and neither do
the last loop (whose result is a `long`) and the expected value.  The numbers of the threads,
which index `myid`, `tid` and `psum`, stay below `MAXTHREADS`. -/
theorem psum_agree (undefined : ℤ → ℤ) {nthreads logNelems nelems : ℤ} (h1 : 1 ≤ nthreads)
    (hmany : nthreads ≤ maxThreads) (hlog0 : 0 ≤ logNelems) (hlog : logNelems ≤ 31)
    (hnelems : nelems = 2 ^ logNelems.toNat) (hdvd : nthreads ∣ nelems) :
    checkArguments undefined nthreads logNelems = .accepted nelems ∧
    long (nelems * (nelems - 1)) = some (nelems * (nelems - 1)) ∧
    ((psumMutex nthreads nelems).EndsIn fun s =>
      s.main = .joined ∧ s.mem.gsum = nelems * (nelems - 1) / 2) ∧
    ((psumArray nthreads nelems).EndsIn fun s =>
      s.main = .joined ∧ sumPartials nthreads s.mem = some (nelems * (nelems - 1) / 2)) ∧
    ((psumLocal nthreads nelems).EndsIn fun s =>
      s.main = .joined ∧ sumPartials nthreads s.mem = some (nelems * (nelems - 1) / 2)) ∧
    (∀ s, (psumMutex nthreads nelems).Reachable s →
      .overflow ∉ s.threads ∧ s.threads.length ≤ maxThreads) ∧
    (∀ s, (psumArray nthreads nelems).Reachable s →
      .overflow ∉ s.threads ∧ s.threads.length ≤ maxThreads) ∧
    (∀ s, (psumLocal nthreads nelems).Reachable s →
      .overflow ∉ s.threads ∧ s.threads.length ≤ maxThreads) := by
  subst hnelems
  have h0 : (0 : ℤ) ≤ 2 ^ logNelems.toNat := by positivity
  have hmax := two_pow_le hlog
  obtain ⟨hs, hmul⟩ := shares_of_dvd h1 h0 hmax hdvd
  have hthreads : nthreads.toNat ≤ maxThreads := by omega
  refine ⟨?_, ?_, psumMutex_ends h1 h0 hmax hdvd, (sumArray_partialSums hs).result_eq hs hmul,
    (sumLocal_partialSums hs).result_eq hs hmul, ?_, ?_, ?_⟩
  · exact checkArguments_accepted undefined (by omega) hlog0 hlog hdvd
  · have hle := twice_le_of_le (le_refl 0) h0 hmax
    have hnonneg := twice_nonneg (le_refl 0) h0
    unfold twice at hle hnonneg
    exact long_eq_some (by omega) (by omega)
  · intro s hr
    exact ⟨psumMutex_no_overflow h1 h0 hmax hdvd hr,
      (Fork.Ok.reachable hr).length_le.trans hthreads⟩
  · intro s hr
    exact ⟨(sumArray_partialSums hs).not_mem .overflow (fun _ _ hok => hok) hr,
      (Fork.Ok.reachable hr).length_le.trans hthreads⟩
  · intro s hr
    exact ⟨(sumLocal_partialSums hs).not_mem .overflow (fun _ _ hok => hok) hr,
      (Fork.Ok.reachable hr).length_le.trans hthreads⟩

/-- The largest size, with four threads. -/
theorem psum_agree_four :
    ((psumMutex 4 (2 ^ 31)).EndsIn fun s =>
      s.main = .joined ∧ s.mem.gsum = 2 ^ 31 * (2 ^ 31 - 1) / 2) ∧
    ((psumArray 4 (2 ^ 31)).EndsIn fun s =>
      s.main = .joined ∧ sumPartials 4 s.mem = some (2 ^ 31 * (2 ^ 31 - 1) / 2)) ∧
    ((psumLocal 4 (2 ^ 31)).EndsIn fun s =>
      s.main = .joined ∧ sumPartials 4 s.mem = some (2 ^ 31 * (2 ^ 31 - 1) / 2)) := by
  obtain ⟨-, -, hmutex, harray, hlocal, -⟩ := @psum_agree (fun _ => 0) 4 31 (2 ^ 31)
    (by decide) (by decide) (by decide) (Int.le_refl 31) rfl ⟨2 ^ 29, rfl⟩
  exact ⟨hmutex, harray, hlocal⟩

end ComputerScience.Psum
