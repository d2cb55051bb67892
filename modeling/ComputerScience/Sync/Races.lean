/-
  ComputerScience.Sync.Races
  ──────────────────────────
  **AN ARGUMENT BY ADDRESS** (`25-sync-advanced/race.c`, `norace.c`).

  `main` creates `N` threads and joins them.  In `race` each thread gets the address of the
  loop variable `i` and reads its number from there whenever it comes to run; meanwhile `main`
  goes on counting, and the second loop uses the same `i` from 0 again.  In `norace` each
  thread gets a block of its own, reads its number there and frees it.

  Main results:
    • `race_results` — the threads of `race` may print any numbers from 0 to `N`, in every
      combination,
    • `norace_results` — in `norace` thread `k` prints `k`, no thread reads or frees a block that
      is not allocated, and every block is freed once.
-/
import ComputerScience.Lib.Pool
import ComputerScience.Lib.TransitionSystem
import Mathlib.Data.Fintype.EquivFin
import Mathlib.Data.List.Basic

namespace ComputerScience.Sync

open ComputerScience.Lib

/-! ## §1. `race`. -/

inductive RacePc where
  /-- at the test of the first loop -/
  | create (i : ℕ)
  /-- thread `i` was created, before `i++` -/
  | incr (i : ℕ)
  /-- at the test of the second loop -/
  | join (i : ℕ)
  | exited
  deriving DecidableEq, Repr

inductive HelloPc where
  /-- before `int myid = *((int *)vargp)` -/
  | entry
  /-- before the `printf` -/
  | read (myid : ℕ)
  | returned (myid : ℕ)
  deriving DecidableEq, Repr

structure Race where
  main : RacePc
  threads : List HelloPc

/-- The variable `i`. -/
def RacePc.i : RacePc → ℕ
  | .create i | .incr i | .join i => i
  | .exited => 0

inductive RaceStep (N : ℕ) (s : Race) : Race → Prop where
  | create (i : ℕ) (h : s.main = .create i) (hi : i < N) :
      RaceStep N s ⟨.incr i, s.threads ++ [.entry]⟩
  | incr (i : ℕ) (h : s.main = .incr i) : RaceStep N s { s with main := .create (i + 1) }
  | createEnd (i : ℕ) (h : s.main = .create i) (hi : N ≤ i) :
      RaceStep N s { s with main := .join 0 }
  | join (i myid : ℕ) (h : s.main = .join i) (hi : i < N)
      (ht : s.threads[i]? = some (.returned myid)) :
      RaceStep N s { s with main := .join (i + 1) }
  | joinEnd (i : ℕ) (h : s.main = .join i) (hi : N ≤ i) : RaceStep N s { s with main := .exited }
  | read (j : ℕ) (h : s.main ≠ .exited) (ht : s.threads[j]? = some .entry) :
      RaceStep N s { s with threads := s.threads.set j (.read s.main.i) }
  | print (j myid : ℕ) (h : s.main ≠ .exited) (ht : s.threads[j]? = some (.read myid)) :
      RaceStep N s { s with threads := s.threads.set j (.returned myid) }

def race (N : ℕ) : System Race where
  init s := s = ⟨.create 0, []⟩
  step := RaceStep N

variable {N : ℕ}

/-- What a thread has read. -/
def HelloPc.AtMost (N : ℕ) : HelloPc → Prop
  | .entry => True
  | .read myid | .returned myid => myid ≤ N

/-- The threads that exist, and those that were joined. -/
def Race.Main (N : ℕ) (s : Race) : Prop :=
  match s.main with
  | .create i => i ≤ N ∧ s.threads.length = i
  | .incr i => i < N ∧ s.threads.length = i + 1
  | .join i => i ≤ N ∧ s.threads.length = N ∧
      ∀ k < i, ∃ myid, s.threads[k]? = some (.returned myid)
  | .exited => s.threads.length = N ∧ ∀ k < N, ∃ myid, s.threads[k]? = some (.returned myid)

structure RaceInv (N : ℕ) (s : Race) : Prop where
  main : s.Main N
  each : ∀ t ∈ s.threads, t.AtMost N

theorem RaceInv.i_le {s : Race} (h : RaceInv N s) : s.main.i ≤ N := by
  have hmain := h.main
  unfold Race.Main at hmain
  cases hm : s.main with
  | create i =>
      simp only [hm] at hmain
      exact hmain.1
  | incr i =>
      simp only [hm] at hmain
      exact hmain.1.le
  | join i =>
      simp only [hm] at hmain
      exact hmain.1
  | exited => exact Nat.zero_le N

/-- A step of a thread. -/
theorem RaceInv.set {s : Race} (h : RaceInv N s) {j : ℕ} {t t' : HelloPc}
    (ht : s.threads[j]? = some t) (hrun : ∀ myid, t ≠ .returned myid) (hle : t'.AtMost N) :
    RaceInv N { s with threads := s.threads.set j t' } := by
  have hkeep : ∀ k : ℕ, (∃ myid, s.threads[k]? = some (HelloPc.returned myid)) →
      ∃ myid, (s.threads.set j t')[k]? = some (HelloPc.returned myid) := by
    rintro k ⟨myid, hk⟩
    rcases getElem?_set_of_some t' ht hk with ⟨-, heq, -⟩ | ⟨-, hset⟩
    · exact absurd heq.symm (hrun myid)
    · exact ⟨myid, hset⟩
  refine ⟨?_, ?_⟩
  · have hmain := h.main
    unfold Race.Main at hmain ⊢
    cases hm : s.main with
    | create i =>
        simp only [hm, List.length_set] at hmain ⊢
        exact hmain
    | incr i =>
        simp only [hm, List.length_set] at hmain ⊢
        exact hmain
    | join i =>
        simp only [hm, List.length_set] at hmain ⊢
        exact ⟨hmain.1, hmain.2.1, fun k hk => hkeep k (hmain.2.2 k hk)⟩
    | exited =>
        simp only [hm, List.length_set] at hmain ⊢
        exact ⟨hmain.1, fun k hk => hkeep k (hmain.2 k hk)⟩
  · intro u hu
    rcases List.mem_or_eq_of_mem_set hu with hu | rfl
    · exact h.each u hu
    · exact hle

theorem RaceInv.step {s s' : Race} (h : RaceInv N s) (hstep : RaceStep N s s') : RaceInv N s' := by
  have hmain := h.main
  cases hstep with
  | create i hm hi =>
      simp only [Race.Main, hm] at hmain
      refine ⟨⟨hi, ?_⟩, ?_⟩
      · show (s.threads ++ [HelloPc.entry]).length = i + 1
        rw [List.length_append, hmain.2]
        rfl
      · intro t ht
        rcases List.mem_append.mp ht with ht | ht
        · exact h.each t ht
        · rw [List.mem_singleton.mp ht]
          trivial
  | incr i hm =>
      simp only [Race.Main, hm] at hmain
      exact ⟨hmain, h.each⟩
  | createEnd i hm hi =>
      simp only [Race.Main, hm] at hmain
      refine ⟨⟨Nat.zero_le N, ?_, fun k hk => absurd hk (Nat.not_lt_zero k)⟩, h.each⟩
      show s.threads.length = N
      omega
  | join i myid hm hi ht =>
      simp only [Race.Main, hm] at hmain
      refine ⟨⟨hi, hmain.2.1, ?_⟩, h.each⟩
      intro k hk
      rcases Nat.lt_succ_iff_lt_or_eq.mp hk with hk | rfl
      · exact hmain.2.2 k hk
      · exact ⟨myid, ht⟩
  | joinEnd i hm hi =>
      simp only [Race.Main, hm] at hmain
      refine ⟨⟨hmain.2.1, ?_⟩, h.each⟩
      intro k hk
      exact hmain.2.2 k (by omega)
  | read j hm ht => exact h.set ht (fun myid hr => by cases hr) h.i_le
  | print j myid hm ht =>
      exact h.set ht (fun myid hr => by cases hr) (h.each (.read myid) (List.mem_of_getElem? ht))

theorem RaceInv.reachable {s : Race} (h : (race N).Reachable s) : RaceInv N s := by
  refine h.invariant ?_ (fun _ _ _ hinv hstep => hinv.step hstep)
  rintro s rfl
  exact ⟨⟨Nat.zero_le N, rfl⟩, by simp⟩

/-! ## §2. Every run of `race` ends. -/

def HelloPc.rank : HelloPc → ℕ
  | .entry => 2
  | .read _ => 1
  | .returned _ => 0

def RacePc.rank (N : ℕ) : RacePc → ℕ
  | .create i => 4 * (N - i) + N + 3
  | .incr i => 4 * (N - i) + N
  | .join i => N - i + 1
  | .exited => 0

theorem RaceInv.rank_lt {s s' : Race} (h : RaceInv N s) (hstep : RaceStep N s s') :
    s'.main.rank N + weight HelloPc.rank s'.threads < s.main.rank N + weight HelloPc.rank s.threads := by
  have hmain := h.main
  cases hstep with
  | create i hm hi =>
      have hset := weight_concat HelloPc.rank s.threads .entry
      simp only [hm, RacePc.rank]
      simp only [HelloPc.rank] at hset
      omega
  | incr i hm =>
      simp only [Race.Main, hm] at hmain
      simp only [hm, RacePc.rank]
      omega
  | createEnd i hm hi =>
      simp only [hm, RacePc.rank]
      omega
  | join i myid hm hi ht =>
      simp only [hm, RacePc.rank]
      omega
  | joinEnd i hm hi =>
      simp only [hm, RacePc.rank]
      omega
  | read j hm ht =>
      have hset := weight_set HelloPc.rank (.read s.main.i) ht
      simp only [HelloPc.rank] at hset
      show s.main.rank N + weight HelloPc.rank (s.threads.set j _) < _
      omega
  | print j myid hm ht =>
      have hset := weight_set HelloPc.rank (.returned myid) ht
      simp only [HelloPc.rank] at hset
      show s.main.rank N + weight HelloPc.rank (s.threads.set j _) < _
      omega

theorem race_ends (N : ℕ) : (race N).EndsIn fun s => s.main = .exited := by
  refine System.ends_of_measure (fun s => s.main.rank N + weight HelloPc.rank s.threads)
    (fun _ _ hr hstep => (RaceInv.reachable hr).rank_lt hstep) ?_
  intro s hr hstuck
  have hmain := (RaceInv.reachable hr).main
  cases hm : s.main with
  | create i =>
      exfalso
      rcases Nat.lt_or_ge i N with hi | hi
      · exact hstuck _ (.create i hm hi)
      · exact hstuck _ (.createEnd i hm hi)
  | incr i => exact absurd (.incr i hm) (hstuck _)
  | join i =>
      exfalso
      simp only [Race.Main, hm] at hmain
      rcases Nat.lt_or_ge i N with hi | hi
      · -- thread `i` has not returned, so it can move
        obtain ⟨t, ht⟩ : ∃ t, s.threads[i]? = some t := ⟨_, List.getElem?_eq_getElem (by omega)⟩
        cases t with
        | entry => exact hstuck _ (.read i (by rw [hm]; simp) ht)
        | read myid => exact hstuck _ (.print i myid (by rw [hm]; simp) ht)
        | returned myid => exact hstuck _ (.join i myid hm hi ht)
      · exact hstuck _ (.joinEnd i hm hi)
  | exited => rfl

/-! ## §3. The numbers `race` can print. -/

variable {v : ℕ → ℕ}

/-- The threads in `P` have printed what `v` wants, the others have not moved. -/
def Printed (v : ℕ → ℕ) (P : ℕ → Prop) (ts : List HelloPc) : Prop :=
  ∀ k < ts.length, (P k → ts[k]? = some (.returned (v k))) ∧ (¬ P k → ts[k]? = some .entry)

theorem Printed.congr {P Q : ℕ → Prop} {ts : List HelloPc} (h : Printed v P ts)
    (hPQ : ∀ k < ts.length, P k ↔ Q k) : Printed v Q ts := by
  intro k hk
  rw [← hPQ k hk]
  exact h k hk

theorem Printed.set {P : ℕ → Prop} {ts : List HelloPc} (h : Printed v P ts) {j : ℕ}
    (hj : j < ts.length) :
    Printed v (fun k => P k ∨ k = j) (ts.set j (.returned (v j))) := by
  intro k hk
  rw [List.length_set] at hk
  by_cases hkj : k = j
  · subst hkj
    rw [List.getElem?_set_self hj]
    exact ⟨fun _ => rfl, fun hno => absurd (.inr rfl) hno⟩
  · rw [List.getElem?_set_ne (Ne.symm hkj)]
    refine ⟨?_, ?_⟩
    · rintro (hP | heq)
      · exact (h k hk).1 hP
      · exact absurd heq hkj
    · intro hno
      exact (h k hk).2 fun hP => hno (.inl hP)

/-- While `main` rests, the threads that want the value of `i` can run. -/
theorem reachable_printed {main : RacePc} {ts : List HelloPc} {P : ℕ → Prop}
    (hr : (race N).Reachable ⟨main, ts⟩) (hmain : main ≠ .exited) (h : Printed v P ts) (n : ℕ) :
    ∃ ts', (race N).Reachable ⟨main, ts'⟩ ∧ ts'.length = ts.length ∧
      Printed v (fun k => P k ∨ k < n ∧ v k = main.i) ts' := by
  induction n with
  | zero => exact ⟨ts, hr, rfl, h.congr fun k _ => by simp⟩
  | succ n ih =>
      obtain ⟨ts', hr', hlen, h'⟩ := ih
      by_cases hn : n < ts'.length ∧ v n = main.i ∧ ¬ P n
      · obtain ⟨hlt, hv, hP⟩ := hn
        have hentry := (h' n hlt).2 (by simp [hP])
        have hread := hr'.tail (RaceStep.read n hmain hentry)
        have hprint := hread.tail (RaceStep.print n main.i hmain (List.getElem?_set_self hlt))
        rw [List.set_set, ← hv] at hprint
        refine ⟨_, hprint, by rw [List.length_set, hlen], (h'.set hlt).congr ?_⟩
        intro k _
        constructor
        · rintro ((hk | ⟨hk, hvk⟩) | rfl)
          · exact .inl hk
          · exact .inr ⟨by omega, hvk⟩
          · exact .inr ⟨Nat.lt_succ_self k, hv⟩
        · rintro (hk | ⟨hk, hvk⟩)
          · exact .inl (.inl hk)
          · rcases Nat.lt_succ_iff_lt_or_eq.mp hk with hk | rfl
            · exact .inl (.inr ⟨hk, hvk⟩)
            · exact .inr rfl
      · refine ⟨ts', hr', hlen, h'.congr ?_⟩
        intro k hk
        constructor
        · exact Or.imp_right fun ⟨hk, hvk⟩ => ⟨by omega, hvk⟩
        · rintro (hP | ⟨hkn, hvk⟩)
          · exact .inl hP
          · rcases Nat.lt_succ_iff_lt_or_eq.mp hkn with hkn | rfl
            · exact .inr ⟨hkn, hvk⟩
            · -- this thread has run already
              by_cases hP : P k
              · exact .inl hP
              · exact absurd ⟨hk, hvk, hP⟩ hn

/-- In the first loop the threads run that want a number from their own on. -/
theorem reachable_create (v : ℕ → ℕ) {i : ℕ} (hi : i ≤ N) :
    ∃ ts, (race N).Reachable ⟨.create i, ts⟩ ∧ ts.length = i ∧
      Printed v (fun k => k ≤ v k ∧ v k < i) ts := by
  induction i with
  | zero => exact ⟨[], System.Reachable.of_init rfl, rfl, fun k hk => absurd hk (Nat.not_lt_zero k)⟩
  | succ i ih =>
      obtain ⟨ts, hr, hlen, h⟩ := ih (by omega)
      have hcreate := hr.tail (RaceStep.create i rfl hi)
      have hnew : Printed v (fun k => k ≤ v k ∧ v k < i) (ts ++ [.entry]) := by
        intro k hk
        rw [List.length_append, List.length_singleton] at hk
        rcases Nat.lt_succ_iff_lt_or_eq.mp hk with hk | rfl
        · rw [List.getElem?_append_left hk]
          exact h k hk
        · rw [List.getElem?_concat_length]
          exact ⟨fun ⟨hle, hlt⟩ => absurd hle (by omega), fun _ => rfl⟩
      obtain ⟨ts', hr', hlen', h'⟩ := reachable_printed hcreate (by simp) hnew (i + 1)
      rw [List.length_append, hlen, List.length_singleton] at hlen'
      refine ⟨ts', hr'.tail (RaceStep.incr i rfl), hlen', h'.congr ?_⟩
      intro k hk
      show k ≤ v k ∧ v k < i ∨ k < i + 1 ∧ v k = i ↔ k ≤ v k ∧ v k < i + 1
      omega

/-- In the second loop the others run. -/
theorem reachable_join (hv : ∀ k < N, v k ≤ N) {i : ℕ} (hi : i ≤ N) :
    ∃ ts, (race N).Reachable ⟨.join i, ts⟩ ∧ ts.length = N ∧
      Printed v (fun k => k ≤ v k ∨ v k < i) ts := by
  induction i with
  | zero =>
      obtain ⟨ts, hr, hlen, h⟩ := reachable_create v (Nat.le_refl N)
      obtain ⟨ts', hr', hlen', h'⟩ := reachable_printed hr (by simp) h N
      refine ⟨ts', hr'.tail (RaceStep.createEnd N rfl (Nat.le_refl N)), hlen'.trans hlen,
        h'.congr ?_⟩
      intro k hk
      have := hv k (by omega)
      show k ≤ v k ∧ v k < N ∨ k < N ∧ v k = N ↔ k ≤ v k ∨ v k < 0
      omega
  | succ i ih =>
      obtain ⟨ts, hr, hlen, h⟩ := ih (by omega)
      obtain ⟨ts', hr', hlen', h'⟩ := reachable_printed hr (by simp) h N
      -- by now thread `i` has run
      have hjoined := (h' i (by omega)).1 (by show (i ≤ v i ∨ v i < i) ∨ _; omega)
      refine ⟨ts', hr'.tail (RaceStep.join i (v i) rfl hi hjoined), hlen'.trans hlen, h'.congr ?_⟩
      intro k hk
      show (k ≤ v k ∨ v k < i) ∨ k < N ∧ v k = i ↔ k ≤ v k ∨ v k < i + 1
      omega

/-- **The results of `race`**: every run ends, and the numbers that the threads print are any
`N` numbers from 0 to `N`. -/
theorem race_results (N : ℕ) :
    (race N).EndsIn (fun s => s.main = .exited) ∧
      ∀ v : ℕ → ℕ, (∃ s, (race N).Reachable s ∧ s.main = .exited ∧
        ∀ k < N, s.threads[k]? = some (.returned (v k))) ↔ ∀ k < N, v k ≤ N := by
  refine ⟨race_ends N, ?_⟩
  intro v
  constructor
  · rintro ⟨s, hr, -, h⟩ k hk
    exact (RaceInv.reachable hr).each (.returned (v k)) (List.mem_of_getElem? (h k hk))
  · intro hv
    obtain ⟨ts, hr, hlen, h⟩ := reachable_join hv (Nat.le_refl N)
    refine ⟨_, hr.tail (RaceStep.joinEnd N rfl (Nat.le_refl N)), rfl, ?_⟩
    intro k hk
    have := hv k hk
    exact (h k (by omega)).1 (by show k ≤ v k ∨ v k < N; omega)

/-! ## §4. `norace`. -/

inductive NoracePc where
  /-- at the test of the first loop, before `Malloc` -/
  | malloc (i : ℕ)
  /-- before `*ptr = i` -/
  | store (i ptr : ℕ)
  /-- before `Pthread_create` -/
  | create (i ptr : ℕ)
  /-- at the test of the second loop -/
  | join (i : ℕ)
  | exited
  deriving DecidableEq, Repr

inductive OwnPc where
  /-- before `int myid = *((int *)vargp)` -/
  | entry (vargp : ℕ)
  /-- before `Free(vargp)` -/
  | read (vargp myid : ℕ)
  /-- before the `printf` -/
  | freed (myid : ℕ)
  | returned (myid : ℕ)
  deriving DecidableEq, Repr

structure Norace where
  main : NoracePc
  threads : List OwnPc
  /-- The blocks that are allocated, with their contents. -/
  heap : ℕ → Option ℕ

/-- One step.  A block that is not allocated can be neither read nor freed. -/
inductive NoraceStep (N : ℕ) (s : Norace) : Norace → Prop where
  | malloc (i ptr junk : ℕ) (h : s.main = .malloc i) (hi : i < N) (hfree : s.heap ptr = none) :
      NoraceStep N s { s with
        main := .store i ptr, heap := Function.update s.heap ptr (some junk) }
  | store (i ptr junk : ℕ) (h : s.main = .store i ptr) (hptr : s.heap ptr = some junk) :
      NoraceStep N s { s with main := .create i ptr, heap := Function.update s.heap ptr (some i) }
  | create (i ptr : ℕ) (h : s.main = .create i ptr) :
      NoraceStep N s { s with main := .malloc (i + 1), threads := s.threads ++ [.entry ptr] }
  | createEnd (i : ℕ) (h : s.main = .malloc i) (hi : N ≤ i) :
      NoraceStep N s { s with main := .join 0 }
  | join (i myid : ℕ) (h : s.main = .join i) (hi : i < N)
      (ht : s.threads[i]? = some (.returned myid)) :
      NoraceStep N s { s with main := .join (i + 1) }
  | joinEnd (i : ℕ) (h : s.main = .join i) (hi : N ≤ i) :
      NoraceStep N s { s with main := .exited }
  | read (j vargp myid : ℕ) (ht : s.threads[j]? = some (.entry vargp))
      (hptr : s.heap vargp = some myid) :
      NoraceStep N s { s with threads := s.threads.set j (.read vargp myid) }
  | free (j vargp myid v : ℕ) (ht : s.threads[j]? = some (.read vargp myid))
      (hptr : s.heap vargp = some v) :
      NoraceStep N s { s with
        threads := s.threads.set j (.freed myid), heap := Function.update s.heap vargp none }
  | print (j myid : ℕ) (ht : s.threads[j]? = some (.freed myid)) :
      NoraceStep N s { s with threads := s.threads.set j (.returned myid) }

def norace (N : ℕ) : System Norace where
  init s := s = ⟨.malloc 0, [], fun _ => none⟩
  step := NoraceStep N

/-- The block that a thread has still to read or to free. -/
def OwnPc.block : OwnPc → Option ℕ
  | .entry vargp | .read vargp _ => some vargp
  | _ => none

/-- The block that `main` has not given away. -/
def NoracePc.block : NoracePc → List ℕ
  | .store _ ptr | .create _ ptr => [ptr]
  | _ => []

def NoracePc.created (N : ℕ) : NoracePc → ℕ
  | .malloc i | .store i _ | .create i _ => i
  | _ => N

/-- A thread with number `k`. -/
def OwnPc.Ok (heap : ℕ → Option ℕ) (k : ℕ) : OwnPc → Prop
  | .entry vargp => heap vargp = some k
  | .read vargp myid => (heap vargp).isSome ∧ myid = k
  | .freed myid | .returned myid => myid = k

def NoracePc.Ok (heap : ℕ → Option ℕ) (N : ℕ) (ts : List OwnPc) : NoracePc → Prop
  | .malloc i => i ≤ N
  | .store i ptr => i < N ∧ (heap ptr).isSome
  | .create i ptr => i < N ∧ heap ptr = some i
  | .join i => i ≤ N ∧ ∀ k < i, ts[k]? = some (.returned k)
  | .exited => ∀ k < N, ts[k]? = some (.returned k)

structure NoraceInv (N : ℕ) (s : Norace) : Prop where
  length : s.threads.length = s.main.created N
  main : s.main.Ok s.heap N s.threads
  each : ∀ (k : ℕ) t, s.threads[k]? = some t → t.Ok s.heap k
  /-- Every block has one owner. -/
  owners : (s.threads.filterMap OwnPc.block ++ s.main.block).Nodup
  owned : ∀ a, (s.heap a).isSome ↔ a ∈ s.threads.filterMap OwnPc.block ++ s.main.block

variable {s s' : Norace}

theorem OwnPc.Ok.frame {heap heap' : ℕ → Option ℕ} {k : ℕ} {t : OwnPc} (h : t.Ok heap k)
    (hsame : ∀ a, t.block = some a → heap' a = heap a) : t.Ok heap' k := by
  cases t with
  | entry vargp => exact (hsame vargp rfl).trans h
  | read vargp myid =>
      refine ⟨?_, h.2⟩
      rw [hsame vargp rfl]
      exact h.1
  | freed myid => exact h
  | returned myid => exact h

/-- A block that is not the thread's own. -/
theorem Ok_update {heap : ℕ → Option ℕ} {k a : ℕ} {t : OwnPc} {o : Option ℕ} (h : t.Ok heap k)
    (hne : t.block ≠ some a) : t.Ok (Function.update heap a o) k := by
  refine h.frame ?_
  intro b hb
  rw [Function.update_of_ne]
  rintro rfl
  exact hne hb

theorem mem_blocks {ts : List OwnPc} {k a : ℕ} {t : OwnPc} (ht : ts[k]? = some t)
    (ha : t.block = some a) : a ∈ ts.filterMap OwnPc.block :=
  List.mem_filterMap.mpr ⟨t, List.mem_of_getElem? ht, ha⟩

/-- A step of thread `j` that is still running. -/
theorem NoracePc.Ok.set {heap heap' : ℕ → Option ℕ} {ts : List OwnPc} {main : NoracePc} {j : ℕ}
    {t t' : OwnPc} (h : main.Ok heap N ts) (ht : ts[j]? = some t)
    (hrun : ∀ myid, t ≠ .returned myid) (hsame : ∀ a ∈ main.block, heap' a = heap a) :
    main.Ok heap' N (ts.set j t') := by
  have hkeep : ∀ k : ℕ, ts[k]? = some (.returned k) → (ts.set j t')[k]? = some (.returned k) := by
    intro k hk
    rcases getElem?_set_of_some t' ht hk with ⟨-, heq, -⟩ | ⟨-, hset⟩
    · exact absurd heq.symm (hrun k)
    · exact hset
  cases main with
  | malloc i => exact h
  | store i ptr => exact ⟨h.1, by rw [hsame ptr (by simp [NoracePc.block])]; exact h.2⟩
  | create i ptr => exact ⟨h.1, by rw [hsame ptr (by simp [NoracePc.block])]; exact h.2⟩
  | join i => exact ⟨h.1, fun k hk => hkeep k (h.2 k hk)⟩
  | exited => exact fun k hk => hkeep k (h k hk)

/-- A step of thread `j` that keeps its block. -/
theorem NoraceInv.set (h : NoraceInv N s) {j : ℕ} {t t' : OwnPc} (ht : s.threads[j]? = some t)
    (hrun : ∀ myid, t ≠ .returned myid) (hblock : t'.block = t.block) (hok : t'.Ok s.heap j) :
    NoraceInv N { s with threads := s.threads.set j t' } := by
  have hsame := filterMap_set_eq (f := OwnPc.block) ht hblock
  refine ⟨?_, h.main.set ht hrun (fun _ _ => rfl), ?_, ?_, ?_⟩
  · rw [List.length_set]
    exact h.length
  · intro k u hu
    rcases getElem?_set_cases hu with ⟨rfl, rfl⟩ | ⟨-, hu⟩
    · exact hok
    · exact h.each k u hu
  · rw [hsame]
    exact h.owners
  · rw [hsame]
    exact h.owned

/-- **One step** keeps the ledger of the blocks. -/
theorem NoraceInv.step (h : NoraceInv N s) (hstep : NoraceStep N s s') : NoraceInv N s' := by
  obtain ⟨hlen, hmain, heach, howners, howned⟩ := h
  cases hstep with
  | malloc i ptr junk hm hi hfree =>
      simp only [hm, NoracePc.created, NoracePc.block, List.append_nil] at hlen howners howned
      have hnew : ptr ∉ s.threads.filterMap OwnPc.block := by
        rw [← howned, hfree]
        simp
      refine ⟨hlen, ⟨hi, by simp⟩, ?_, ?_, ?_⟩
      · intro k t ht
        exact Ok_update (heach k t ht) fun ha => hnew (mem_blocks ht ha)
      · refine List.nodup_append.mpr ⟨howners, List.pairwise_singleton _ ptr, ?_⟩
        rintro a ha b hb rfl
        rw [List.mem_singleton.mp hb] at ha
        exact hnew ha
      · intro a
        simp only [NoracePc.block, List.mem_append, List.mem_singleton, ← howned,
          Function.update_apply]
        split <;> simp_all
  | store i ptr junk hm hptr =>
      simp only [hm, NoracePc.created, NoracePc.block] at hlen howners howned
      rw [hm] at hmain
      have hnew : ptr ∉ s.threads.filterMap OwnPc.block := by
        intro hin
        exact (List.nodup_append.mp howners).2.2 ptr hin ptr (by simp) rfl
      refine ⟨hlen, ⟨hmain.1, by simp⟩, ?_, howners, ?_⟩
      · intro k t ht
        exact Ok_update (heach k t ht) fun ha => hnew (mem_blocks ht ha)
      · intro a
        show (Function.update s.heap ptr (some i) a).isSome ↔ a ∈ _ ++ [ptr]
        rw [← howned, Function.update_apply]
        split
        · next heq => simp [heq, hptr]
        · rfl
  | create i ptr hm =>
      simp only [hm, NoracePc.created, NoracePc.block] at hlen howners howned
      rw [hm] at hmain
      have hgiven : (s.threads ++ [OwnPc.entry ptr]).filterMap OwnPc.block ++ [] =
          s.threads.filterMap OwnPc.block ++ [ptr] := by
        rw [List.filterMap_append, List.append_nil]
        rfl
      refine ⟨?_, hmain.1, ?_, ?_, ?_⟩
      · show (s.threads ++ [_]).length = i + 1
        rw [List.length_append, hlen]
        rfl
      · intro k t ht
        rcases getElem?_concat_cases ht with hold | ⟨rfl, rfl⟩
        · exact heach k t hold
        · rw [hlen]
          exact hmain.2
      · show (_ ++ [] : List ℕ).Nodup
        rw [hgiven]
        exact howners
      · intro a
        show _ ↔ a ∈ (_ ++ [] : List ℕ)
        rw [hgiven]
        exact howned a
  | createEnd i hm hi =>
      simp only [hm, NoracePc.created] at hlen
      rw [hm] at hmain howners howned
      have hle : i ≤ N := hmain
      exact ⟨by rw [hlen]; exact Nat.le_antisymm hle hi,
        ⟨Nat.zero_le N, fun k hk => absurd hk (Nat.not_lt_zero k)⟩, heach, howners, howned⟩
  | join i myid hm hi ht =>
      rw [hm] at hlen hmain howners howned
      refine ⟨hlen, ⟨hi, ?_⟩, heach, howners, howned⟩
      intro k hk
      rcases Nat.lt_succ_iff_lt_or_eq.mp hk with hk | rfl
      · exact hmain.2 k hk
      · have hself : myid = k := heach k _ ht
        rw [ht, hself]
  | joinEnd i hm hi =>
      rw [hm] at hlen hmain howners howned
      exact ⟨hlen, fun k hk => hmain.2 k (by omega), heach, howners, howned⟩
  | read j vargp myid ht hptr =>
      have hself := heach j _ ht
      refine NoraceInv.set ⟨hlen, hmain, heach, howners, howned⟩ ht (by simp) rfl ⟨?_, ?_⟩
      · rw [hptr]
        rfl
      · rw [OwnPc.Ok, hptr] at hself
        exact Option.some.inj hself
  | free j vargp myid v ht hptr =>
      have hless := filterMap_set_perm_of_none (f := OwnPc.block) (y := .freed myid) ht rfl rfl
      have hperm : (s.threads.filterMap OwnPc.block ++ s.main.block).Perm
          (vargp :: ((s.threads.set j (.freed myid)).filterMap OwnPc.block ++ s.main.block)) :=
        hless.append_right _
      have hnodup := hperm.nodup_iff.mp howners
      obtain ⟨hout, hrest⟩ := List.nodup_cons.mp hnodup
      refine ⟨?_, ?_, ?_, hrest, ?_⟩
      · rw [List.length_set]
        exact hlen
      · refine hmain.set ht (by simp) ?_
        intro a ha
        show Function.update s.heap vargp none a = s.heap a
        rw [Function.update_of_ne]
        rintro rfl
        exact hout (List.mem_append_right _ ha)
      · intro k t hk
        rcases getElem?_set_cases hk with ⟨rfl, rfl⟩ | ⟨hkj, hold⟩
        · exact (heach k _ ht).2
        · refine Ok_update (heach k t hold) ?_
          intro ha
          exact hout (List.mem_append_left _ (mem_blocks hk ha))
      · intro a
        have hmem := (howned a).trans hperm.mem_iff
        show (Function.update s.heap vargp none a).isSome ↔ _
        rw [Function.update_apply]
        split
        · next heq =>
            subst heq
            simp only [Option.isSome_none, Bool.false_eq_true, false_iff]
            exact hout
        · next hne =>
            rw [hmem, List.mem_cons]
            exact ⟨fun hin => hin.resolve_left hne, .inr⟩
  | print j myid ht =>
      have hself : myid = j := heach j _ ht
      exact NoraceInv.set ⟨hlen, hmain, heach, howners, howned⟩ ht (by simp) rfl hself

theorem NoraceInv.reachable (h : (norace N).Reachable s) : NoraceInv N s := by
  refine h.invariant ?_ (fun _ _ _ hinv hstep => hinv.step hstep)
  rintro s rfl
  exact ⟨rfl, Nat.zero_le N, by simp, by simp [NoracePc.block], by simp [NoracePc.block]⟩

def OwnPc.rank : OwnPc → ℕ
  | .entry _ => 3
  | .read _ _ => 2
  | .freed _ => 1
  | .returned _ => 0

def NoracePc.rank (N : ℕ) : NoracePc → ℕ
  | .malloc i => 6 * (N - i) + N + 2
  | .store i _ => 6 * (N - i) + N + 1
  | .create i _ => 6 * (N - i) + N
  | .join i => N - i + 1
  | .exited => 0

theorem NoraceInv.rank_lt (h : NoraceInv N s) (hstep : NoraceStep N s s') :
    s'.main.rank N + weight OwnPc.rank s'.threads < s.main.rank N + weight OwnPc.rank s.threads := by
  have hmain := h.main
  have hthread : ∀ {j : ℕ} {t : OwnPc} (t' : OwnPc), s.threads[j]? = some t → t'.rank < t.rank →
      s.main.rank N + weight OwnPc.rank (s.threads.set j t') <
        s.main.rank N + weight OwnPc.rank s.threads := by
    intro j t t' ht hlt
    have hset := weight_set OwnPc.rank t' ht
    omega
  cases hstep with
  | malloc i ptr junk hm hi hfree =>
      simp only [hm, NoracePc.rank]
      omega
  | store i ptr junk hm hptr =>
      simp only [hm, NoracePc.rank]
      omega
  | create i ptr hm =>
      rw [hm] at hmain
      have hlt := hmain.1
      have hset := weight_concat OwnPc.rank s.threads (.entry ptr)
      simp only [OwnPc.rank] at hset
      simp only [hm, NoracePc.rank]
      omega
  | createEnd i hm hi =>
      simp only [hm, NoracePc.rank]
      omega
  | join i myid hm hi ht =>
      simp only [hm, NoracePc.rank]
      omega
  | joinEnd i hm hi =>
      simp only [hm, NoracePc.rank]
      omega
  | read j vargp myid ht hptr => exact hthread (.read vargp myid) ht (Nat.lt_succ_self 2)
  | free j vargp myid v ht hptr => exact hthread (.freed myid) ht (Nat.lt_succ_self 1)
  | print j myid ht => exact hthread (.returned myid) ht (Nat.lt_succ_self 0)

/-- **Every run of `norace` ends**, and at its end no block is allocated. -/
theorem norace_ends (N : ℕ) : (norace N).EndsIn fun s => s.main = .exited ∧
    s.threads.length = N ∧ (∀ k < N, s.threads[k]? = some (.returned k)) ∧
    ∀ a, s.heap a = none := by
  refine System.ends_of_measure (fun s => s.main.rank N + weight OwnPc.rank s.threads)
    (fun _ _ hr hstep => (NoraceInv.reachable hr).rank_lt hstep) ?_
  intro s hr hstuck
  have hinv := NoraceInv.reachable hr
  have hmain := hinv.main
  -- no thread can move, so all have returned
  have hall : ∀ (k : ℕ) t, s.threads[k]? = some t → t = .returned k := by
    intro k t ht
    have hok := hinv.each k t ht
    cases t with
    | entry vargp => exact absurd (.read k vargp k ht hok) (hstuck _)
    | read vargp myid =>
        obtain ⟨v, hv⟩ := Option.isSome_iff_exists.mp hok.1
        exact absurd (.free k vargp myid v ht hv) (hstuck _)
    | freed myid => exact absurd (.print k myid ht) (hstuck _)
    | returned myid => rw [show myid = k from hok]
  cases hm : s.main with
  | malloc i =>
      exfalso
      rcases Nat.lt_or_ge i N with hi | hi
      · obtain ⟨ptr, hptr⟩ := Infinite.exists_notMem_finset
          (s.threads.filterMap OwnPc.block ++ s.main.block).toFinset
        rw [List.mem_toFinset, ← hinv.owned, Option.not_isSome_iff_eq_none] at hptr
        exact hstuck _ (.malloc i ptr 0 hm hi hptr)
      · exact hstuck _ (.createEnd i hm hi)
  | store i ptr =>
      rw [hm] at hmain
      obtain ⟨v, hv⟩ := Option.isSome_iff_exists.mp hmain.2
      exact absurd (.store i ptr v hm hv) (hstuck _)
  | create i ptr => exact absurd (.create i ptr hm) (hstuck _)
  | join i =>
      exfalso
      have hlen := hinv.length
      rw [hm] at hlen
      rcases Nat.lt_or_ge i N with hi | hi
      · have hlt : i < s.threads.length := by rw [hlen]; exact hi
        have ht := List.getElem?_eq_getElem hlt
        exact hstuck _ (.join i i hm hi (by rw [ht, hall i _ ht]))
      · exact hstuck _ (.joinEnd i hm hi)
  | exited =>
      have hlen := hinv.length
      rw [hm] at hlen hmain
      refine ⟨rfl, hlen, hmain, ?_⟩
      intro a
      rw [← Option.not_isSome_iff_eq_none, hinv.owned, hm]
      intro ha
      simp only [NoracePc.block, List.append_nil] at ha
      obtain ⟨t, ht, hblock⟩ := List.mem_filterMap.mp ha
      obtain ⟨k, hk⟩ := List.getElem?_of_mem ht
      rw [hall k t hk] at hblock
      cases hblock

/-- **The results of `norace`**: what a thread has still to read or to free is allocated, and
so is what `main` stores to; every run ends, thread `k` has printed `k`, and every block was
freed, once and after its last use. -/
theorem norace_results (N : ℕ) :
    (∀ s, (norace N).Reachable s →
      (∀ t ∈ s.threads, ∀ a, t.block = some a → (s.heap a).isSome = true) ∧
      ∀ i ptr, s.main = .store i ptr → (s.heap ptr).isSome = true) ∧
    (norace N).EndsIn fun s => s.main = .exited ∧
      s.threads.length = N ∧ (∀ k < N, s.threads[k]? = some (.returned k)) ∧
      ∀ a, s.heap a = none := by
  refine ⟨?_, norace_ends N⟩
  intro s hr
  have howned := (NoraceInv.reachable hr).owned
  constructor
  · intro t ht a ha
    exact (howned a).mpr (List.mem_append_left _ (List.mem_filterMap.mpr ⟨t, ht, ha⟩))
  · intro i ptr hm
    rw [howned, hm]
    exact List.mem_append_right _ List.mem_cons_self

end ComputerScience.Sync
