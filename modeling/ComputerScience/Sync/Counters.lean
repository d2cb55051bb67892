/-
  ComputerScience.Sync.Counters
  ─────────────────────────────
  **TWO COUNTER PROGRAMS** (`24-sync-basic/badcnt.c`, `24-sync-basic/goodcnt.c`).

  Two threads add `niters` times one to the global `cnt`, without and with a semaphore.
  `cnt++` is a read and a write, and an interleaving may put anything between them.

  How far can `badcnt` be off?  Not only by the updates that overlap: a thread may hold a
  value it read at the beginning while the other one runs almost to its end.  The final values
  are all those between 2 and `2 * niters`.  The lower bound holds because the last write of
  all is that of a thread which has written before, so it has read a value above zero.

  Main results:
    • `badcnt_results` — every run ends, and the final values of `cnt` are exactly these,
    • `goodcnt_results` — every run ends with `2 * niters` (0 if that is negative); the
      comparison that reports it is made with the `int` product `2 * niters`.
-/
import ComputerScience.Lib.ForkJoin
import ComputerScience.Lib.Word

namespace ComputerScience.Sync

open ComputerScience.Lib

/-! ## §1. `badcnt`. -/

/-- The thread routine of `badcnt`, at its accesses to `cnt`. -/
inductive BadPc where
  | entry
  /-- at the test of the loop -/
  | test (i : ℕ)
  /-- `cnt++` has read `v` -/
  | loaded (i v : ℕ)
  | returned
  deriving DecidableEq, Repr

/-- The next step of a thread; `cnt` never exceeds `2^32`, so a `long` holds it. -/
def BadPc.step (niters : ℤ) (cnt : ℕ) : BadPc → Option (ℕ × BadPc)
  | .entry => some (cnt, .test 0)
  | .test i => if (i : ℤ) < niters then some (cnt, .loaded i cnt) else some (cnt, .returned)
  | .loaded i v => some (v + 1, .test (i + 1))
  | .returned => none

def badRoutine (niters : ℤ) : Routine ℕ BadPc where
  enter := .entry
  step _ := BadPc.step niters
  finished t := t == .returned
  stop := by
    intro j m l h
    rw [beq_iff_eq] at h
    rw [h]
    rfl

/-- `badcnt`: two threads, and `cnt` is 0 at first. -/
def badcnt (niters : ℤ) : System (Fork ℕ BadPc) := forkJoin (badRoutine niters) 2 0

/-- How often a thread has written. -/
def BadPc.writes (niters : ℤ) : BadPc → ℕ
  | .entry => 0
  | .test i | .loaded i _ => i
  | .returned => niters.toNat

/-- What is known of a thread when the threads have written `w` times together.  Behind its
first write it reads a value above zero. -/
def BadPc.Ok (niters : ℤ) (w : ℕ) : BadPc → Prop
  | .entry => True
  | .test i => i ≤ niters.toNat
  | .loaded i v => i < niters.toNat ∧ v ≤ w ∧ (1 ≤ i → 1 ≤ v)
  | .returned => True

structure BadInv (niters : ℤ) (cnt : ℕ) (ts : List BadPc) : Prop where
  each : ∀ (j : ℕ) t, ts[j]? = some t → t.Ok niters (weight (BadPc.writes niters) ts)
  le : cnt ≤ weight (BadPc.writes niters) ts
  pos : ∀ (j : ℕ) t, ts[j]? = some t → 1 ≤ t.writes niters → 1 ≤ cnt
  /-- when the last write was made -/
  last : ts ≠ [] → (∀ t ∈ ts, t.writes niters = niters.toNat) → min 2 niters.toNat ≤ cnt

variable {niters : ℤ} {cnt : ℕ} {ts : List BadPc}

theorem BadPc.Ok.mono {t : BadPc} {w w' : ℕ} (h : t.Ok niters w) (hle : w ≤ w') :
    t.Ok niters w' := by
  cases t with
  | entry => trivial
  | test i => exact h
  | loaded i v => exact ⟨h.1, h.2.1.trans hle, h.2.2⟩
  | returned => trivial

theorem BadInv.create (h : BadInv niters cnt ts) : BadInv niters cnt (ts ++ [.entry]) := by
  have hweight : weight (BadPc.writes niters) (ts ++ [.entry]) =
      weight (BadPc.writes niters) ts := weight_concat _ _ _
  refine ⟨?_, hweight ▸ h.le, ?_, ?_⟩
  · intro j t ht
    rw [hweight]
    rcases getElem?_concat_cases ht with hold | ⟨-, rfl⟩
    · exact h.each j t hold
    · trivial
  · intro j t ht hw
    rcases getElem?_concat_cases ht with hold | ⟨-, rfl⟩
    · exact h.pos j t hold hw
    · cases hw
  · intro _ hall
    have hzero := hall .entry (by simp)
    rw [← hzero]
    exact Nat.le_trans (Nat.min_le_right _ _) (Nat.zero_le _)

/-- **A step of a thread** keeps the invariant. -/
theorem BadInv.step (h : BadInv niters cnt ts) {j : ℕ} {t t' : BadPc} {cnt' : ℕ}
    (ht : ts[j]? = some t) (hstep : t.step niters cnt = some (cnt', t')) :
    BadInv niters cnt' (ts.set j t') := by
  have hset := weight_set (BadPc.writes niters) t' ht
  have hok := h.each j t ht
  have hlt := (List.getElem?_eq_some_iff.mp ht).1
  have hmem : t' ∈ ts.set j t' := List.mem_of_getElem? (List.getElem?_set_self hlt)
  -- a step that writes nothing
  have hread : cnt' = cnt → t'.writes niters = t.writes niters →
      t'.Ok niters (weight (BadPc.writes niters) ts) → BadInv niters cnt' (ts.set j t') := by
    rintro rfl hwrites hok'
    have hsame : weight (BadPc.writes niters) (ts.set j t') = weight (BadPc.writes niters) ts := by
      omega
    refine ⟨?_, hsame ▸ h.le, ?_, ?_⟩
    · intro k u hu
      rw [hsame]
      rcases getElem?_set_cases hu with ⟨-, rfl⟩ | ⟨-, hu⟩
      · exact hok'
      · exact h.each k u hu
    · intro k u hu hw
      rcases getElem?_set_cases hu with ⟨-, rfl⟩ | ⟨-, hu⟩
      · exact h.pos j t ht (hwrites ▸ hw)
      · exact h.pos k u hu hw
    · intro _ hall
      refine h.last (List.ne_nil_of_mem (List.mem_of_getElem? ht)) ?_
      intro u hu
      obtain ⟨k, hk⟩ := List.getElem?_of_mem hu
      by_cases hkj : k = j
      · subst hkj
        rw [ht] at hk
        cases hk
        rw [← hwrites]
        exact hall t' hmem
      · refine hall u (List.mem_of_getElem? (i := k) ?_)
        rw [List.getElem?_set_ne (Ne.symm hkj)]
        exact hk
  cases t with
  | entry =>
      cases hstep
      exact hread rfl rfl (Nat.zero_le _)
  | test i =>
      simp only [BadPc.step] at hstep
      split at hstep
      · next hi =>
          cases hstep
          refine hread rfl rfl ⟨by omega, h.le, ?_⟩
          exact h.pos j (.test i) ht
      · next hi =>
          cases hstep
          have hle : i ≤ niters.toNat := hok
          refine hread rfl ?_ trivial
          show niters.toNat = i
          omega
  | loaded i v =>
      cases hstep
      obtain ⟨hi, hv, hpos⟩ := hok
      have hmore : weight (BadPc.writes niters) (ts.set j (.test (i + 1))) =
          weight (BadPc.writes niters) ts + 1 := by
        simp only [BadPc.writes] at hset
        omega
      refine ⟨?_, by omega, ?_, ?_⟩
      · intro k u hu
        rcases getElem?_set_cases hu with ⟨-, rfl⟩ | ⟨-, hu⟩
        · exact hi
        · exact (h.each k u hu).mono (by omega)
      · intro _ _ _ _
        exact Nat.succ_pos v
      · intro _ hall
        -- this was the last write of the thread, so it is not its first one unless `niters` is 1
        have hlast : i + 1 = niters.toNat := hall _ hmem
        rcases Nat.eq_zero_or_pos i with rfl | hi1
        · omega
        · have := hpos hi1
          omega
  | returned => cases hstep

theorem BadInv.reachable {s : Fork ℕ BadPc} (h : (badcnt niters).Reachable s) :
    BadInv niters s.mem s.threads := by
  refine forkJoin_invariant ?_ (fun _ _ _ hinv => hinv.create)
    (fun _ _ _ _ _ _ _ hinv ht hstep => hinv.step ht hstep) h
  exact ⟨by simp, Nat.le_refl _, by simp, fun hne => absurd rfl hne⟩

/-- Where `main` compares, `cnt` is between the bounds. -/
theorem BadInv.joined {s : Fork ℕ BadPc} (h : (badcnt niters).Reachable s)
    (hmain : s.main = .joined) : min 2 niters.toNat ≤ s.mem ∧ s.mem ≤ 2 * niters.toNat := by
  have hinv := BadInv.reachable h
  have hok := Fork.Ok.reachable h
  rw [Fork.Ok, hmain] at hok
  obtain ⟨hlen, hfin⟩ := hok
  have hall : ∀ t ∈ s.threads, t.writes niters = niters.toNat := by
    intro t ht
    obtain ⟨j, hj⟩ := List.getElem?_of_mem ht
    obtain ⟨t', ht', hret⟩ := hfin j (by rw [← hlen]; exact (List.getElem?_eq_some_iff.mp hj).1)
    rw [hj] at ht'
    cases ht'
    rw [show t = .returned from eq_of_beq hret]
    rfl
  refine ⟨hinv.last ?_ hall, ?_⟩
  · intro hnil
    rw [hnil] at hlen
    cases hlen
  · have hle := hinv.le
    rw [weight_eq_length_mul hall, hlen] at hle
    omega

/-- How many steps a thread has left. -/
def BadPc.rank (niters : ℤ) : BadPc → ℕ
  | .entry => 2 * niters.toNat + 2
  | .test i => 2 * (niters.toNat - i) + 1
  | .loaded i _ => 2 * (niters.toNat - i)
  | .returned => 0

/-- Every run ends. -/
theorem badcnt_ends (niters : ℤ) : (badcnt niters).EndsIn fun s => s.main = .joined := by
  have hends := forkJoin_ends (R := badRoutine niters) (n := 2) (m := 0) (BadPc.rank niters)
    (fun s h => BadInv.reachable h) ?_ ?_
  · exact ⟨hends.1, fun s hreach hstuck => (hends.2 s hreach hstuck).1⟩
  · intro m ts j t m' t' hinv ht hstep
    have hok := hinv.each j t ht
    change t.step niters m = some (m', t') at hstep
    cases t with
    | entry =>
        cases hstep
        simp only [BadPc.rank]
        omega
    | test i =>
        simp only [BadPc.step] at hstep
        split at hstep
        · cases hstep
          simp only [BadPc.rank]
          omega
        · cases hstep
          simp only [BadPc.rank]
          omega
    | loaded i v =>
        cases hstep
        have := hok.1
        simp only [BadPc.rank]
        omega
    | returned => cases hstep
  · rintro m ts - ⟨j, t, ht, hfin⟩
    refine ⟨j, t, ht, ?_⟩
    show (t.step niters m).isSome = true
    cases t with
    | entry => rfl
    | test i =>
        simp only [BadPc.step]
        split <;> rfl
    | loaded i v => rfl
    | returned => cases hfin

/-! ## §2. Schedules of `badcnt`. -/

/-- The state in which `main` waits for the first thread. -/
def both (cnt : ℕ) (t₁ t₂ : BadPc) : Fork ℕ BadPc := ⟨cnt, [t₁, t₂], .joining 0⟩

variable {c c' : ℕ} {t₁ t₂ t' : BadPc}

theorem step_first (h : t₁.step niters c = some (c', t')) :
    (badcnt niters).step (both c t₁ t₂) (both c' t' t₂) :=
  ForkStep.thread (s := both c t₁ t₂) 0 t₁ t' c' rfl h

theorem step_second (h : t₂.step niters c = some (c', t')) :
    (badcnt niters).step (both c t₁ t₂) (both c' t₁ t') :=
  ForkStep.thread (s := both c t₁ t₂) 1 t₂ t' c' rfl h

theorem step_test {i : ℕ} (hi : i < niters.toNat) :
    (BadPc.test i).step niters c = some (c, .loaded i c) := by
  rw [BadPc.step, if_pos (by omega)]

theorem step_loaded {i v : ℕ} :
    (BadPc.loaded i v).step niters c = some (v + 1, .test (i + 1)) := rfl

/-- The first thread goes round its loop while the second one rests. -/
theorem rounds_first (t₂ : BadPc) {i k : ℕ} (hk : i + k ≤ niters.toNat) :
    Relation.ReflTransGen (badcnt niters).step (both c (.test i) t₂)
      (both (c + k) (.test (i + k)) t₂) := by
  induction k with
  | zero => exact .refl
  | succ k ih =>
      have hlt : i + k < niters.toNat := by omega
      exact ((ih (by omega)).tail (step_first (step_test hlt))).tail (step_first step_loaded)

theorem rounds_second (t₁ : BadPc) {i k : ℕ} (hk : i + k ≤ niters.toNat) :
    Relation.ReflTransGen (badcnt niters).step (both c t₁ (.test i))
      (both (c + k) t₁ (.test (i + k))) := by
  induction k with
  | zero => exact .refl
  | succ k ih =>
      have hlt : i + k < niters.toNat := by omega
      exact ((ih (by omega)).tail (step_second (step_test hlt))).tail (step_second step_loaded)

/-- A run in which the threads go from their first tests to their last ones can be completed. -/
theorem reachable_joined {v : ℕ}
    (h : Relation.ReflTransGen (badcnt niters).step (both 0 (.test 0) (.test 0))
      (both v (.test niters.toNat) (.test niters.toNat))) :
    ∃ s, (badcnt niters).Reachable s ∧ s.main = .joined ∧ s.mem = v := by
  have hcreate : (badcnt niters).Reachable (both 0 .entry .entry) := by
    have hzero : (badcnt niters).Reachable ⟨0, [], .creating 0⟩ := System.Reachable.of_init rfl
    have hone := hzero.tail (ForkStep.create 0 rfl Nat.zero_lt_two)
    have htwo := hone.tail (ForkStep.create 1 rfl Nat.one_lt_two)
    exact htwo.tail (ForkStep.createEnd 2 rfl (Nat.le_refl 2))
  have htests : (badcnt niters).Reachable (both 0 (.test 0) (.test 0)) :=
    (hcreate.tail (step_first rfl)).tail (step_second rfl)
  have hleave : (BadPc.test niters.toNat).step niters v = some (v, .returned) := by
    rw [BadPc.step, if_neg (by omega)]
  have hdone : (badcnt niters).Reachable (both v .returned .returned) :=
    ((htests.trans h).tail (step_first hleave)).tail (step_second hleave)
  have hfirst := hdone.tail (ForkStep.join 0 .returned rfl Nat.zero_lt_two rfl rfl)
  have hsecond := hfirst.tail (ForkStep.join 1 .returned rfl Nat.one_lt_two rfl rfl)
  exact ⟨_, hsecond.tail (ForkStep.joinEnd 2 rfl (Nat.le_refl 2)), rfl, rfl⟩

/-- **The schedule for a value from 2 on.**  After `a` and `b` undisturbed rounds the first
thread reads; the second one goes on to its last round, which it begins right behind the write
of the first; that last round ends when the first thread is through. -/
theorem schedule {a b : ℕ} (ha : a < niters.toNat) (hb : b < niters.toNat) :
    Relation.ReflTransGen (badcnt niters).step (both 0 (.test 0) (.test 0))
      (both (a + b + 2) (.test niters.toNat) (.test niters.toNat)) := by
  obtain ⟨p, hp⟩ := Nat.exists_eq_add_of_lt ha
  obtain ⟨q, hq⟩ := Nat.exists_eq_add_of_lt hb
  have hstart : Relation.ReflTransGen (badcnt niters).step (both 0 (.test 0) (.test 0))
      (both (a + b) (.test a) (.test b)) := by
    have ha' : 0 + a ≤ niters.toNat := by omega
    have hb' : 0 + b ≤ niters.toNat := by omega
    have hfirst := rounds_first (c := 0) (.test 0) ha'
    have hsecond := rounds_second (c := a) (.test a) hb'
    simp only [Nat.zero_add] at hfirst hsecond
    exact hfirst.trans hsecond
  -- the first thread holds `a + b`
  have hhold := (hstart.tail (step_first (step_test ha))).trans
    (rounds_second _ (k := q) (show b + q ≤ niters.toNat by omega))
  have hwrite := (hhold.tail (step_first rfl)).tail
    (step_second (step_test (show b + q < niters.toNat by omega)))
  -- the second thread holds `a + b + 1`
  have hend := (hwrite.trans (rounds_first _ (k := p) (show a + 1 + p ≤ niters.toNat by omega))).tail
    (step_second rfl)
  rw [show a + 1 + p = niters.toNat by omega, show b + q + 1 = niters.toNat by omega] at hend
  exact hend

/-- One round each, and both threads read 0. -/
theorem schedule_one (h : niters.toNat = 1) :
    Relation.ReflTransGen (badcnt niters).step (both 0 (.test 0) (.test 0))
      (both 1 (.test niters.toNat) (.test niters.toNat)) := by
  have hlt : 0 < niters.toNat := by omega
  have hfirst : (badcnt niters).step (both 0 (.test 0) (.test 0)) (both 0 (.loaded 0 0) (.test 0)) :=
    step_first (step_test hlt)
  have hread := (Relation.ReflTransGen.single hfirst).tail (step_second (step_test hlt))
  rw [h]
  exact (hread.tail (step_first rfl)).tail (step_second rfl)

/-- What `main` prints. -/
def badcntReport (niters : ℤ) (cnt : ℕ) : String :=
  if (cnt : ℤ) ≠ 2 * niters then "BOOM! cnt=" ++ toString cnt ++ "\n"
  else "OK cnt=" ++ toString cnt ++ "\n"

/-- **The results of `badcnt`**: every run ends, and `main` may find every value between 2 (or
`niters`, if that is less) and `2 * niters` in `cnt`, and no other. -/
theorem badcnt_results (niters : ℤ) :
    (badcnt niters).EndsIn (fun s => s.main = .joined) ∧
      ∀ v, (∃ s, (badcnt niters).Reachable s ∧ s.main = .joined ∧ s.mem = v) ↔
        min 2 niters.toNat ≤ v ∧ v ≤ 2 * niters.toNat := by
  refine ⟨badcnt_ends niters, ?_⟩
  intro v
  constructor
  · rintro ⟨s, hreach, hmain, rfl⟩
    exact BadInv.joined hreach hmain
  · rintro ⟨hlow, hhigh⟩
    apply reachable_joined
    rcases Nat.lt_or_ge v 2 with hv | hv
    · rcases Nat.eq_zero_or_pos niters.toNat with hzero | hpos
      · obtain rfl : v = 0 := by omega
        rw [hzero]
      · obtain rfl : v = 1 := by omega
        exact schedule_one (by omega)
    · have hsplit : v = min (v - 2) (niters.toNat - 1) +
          (v - 2 - min (v - 2) (niters.toNat - 1)) + 2 := by omega
      rw [hsplit]
      exact schedule (by omega) (by omega)

/-! ## §3. `goodcnt`. -/

/-- The global variables of `goodcnt`. -/
structure GoodMem where
  cnt : ℕ
  mutex : ℕ

/-- The thread routine of `goodcnt`. -/
inductive GoodPc where
  | entry
  /-- at the test of the loop, before `P(&mutex)` -/
  | test (i : ℕ)
  | locked (i : ℕ)
  /-- `cnt++` has read `v` -/
  | loaded (i v : ℕ)
  /-- before `V(&mutex)` -/
  | stored (i : ℕ)
  | returned
  deriving DecidableEq, Repr

def GoodPc.step (niters : ℤ) (m : GoodMem) : GoodPc → Option (GoodMem × GoodPc)
  | .entry => some (m, .test 0)
  | .test i =>
      if (i : ℤ) < niters then
        if 0 < m.mutex then some ({ m with mutex := m.mutex - 1 }, .locked i) else none
      else some (m, .returned)
  | .locked i => some (m, .loaded i m.cnt)
  | .loaded i v => some ({ m with cnt := v + 1 }, .stored i)
  | .stored i => some ({ m with mutex := m.mutex + 1 }, .test (i + 1))
  | .returned => none

def goodRoutine (niters : ℤ) : Routine GoodMem GoodPc where
  enter := .entry
  step _ := GoodPc.step niters
  finished t := t == .returned
  stop := by
    intro j m l h
    rw [beq_iff_eq] at h
    rw [h]
    rfl

/-- `goodcnt`: the semaphore is 1 at first. -/
def goodcnt (niters : ℤ) : System (Fork GoodMem GoodPc) := forkJoin (goodRoutine niters) 2 ⟨0, 1⟩

/-- What `main` prints; here `niters` is an `int`, and so is `2 * niters`, which wraps around
as on the machine. -/
def goodcntReport (niters : ℤ) (cnt : ℕ) : String :=
  if (cnt : ℤ) ≠ int32 (2 * niters) then "BOOM! cnt=" ++ toString cnt ++ "\n"
  else "OK cnt=" ++ toString cnt ++ "\n"

def GoodPc.writes (niters : ℤ) : GoodPc → ℕ
  | .entry => 0
  | .test i | .locked i | .loaded i _ => i
  | .stored i => i + 1
  | .returned => niters.toNat

def GoodPc.holds : GoodPc → ℕ
  | .locked _ | .loaded _ _ | .stored _ => 1
  | _ => 0

/-- A thread is within its loop, and what it has read is still there. -/
def GoodPc.Ok (niters : ℤ) (cnt : ℕ) : GoodPc → Prop
  | .entry => True
  | .test i => i ≤ niters.toNat
  | .locked i | .stored i => i < niters.toNat
  | .loaded i v => i < niters.toNat ∧ v = cnt
  | .returned => True

structure GoodInv (niters : ℤ) (m : GoodMem) (ts : List GoodPc) : Prop where
  each : ∀ (j : ℕ) t, ts[j]? = some t → t.Ok niters m.cnt
  lock : m.mutex + weight GoodPc.holds ts = 1
  sum : m.cnt = weight (GoodPc.writes niters) ts

variable {m : GoodMem} {gs : List GoodPc}

theorem GoodInv.create (h : GoodInv niters m gs) : GoodInv niters m (gs ++ [.entry]) := by
  refine ⟨?_, ?_, ?_⟩
  · intro j t ht
    rcases getElem?_concat_cases ht with hold | ⟨-, rfl⟩
    · exact h.each j t hold
    · trivial
  · rw [weight_concat]
    exact h.lock
  · rw [weight_concat]
    exact h.sum

/-- While a thread holds the semaphore no other thread has read `cnt`. -/
theorem GoodInv.alone (h : GoodInv niters m gs) {j k : ℕ} {t u : GoodPc} (ht : gs[j]? = some t)
    (hheld : t.holds = 1) (hu : gs[k]? = some u) (hkj : k ≠ j) : u.holds = 0 := by
  have htwo := add_le_weight GoodPc.holds hu ht hkj
  have hlock := h.lock
  omega

/-- A new state of thread `j`. -/
theorem GoodInv.set (h : GoodInv niters m gs) {j : ℕ} {t t' : GoodPc} {m' : GoodMem}
    (ht : gs[j]? = some t) (hok : t'.Ok niters m'.cnt)
    (hother : ∀ (k : ℕ) u, k ≠ j → gs[k]? = some u → u.Ok niters m'.cnt)
    (hlock : m'.mutex + t'.holds = m.mutex + t.holds)
    (hsum : m'.cnt + t.writes niters = m.cnt + t'.writes niters) :
    GoodInv niters m' (gs.set j t') := by
  refine ⟨?_, ?_, ?_⟩
  · intro k u hu
    rcases getElem?_set_cases hu with ⟨-, rfl⟩ | ⟨hkj, hu⟩
    · exact hok
    · exact hother k u hkj hu
  · have hset := weight_set GoodPc.holds t' ht
    have := h.lock
    omega
  · have hset := weight_set (GoodPc.writes niters) t' ht
    have := h.sum
    omega

/-- **A step of a thread** keeps the invariant. -/
theorem GoodInv.step (h : GoodInv niters m gs) {j : ℕ} {t t' : GoodPc} {m' : GoodMem}
    (ht : gs[j]? = some t) (hstep : t.step niters m = some (m', t')) :
    GoodInv niters m' (gs.set j t') := by
  have hok := h.each j t ht
  have hkeep : ∀ (k : ℕ) u, k ≠ j → gs[k]? = some u → u.Ok niters m.cnt :=
    fun k u _ hu => h.each k u hu
  cases t with
  | entry =>
      cases hstep
      exact h.set ht (Nat.zero_le _) hkeep rfl rfl
  | test i =>
      simp only [GoodPc.step] at hstep
      split at hstep
      · next hi =>
          split at hstep
          · next hfree =>
              cases hstep
              refine h.set ht (show i < niters.toNat by omega) hkeep ?_ rfl
              simp only [GoodPc.holds]
              omega
          · cases hstep
      · next hi =>
          cases hstep
          have hle : i ≤ niters.toNat := hok
          refine h.set ht trivial hkeep rfl ?_
          simp only [GoodPc.writes]
          omega
  | locked i =>
      cases hstep
      exact h.set ht ⟨hok, rfl⟩ hkeep rfl rfl
  | loaded i v =>
      cases hstep
      obtain ⟨hi, rfl⟩ := hok
      refine h.set ht hi ?_ rfl ?_
      · -- no other thread holds the old value
        intro k u hkj hu
        have hu' := h.each k u hu
        have hout := h.alone ht rfl hu hkj
        cases u with
        | loaded i' v' => cases hout
        | _ => exact hu'
      · simp only [GoodPc.writes]
        omega
  | stored i =>
      cases hstep
      exact h.set ht hok hkeep rfl rfl
  | returned => cases hstep

theorem GoodInv.reachable {s : Fork GoodMem GoodPc} (h : (goodcnt niters).Reachable s) :
    GoodInv niters s.mem s.threads := by
  refine forkJoin_invariant ?_ (fun _ _ _ hinv => hinv.create)
    (fun _ _ _ _ _ _ _ hinv ht hstep => hinv.step ht hstep) h
  exact ⟨by simp, rfl, rfl⟩

/-- How many steps a thread has left. -/
def GoodPc.rank (niters : ℤ) : GoodPc → ℕ
  | .entry => 4 * niters.toNat + 2
  | .test i => 4 * (niters.toNat - i) + 1
  | .locked i => 4 * (niters.toNat - i)
  | .loaded i _ => 4 * (niters.toNat - i) - 1
  | .stored i => 4 * (niters.toNat - i) - 2
  | .returned => 0

theorem GoodInv.rank_lt (h : GoodInv niters m gs) {j : ℕ} {t t' : GoodPc} {m' : GoodMem}
    (ht : gs[j]? = some t) (hstep : t.step niters m = some (m', t')) :
    t'.rank niters < t.rank niters := by
  have hok := h.each j t ht
  cases t with
  | entry =>
      cases hstep
      simp only [GoodPc.rank]
      omega
  | test i =>
      simp only [GoodPc.step] at hstep
      split at hstep
      · split at hstep
        · cases hstep
          simp only [GoodPc.rank]
          omega
        · cases hstep
      · cases hstep
        simp only [GoodPc.rank]
        omega
  | locked i =>
      cases hstep
      have hi : i < niters.toNat := hok
      simp only [GoodPc.rank]
      omega
  | loaded i v =>
      cases hstep
      have hi : i < niters.toNat := hok.1
      simp only [GoodPc.rank]
      omega
  | stored i =>
      cases hstep
      have hi : i < niters.toNat := hok
      simp only [GoodPc.rank]
      omega
  | returned => cases hstep

/-- **No deadlock**: a thread waits only for one that holds the semaphore. -/
theorem GoodInv.moves (h : GoodInv niters m gs) {j : ℕ} {t : GoodPc} (ht : gs[j]? = some t)
    (hrun : t ≠ .returned) :
    ∃ (k : ℕ) (u : GoodPc), gs[k]? = some u ∧ (u.step niters m).isSome := by
  by_cases hmutex : 0 < m.mutex
  · refine ⟨j, t, ht, ?_⟩
    cases t with
    | test i =>
        simp only [GoodPc.step, if_pos hmutex]
        split <;> rfl
    | returned => exact absurd rfl hrun
    | _ => rfl
  · have hlock := h.lock
    obtain ⟨k, u, hu, hholds⟩ := exists_of_weight_pos GoodPc.holds (l := gs) (by omega)
    refine ⟨k, u, hu, ?_⟩
    cases u with
    | locked i => rfl
    | loaded i v => rfl
    | stored i => rfl
    | _ => cases hholds

/-- When the product of the comparison is the number of increments. -/
theorem product_eq_iff (hint : -2 ^ 31 ≤ niters ∧ niters < 2 ^ 31) :
    ((2 * niters.toNat : ℕ) : ℤ) = int32 (2 * niters) ↔
      0 ≤ niters ∧ niters < 2 ^ 30 ∨ niters = -2 ^ 31 := by
  have hcount : ((2 * niters.toNat : ℕ) : ℤ) = 2 * max niters 0 := by omega
  rw [hcount, int32_eq]
  split <;> omega

/-- **The results of `goodcnt`**: every run ends with `cnt` exact.  `main` says "OK" if
`2 * niters` is an `int` and not negative, and for the one negative `niters` whose double wraps
around to 0; otherwise it says "BOOM". -/
theorem goodcnt_results (niters : ℤ) (hint : -2 ^ 31 ≤ niters ∧ niters < 2 ^ 31) :
    (goodcnt niters).EndsIn fun s => s.main = .joined ∧ s.mem.cnt = 2 * niters.toNat ∧
      goodcntReport niters s.mem.cnt =
        if 0 ≤ niters ∧ niters < 2 ^ 30 ∨ niters = -2 ^ 31 then
          "OK cnt=" ++ toString s.mem.cnt ++ "\n"
        else "BOOM! cnt=" ++ toString s.mem.cnt ++ "\n" := by
  have hends := forkJoin_ends (R := goodRoutine niters) (n := 2) (m := ⟨0, 1⟩) (GoodPc.rank niters)
    (fun s h => GoodInv.reachable h) (fun _ _ _ _ _ _ hinv ht hstep => hinv.rank_lt ht hstep) ?_
  · refine ⟨hends.1, ?_⟩
    intro s hreach hstuck
    obtain ⟨hmain, hlen, hfin, hinv⟩ := hends.2 s hreach hstuck
    have hcnt : s.mem.cnt = 2 * niters.toNat := by
      rw [hinv.sum, ← hlen]
      refine weight_eq_length_mul ?_
      intro t ht
      obtain ⟨j, hj⟩ := List.getElem?_of_mem ht
      obtain ⟨t', ht', hret⟩ := hfin j (by rw [← hlen]; exact (List.getElem?_eq_some_iff.mp hj).1)
      rw [hj] at ht'
      cases ht'
      rw [show t = .returned from eq_of_beq hret]
      rfl
    refine ⟨hmain, hcnt, ?_⟩
    rw [hcnt, goodcntReport]
    by_cases hok : 0 ≤ niters ∧ niters < 2 ^ 30 ∨ niters = -2 ^ 31
    · rw [if_pos hok, if_neg (not_not.mpr ((product_eq_iff hint).mpr hok))]
    · rw [if_neg hok, if_pos (fun heq => hok ((product_eq_iff hint).mp heq))]
  · rintro m ts hinv ⟨j, t, ht, hfin⟩
    refine hinv.moves ht ?_
    rintro rfl
    cases hfin

/-- With `-5` no thread counts, and `main` is not content. -/
theorem goodcnt_results_minusFive : (goodcnt (-5)).EndsIn fun s => s.main = .joined ∧
    s.mem.cnt = 0 ∧ goodcntReport (-5) s.mem.cnt = "BOOM! cnt=" ++ toString s.mem.cnt ++ "\n" :=
  goodcnt_results (-5) ⟨by decide, by decide⟩

end ComputerScience.Sync
