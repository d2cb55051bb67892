/-
  ComputerScience.Sync.EchoCnt
  ────────────────────────────
  **THE BYTE COUNTER OF `echo_cnt`** (`25-sync-advanced/echo_cnt.c`).

  Any number of threads are in `echo_cnt`, each with a connection of its own.  The first of
  them initialises the counter and its semaphore, the others wait in `Pthread_once` until that
  is done; from then on a thread adds the length of each line it has read to `byte_cnt` and
  prints the total, between `P` and `V`.

  A read of `byte_cnt` and the write that follows it are two steps, and the `printf` reads
  `byte_cnt` once more.  `byte_cnt` is a C `int` that wraps.

  Main results:
    • `CountInv.step` — a step of the counter,
    • `CountInv.session` — a step of a thread that leaves the counter alone,
    • `CountInv.byteCnt_eq` — what the counter holds.
-/
import ComputerScience.Lib.Pool
import ComputerScience.Lib.Word

namespace ComputerScience.Sync

open ComputerScience.Lib

/-! ## §1. The counter and the threads in `echo_cnt`. -/

/-- `static pthread_once_t once`. -/
inductive Once where
  | fresh
  /-- a thread is in `init_echo_cnt` -/
  | running
  | done
  deriving DecidableEq, Repr

/-- The static variables of `echo_cnt.c`, and what has been printed: of each line its length
and the total. -/
structure EchoCnt where
  once : Once
  mutex : ℕ
  byteCnt : ℤ
  log : List (ℕ × ℤ)

/-- Static variables are zero at first. -/
def EchoCnt.start : EchoCnt := ⟨.fresh, 0, 0, []⟩

/-- Where a thread is in `echo_cnt`. -/
inductive EchoPc where
  /-- before `Pthread_once` -/
  | once
  /-- in `init_echo_cnt`, before `Sem_init` -/
  | initSem
  /-- before `byte_cnt = 0` -/
  | initCnt
  /-- before the return to `Pthread_once` -/
  | initDone
  /-- in `Rio_readlineb` -/
  | read
  /-- before `P(&mutex)` -/
  | lock
  | load
  /-- `byte_cnt += n` has read `v` -/
  | store (v : ℤ)
  | print
  /-- before `V(&mutex)` -/
  | unlock
  /-- in `Rio_writen` -/
  | write
  /-- `echo_cnt` has returned -/
  | close
  deriving DecidableEq, Repr

/-- A thread in `echo_cnt(fd)`. -/
structure Session where
  fd : ℤ
  /-- what is in `buf` and not written back -/
  line : List UInt8
  /-- the unread bytes of its `rio_buf` -/
  rio : List UInt8
  pc : EchoPc

/-- The steps of a thread that concern the static variables; `n` bytes are in its buffer. -/
def EchoCnt.step (c : EchoCnt) (n : ℕ) : EchoPc → Option (EchoCnt × EchoPc)
  | .once =>
      match c.once with
      | .fresh => some ({ c with once := .running }, .initSem)
      | .running => none
      | .done => some (c, .read)
  | .initSem => some ({ c with mutex := 1 }, .initCnt)
  | .initCnt => some ({ c with byteCnt := 0 }, .initDone)
  | .initDone => some ({ c with once := .done }, .read)
  | .lock => if 0 < c.mutex then some ({ c with mutex := c.mutex - 1 }, .load) else none
  | .load => some (c, .store c.byteCnt)
  | .store v => some ({ c with byteCnt := int32 (v + n) }, .print)
  | .print => some ({ c with log := c.log ++ [(n, c.byteCnt)] }, .unlock)
  | .unlock => some ({ c with mutex := c.mutex + 1 }, .write)
  | .read | .write | .close => none

/-! ## §2. The invariant. -/

/-- 1 for a thread in `init_echo_cnt`. -/
def EchoPc.inits : EchoPc → ℕ
  | .initSem | .initCnt | .initDone => 1
  | _ => 0

/-- 1 for a thread behind `Pthread_once`. -/
def EchoPc.past : EchoPc → ℕ
  | .read | .lock | .load | .store _ | .print | .unlock | .write | .close => 1
  | _ => 0

/-- 1 for a thread between `P` and `V`. -/
def EchoPc.holds : EchoPc → ℕ
  | .load | .store _ | .print | .unlock => 1
  | _ => 0

/-- What a thread has added to the counter and not printed. -/
def EchoPc.added (n : ℕ) : EchoPc → ℕ
  | .print => n
  | _ => 0

/-- What a thread in its place relies on. -/
def EchoPc.Ok (c : EchoCnt) : EchoPc → Prop
  | .initCnt => c.mutex = 1
  | .initDone => c.mutex = 1 ∧ c.byteCnt = 0
  | .store v => v = c.byteCnt
  | _ => True

/-- The same for a thread that may be outside `echo_cnt`. -/
def inits (o : Option Session) : ℕ := o.elim 0 fun σ => σ.pc.inits

def past (o : Option Session) : ℕ := o.elim 0 fun σ => σ.pc.past

def holds (o : Option Session) : ℕ := o.elim 0 fun σ => σ.pc.holds

def added (o : Option Session) : ℕ := o.elim 0 fun σ => σ.pc.added σ.line.length

/-- The bytes that were printed. -/
def bytes (log : List (ℕ × ℤ)) : ℕ := (log.map Prod.fst).sum

/-- Every total that was printed is the sum of the lengths up to its own. -/
def Exact (log : List (ℕ × ℤ)) : Prop :=
  ∀ before n total, before ++ [(n, total)] <+: log → total = int32 (bytes before + n : ℕ)

/-- How far the initialisation is. -/
def Phase (c : EchoCnt) (ss : List (Option Session)) : Prop :=
  match c.once with
  | .fresh => weight inits ss = 0 ∧ weight past ss = 0 ∧ c.log = []
  | .running => weight inits ss = 1 ∧ weight past ss = 0 ∧ c.log = []
  | .done => weight inits ss = 0 ∧ c.mutex + weight holds ss = 1 ∧
      c.byteCnt = int32 (bytes c.log + weight added ss : ℕ)

structure CountInv (c : EchoCnt) (ss : List (Option Session)) : Prop where
  phase : Phase c ss
  each : ∀ (j : ℕ) σ, ss[j]? = some (some σ) → σ.pc.Ok c
  exact : Exact c.log

variable {c c' : EchoCnt} {ss : List (Option Session)} {j : ℕ} {σ σ' : Session}

/-- The counts after thread `j` went from `x` to `y`. -/
theorem sessions_set {x : Option Session} (y : Option Session) (h : ss[j]? = some x) :
    weight inits (ss.set j y) + inits x = weight inits ss + inits y ∧
      weight past (ss.set j y) + past x = weight past ss + past y ∧
      weight holds (ss.set j y) + holds x = weight holds ss + holds y ∧
      weight added (ss.set j y) + added x = weight added ss + added y :=
  ⟨weight_set _ y h, weight_set _ y h, weight_set _ y h, weight_set _ y h⟩

/-- A new state of thread `j`. -/
theorem CountInv.set {y : Option Session} (hphase : Phase c' (ss.set j y))
    (hok : ∀ τ, y = some τ → τ.pc.Ok c')
    (hother : ∀ (k : ℕ) τ, k ≠ j → ss[k]? = some (some τ) → τ.pc.Ok c')
    (hexact : Exact c'.log) : CountInv c' (ss.set j y) := by
  refine ⟨hphase, ?_, hexact⟩
  intro k τ hτ
  rcases getElem?_set_cases hτ with ⟨-, heq⟩ | ⟨hkj, hτ⟩
  · exact hok τ heq.symm
  · exact hother k τ hkj hτ

/-- **A step of a thread that leaves the counter alone.** -/
theorem CountInv.session (h : CountInv c ss) {x y : Option Session} (hj : ss[j]? = some x)
    (hinits : inits y = inits x) (hpast : past y ≤ past x) (hholds : holds y = holds x)
    (hadded : added y = added x) (hok : ∀ τ, y = some τ → τ.pc.Ok c) :
    CountInv c (ss.set j y) := by
  obtain ⟨h₁, h₂, h₃, h₄⟩ := sessions_set y hj
  refine CountInv.set ?_ hok (fun k τ _ hτ => h.each k τ hτ) h.exact
  have hphase := h.phase
  unfold Phase at hphase ⊢
  cases hc : c.once with
  | fresh =>
      simp only [hc] at hphase ⊢
      exact ⟨by omega, by omega, hphase.2.2⟩
  | running =>
      simp only [hc] at hphase ⊢
      exact ⟨by omega, by omega, hphase.2.2⟩
  | done =>
      simp only [hc] at hphase ⊢
      have hsame : weight added (ss.set j y) = weight added ss := by omega
      rw [hsame]
      exact ⟨by omega, by omega, hphase.2.2⟩

/-- While a thread is in `init_echo_cnt` it is the only one there, and none is past it. -/
theorem CountInv.initialising (h : CountInv c ss) (hj : ss[j]? = some (some σ))
    (hin : σ.pc.inits = 1) : c.once = .running ∧ weight past ss = 0 ∧ c.log = [] ∧
      weight inits ss = 1 := by
  have hle : σ.pc.inits ≤ weight inits ss := le_weight inits hj
  have hphase := h.phase
  unfold Phase at hphase
  cases hc : c.once with
  | fresh =>
      simp only [hc] at hphase
      omega
  | running =>
      simp only [hc] at hphase
      exact ⟨rfl, hphase.2.1, hphase.2.2, hphase.1⟩
  | done =>
      simp only [hc] at hphase
      omega

/-- Behind `Pthread_once` the counter is in use. -/
theorem CountInv.in_use (h : CountInv c ss) (hj : ss[j]? = some (some σ)) (hin : σ.pc.past = 1) :
    c.once = .done ∧ weight inits ss = 0 ∧ c.mutex + weight holds ss = 1 ∧
      c.byteCnt = int32 (bytes c.log + weight added ss : ℕ) := by
  have hle : σ.pc.past ≤ weight past ss := le_weight past hj
  have hphase := h.phase
  unfold Phase at hphase
  cases hc : c.once with
  | fresh =>
      simp only [hc] at hphase
      omega
  | running =>
      simp only [hc] at hphase
      omega
  | done =>
      simp only [hc] at hphase
      exact ⟨rfl, hphase⟩

/-- Only in `init_echo_cnt` and between `P` and `V` a thread relies on anything. -/
theorem EchoPc.ok_of_zero {pc : EchoPc} (hinits : pc.inits = 0) (hholds : pc.holds = 0)
    (c : EchoCnt) : pc.Ok c := by
  cases pc with
  | initCnt => cases hinits
  | initDone => cases hinits
  | store v => cases hholds
  | _ => trivial

theorem EchoPc.holds_le_past (pc : EchoPc) : pc.holds ≤ pc.past := by
  cases pc <;> simp [EchoPc.holds, EchoPc.past]

/-- While a thread is in `init_echo_cnt`, nobody else relies on the counter. -/
theorem CountInv.others_initialising (h : CountInv c ss) (hj : ss[j]? = some (some σ))
    (hin : σ.pc.inits = 1) (c' : EchoCnt) (k : ℕ) (τ : Session) (hkj : k ≠ j)
    (hτ : ss[k]? = some (some τ)) : τ.pc.Ok c' := by
  obtain ⟨-, hpast, -, hone⟩ := h.initialising hj hin
  have htwo : τ.pc.inits + σ.pc.inits ≤ weight inits ss := add_le_weight inits hτ hj hkj
  have hle : τ.pc.past ≤ weight past ss := le_weight past hτ
  have hholds := τ.pc.holds_le_past
  exact EchoPc.ok_of_zero (by omega) (by omega) c'

/-- Between `P` and `V` a thread is alone. -/
theorem CountInv.others_locked (h : CountInv c ss) (hj : ss[j]? = some (some σ))
    (hin : σ.pc.past = 1) (hheld : σ.pc.holds = 1) (c' : EchoCnt) (k : ℕ) (τ : Session)
    (hkj : k ≠ j) (hτ : ss[k]? = some (some τ)) : τ.pc.Ok c' := by
  obtain ⟨-, hinits, hlock, -⟩ := h.in_use hj hin
  have htwo : τ.pc.holds + σ.pc.holds ≤ weight holds ss := add_le_weight holds hτ hj hkj
  have hle : τ.pc.inits ≤ weight inits ss := le_weight inits hτ
  exact EchoPc.ok_of_zero (by omega) (by omega) c'

/-- When the semaphore is free nobody relies on the counter. -/
theorem CountInv.others_free (h : CountInv c ss) (hj : ss[j]? = some (some σ))
    (hin : σ.pc.past = 1) (hfree : 0 < c.mutex) (c' : EchoCnt) (k : ℕ) (τ : Session)
    (hτ : ss[k]? = some (some τ)) : τ.pc.Ok c' := by
  obtain ⟨-, hinits, hlock, -⟩ := h.in_use hj hin
  have hheld : τ.pc.holds ≤ weight holds ss := le_weight holds hτ
  have hle : τ.pc.inits ≤ weight inits ss := le_weight inits hτ
  exact EchoPc.ok_of_zero (by omega) (by omega) c'

/-- Only a thread between `P` and `V` has bytes in the counter that are not printed. -/
theorem added_eq_zero (h : weight holds ss = 0) : weight added ss = 0 := by
  by_contra hne
  obtain ⟨i, o, ho, hpos⟩ := exists_of_weight_pos added (l := ss) (by omega)
  have hle := le_weight holds ho
  cases o with
  | none => cases hpos
  | some τ =>
      obtain ⟨fd, line, rio, pc⟩ := τ
      cases pc with
      | print =>
          change 1 ≤ weight holds ss at hle
          omega
      | _ => cases hpos

theorem CountInv.added_eq (h : CountInv c ss) (hj : ss[j]? = some (some σ))
    (hin : σ.pc.past = 1) (hheld : σ.pc.holds = 1) :
    weight added ss = σ.pc.added σ.line.length := by
  obtain ⟨-, -, hlock, -⟩ := h.in_use hj hin
  obtain ⟨-, -, h₃, h₄⟩ := sessions_set none hj
  change _ + σ.pc.holds = _ + 0 at h₃
  change _ + σ.pc.added _ = _ + 0 at h₄
  have hzero : weight added (ss.set j none) = 0 := added_eq_zero (by omega)
  omega

theorem bytes_concat (log : List (ℕ × ℤ)) (n : ℕ) (total : ℤ) :
    bytes (log ++ [(n, total)]) = bytes log + n := by
  simp only [bytes, List.map_append, List.map_cons, List.map_nil, List.sum_append,
    List.sum_singleton]

theorem Exact.concat {log : List (ℕ × ℤ)} (h : Exact log) {n : ℕ} {total : ℤ}
    (htotal : total = int32 (bytes log + n : ℕ)) : Exact (log ++ [(n, total)]) := by
  intro before m t hpre
  rcases List.prefix_concat_iff.mp hpre with heq | hpre
  · obtain ⟨rfl, hlast⟩ := List.append_inj' heq rfl
    cases hlast
    exact htotal
  · exact h before m t hpre

theorem int32_add_natCast (x n : ℕ) : int32 (int32 (x : ℤ) + n) = int32 (x + n : ℕ) := by
  unfold int32
  rw [Int.bmod_add_bmod, Nat.cast_add]

/-! ## §3. One step. -/

/-- **A step of the counter** keeps the invariant. -/
theorem CountInv.step (h : CountInv c ss) (hj : ss[j]? = some (some σ)) {pc' : EchoPc}
    (hstep : c.step σ.line.length σ.pc = some (c', pc')) :
    CountInv c' (ss.set j (some { σ with pc := pc' })) := by
  obtain ⟨fd, line, rio, pc⟩ := σ
  show CountInv c' (ss.set j (some ⟨fd, line, rio, pc'⟩))
  obtain ⟨h₁, h₂, h₃, h₄⟩ := sessions_set (some ⟨fd, line, rio, pc'⟩) hj
  change _ + pc.inits = _ + pc'.inits at h₁
  change _ + pc.past = _ + pc'.past at h₂
  change _ + pc.holds = _ + pc'.holds at h₃
  change _ + pc.added line.length = _ + pc'.added line.length at h₄
  have hok : pc.Ok c := h.each j _ hj
  have hself : pc'.Ok c' → ∀ τ, some (Session.mk fd line rio pc') = some τ → τ.pc.Ok c' := by
    rintro hok' τ heq
    cases heq
    exact hok'
  cases pc with
  | once =>
      have hphase := h.phase
      unfold Phase at hphase
      cases hc : c.once with
      | fresh =>
          simp only [EchoCnt.step, hc] at hstep
          cases hstep
          simp only [hc] at hphase
          simp only [EchoPc.inits, EchoPc.past] at h₁ h₂
          refine CountInv.set ⟨by omega, by omega, hphase.2.2⟩ (hself trivial) ?_ h.exact
          intro k τ _ hτ
          have hinits : τ.pc.inits ≤ weight inits ss := le_weight inits hτ
          have hpast : τ.pc.past ≤ weight past ss := le_weight past hτ
          have hholds := τ.pc.holds_le_past
          exact EchoPc.ok_of_zero (by omega) (by omega) _
      | running =>
          simp only [EchoCnt.step, hc] at hstep
          cases hstep
      | done =>
          simp only [EchoCnt.step, hc] at hstep
          cases hstep
          simp only [hc] at hphase
          simp only [EchoPc.inits, EchoPc.holds, EchoPc.added] at h₁ h₃ h₄
          refine CountInv.set ?_ (hself trivial) (fun k τ _ hτ => h.each k τ hτ) h.exact
          simp only [Phase, hc]
          rw [show weight added (ss.set j (some ⟨fd, line, rio, .read⟩)) = weight added ss by omega]
          exact ⟨by omega, by omega, hphase.2.2⟩
  | initSem =>
      cases hstep
      obtain ⟨hrun, hpast, hlog, hone⟩ := h.initialising hj rfl
      simp only [EchoPc.inits, EchoPc.past] at h₁ h₂
      refine CountInv.set ?_ (hself rfl) (h.others_initialising hj rfl _) h.exact
      simp only [Phase, hrun]
      exact ⟨by omega, by omega, hlog⟩
  | initCnt =>
      cases hstep
      obtain ⟨hrun, hpast, hlog, hone⟩ := h.initialising hj rfl
      simp only [EchoPc.inits, EchoPc.past] at h₁ h₂
      refine CountInv.set ?_ (hself ⟨hok, rfl⟩) (h.others_initialising hj rfl _) h.exact
      simp only [Phase, hrun]
      exact ⟨by omega, by omega, hlog⟩
  | initDone =>
      cases hstep
      obtain ⟨hmutex, hcnt⟩ := hok
      obtain ⟨hrun, hpast, hlog, hone⟩ := h.initialising hj rfl
      refine CountInv.set ?_ (hself trivial) (h.others_initialising hj rfl _) h.exact
      -- nobody holds the semaphore or has added anything
      have hheld : weight holds ss = 0 := by
        have hle : weight holds ss ≤ weight past ss := by
          refine weight_mono ?_ ss
          intro o
          cases o with
          | none => exact Nat.le_refl _
          | some τ => exact τ.pc.holds_le_past
        omega
      have hadded := added_eq_zero hheld
      simp only [EchoPc.inits, EchoPc.holds, EchoPc.added] at h₁ h₃ h₄
      refine ⟨by omega, ?_, ?_⟩
      · show c.mutex + weight holds (ss.set j (some ⟨fd, line, rio, .read⟩)) = 1
        omega
      · show c.byteCnt =
          int32 (bytes c.log + weight added (ss.set j (some ⟨fd, line, rio, .read⟩)) : ℕ)
        rw [hcnt, hlog, show weight added (ss.set j (some ⟨fd, line, rio, .read⟩)) = 0 by omega]
        rfl
  | lock =>
      simp only [EchoCnt.step] at hstep
      split at hstep
      · next hfree =>
          cases hstep
          obtain ⟨hdone, hinits, hlock, hcnt⟩ := h.in_use hj rfl
          simp only [EchoPc.inits, EchoPc.holds, EchoPc.added] at h₁ h₃ h₄
          refine CountInv.set ?_ (hself trivial)
            (fun k τ _ hτ => h.others_free hj rfl hfree _ k τ hτ) h.exact
          simp only [Phase, hdone]
          rw [show weight added (ss.set j (some ⟨fd, line, rio, .load⟩)) = weight added ss by omega]
          exact ⟨by omega, by omega, hcnt⟩
      · cases hstep
  | load =>
      cases hstep
      obtain ⟨hdone, hinits, hlock, hcnt⟩ := h.in_use hj rfl
      simp only [EchoPc.inits, EchoPc.holds, EchoPc.added] at h₁ h₃ h₄
      refine CountInv.set ?_ (hself rfl) (h.others_locked hj rfl rfl _) h.exact
      simp only [Phase, hdone]
      rw [show weight added (ss.set j (some ⟨fd, line, rio, .store c.byteCnt⟩)) = weight added ss by
        omega]
      exact ⟨by omega, by omega, hcnt⟩
  | store v =>
      cases hstep
      obtain rfl : v = c.byteCnt := hok
      obtain ⟨hdone, hinits, hlock, hcnt⟩ := h.in_use hj rfl
      have hadded := h.added_eq hj rfl rfl
      simp only [EchoPc.inits, EchoPc.holds, EchoPc.added] at h₁ h₃ h₄ hadded
      refine CountInv.set ?_ (hself trivial) (h.others_locked hj rfl rfl _) h.exact
      simp only [Phase, hdone]
      refine ⟨by omega, by omega, ?_⟩
      rw [show weight added (ss.set j (some ⟨fd, line, rio, .print⟩)) = line.length by omega, hcnt,
        hadded, Nat.add_zero, int32_add_natCast]
  | print =>
      cases hstep
      obtain ⟨hdone, hinits, hlock, hcnt⟩ := h.in_use hj rfl
      have hadded := h.added_eq hj rfl rfl
      simp only [EchoPc.inits, EchoPc.holds, EchoPc.added] at h₁ h₃ h₄ hadded
      rw [hadded] at hcnt
      refine CountInv.set ?_ (hself trivial) (h.others_locked hj rfl rfl _) (h.exact.concat hcnt)
      simp only [Phase, hdone]
      refine ⟨by omega, by omega, ?_⟩
      rw [bytes_concat, show weight added (ss.set j (some ⟨fd, line, rio, .unlock⟩)) = 0 by omega]
      exact hcnt
  | unlock =>
      cases hstep
      obtain ⟨hdone, hinits, hlock, hcnt⟩ := h.in_use hj rfl
      simp only [EchoPc.inits, EchoPc.holds, EchoPc.added] at h₁ h₃ h₄
      refine CountInv.set ?_ (hself trivial) (h.others_locked hj rfl rfl _) h.exact
      simp only [Phase, hdone]
      rw [show weight added (ss.set j (some ⟨fd, line, rio, .write⟩)) = weight added ss by omega]
      exact ⟨by omega, by omega, hcnt⟩
  | read => cases hstep
  | write => cases hstep
  | close => cases hstep

theorem CountInv.start {ss : List (Option Session)} (hout : ∀ o ∈ ss, o = none) :
    CountInv EchoCnt.start ss := by
  have hzero : ∀ w : Option Session → ℕ, w none = 0 → weight w ss = 0 := by
    intro w hw
    rw [weight_eq_length_mul (c := 0) fun o ho => by rw [hout o ho, hw], Nat.mul_zero]
  refine ⟨⟨hzero inits rfl, hzero past rfl, rfl⟩, ?_, ?_⟩
  · intro j σ hj
    cases hout _ (List.mem_of_getElem? hj)
  · intro before n total hpre
    exact absurd (List.prefix_nil.mp hpre) (by simp)

/-- While no thread is between `P` and `V`, the counter holds what was printed. -/
theorem CountInv.byteCnt_eq (h : CountInv c ss) (hdone : c.once = .done) (hfree : 0 < c.mutex) :
    c.byteCnt = int32 (bytes c.log) := by
  have hphase := h.phase
  simp only [Phase, hdone] at hphase
  obtain ⟨-, hlock, hcnt⟩ := hphase
  rw [hcnt, added_eq_zero (by omega), Nat.add_zero]

end ComputerScience.Sync
