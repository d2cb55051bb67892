/-
  ComputerScience.Signals.Procmask
  ────────────────────────────────
  **THE JOB LIST UNDER SIGCHLD** (`15-ecf-signals/procmask1.c`, `procmask2.c`): a main
  loop that forks children and a handler that reaps them, with one job list between the
  two.

  A step is one call of the main loop or of the handler, the end of a child, a signal
  becoming pending, or its delivery.  A signal is delivered when the mask allows it,
  whatever runs: the handler is pushed on a stack of frames, with `SIGCHLD` added to the
  mask, and its return restores the mask it interrupted.  Pending signals are one bit.

  Main results:
    • `ProcInv.step` — what one step preserves in `procmask2`,
    • `procmask2_job_order` — no job is deleted before it is added, and with `SIGCHLD`
      unblocked the job list is exactly the children not yet reaped,
    • `procmask1_deletes_first` — without the first `sigprocmask` both can fail.
-/
import ComputerScience.Lib.Pool
import ComputerScience.Lib.TransitionSystem
import Mathlib.Data.List.Perm.Basic

namespace ComputerScience.Signals

open ComputerScience.Lib
open scoped List

/-! ## §1. Masks, programs, the process. -/

/-- `sigset_t`. -/
abbrev Sigset := ℕ → Bool

def SIGCHLD : ℕ := 17

def sigfillset : Sigset := fun _ => true

def sigemptyset : Sigset := fun _ => false

def sigaddset (set : Sigset) (sig : ℕ) : Sigset := Function.update set sig true

/-- `sigprocmask(SIG_BLOCK, set, ..)`: the new mask. -/
def sigBlock (mask set : Sigset) : Sigset := fun sig => mask sig || set sig

/-- `mask_one`. -/
def maskOne : Sigset := sigaddset sigemptyset SIGCHLD

/-- `mask_all`. -/
def maskAll : Sigset := sigfillset

/-- The two versions of the main loop. -/
inductive Program where
  /-- `procmask1.c`: "This code is buggy!" -/
  | procmask1
  /-- `procmask2.c` -/
  | procmask2
  deriving DecidableEq, Repr

/-- Where the main loop is: the call it makes next. -/
inductive MainPc where
  /-- `Sigprocmask(SIG_BLOCK, &mask_one, &prev_one)`; `procmask2` only. -/
  | block
  /-- `pid = Fork()` -/
  | fork
  /-- `Sigprocmask(SIG_BLOCK, &mask_all, ..)` in the parent -/
  | blockAll (pid : ℕ)
  /-- `addjob(pid)` -/
  | addjob (pid : ℕ)
  /-- `Sigprocmask(SIG_SETMASK, ..)` with the mask saved before -/
  | setmask
  /-- the process is gone: `Fork` or `waitpid` failed -/
  | exited
  deriving DecidableEq, Repr

/-- Where an activation of `handler` is. -/
inductive HandlerPc where
  /-- `pid = waitpid(-1, NULL, 0)` -/
  | waitpid
  /-- `Sigprocmask(SIG_BLOCK, &mask_all, &prev_all)` -/
  | blockAll (pid : ℕ)
  /-- `deletejob(pid)` -/
  | deletejob (pid : ℕ) (prev_all : Sigset)
  /-- `Sigprocmask(SIG_SETMASK, &prev_all, NULL)` -/
  | setmask (prev_all : Sigset)

/-- A call on the job list. -/
inductive JobCall where
  | addjob (pid : ℕ)
  | deletejob (pid : ℕ)
  deriving DecidableEq, Repr

/-- The process and its children. -/
structure Proc where
  main : MainPc
  /-- The mask in force. -/
  mask : Sigset
  /-- `prev_one` of `procmask2`, `prev_all` of the main loop of `procmask1`. -/
  prev : Sigset
  /-- `SIGCHLD` is pending. -/
  pending : Bool
  /-- Children that have not terminated. -/
  live : List ℕ
  /-- Children that have terminated and are not reaped. -/
  zombies : List ℕ
  /-- Running activations of `handler`, the innermost first, each with the mask that its
  return restores. -/
  frames : List (HandlerPc × Sigset)
  /-- The calls made on the job list, in order. -/
  calls : List JobCall

/-- The first call of the loop body. -/
def Program.top : Program → MainPc
  | .procmask1 => .fork
  | .procmask2 => .block

/-- Where `Sigprocmask(SIG_BLOCK, &mask_all, ..)` of the main loop saves the mask:
`procmask2` passes `NULL`. -/
def Program.saved : Program → Sigset → Sigset → Sigset
  | .procmask1, mask, _ => mask
  | .procmask2, _, prev => prev

/-! ## §2. The steps. -/

/-- One step of the process, of a child or of the kernel. -/
inductive ProcStep (prog : Program) (s : Proc) : Proc → Prop where
  | block (hf : s.frames = []) (h : s.main = .block) :
      ProcStep prog s { s with
        mask := sigBlock s.mask maskOne, prev := s.mask, main := .fork }
  /-- The pid of a new child belongs to no child that is not reaped; it may have
  belonged to one that is. -/
  | fork (pid : ℕ) (hf : s.frames = []) (h : s.main = .fork) (hpos : 0 < pid)
      (hnew : pid ∉ s.live ++ s.zombies) :
      ProcStep prog s { s with live := pid :: s.live, main := .blockAll pid }
  | forkError (hf : s.frames = []) (h : s.main = .fork) :
      ProcStep prog s { s with main := .exited }
  | blockAll (pid : ℕ) (hf : s.frames = []) (h : s.main = .blockAll pid) :
      ProcStep prog s { s with
        mask := sigBlock s.mask maskAll, prev := prog.saved s.mask s.prev,
        main := .addjob pid }
  | addjob (pid : ℕ) (hf : s.frames = []) (h : s.main = .addjob pid) :
      ProcStep prog s { s with calls := s.calls ++ [.addjob pid], main := .setmask }
  | setmask (hf : s.frames = []) (h : s.main = .setmask) :
      ProcStep prog s { s with mask := s.prev, main := prog.top }
  -- the kernel
  | terminate (pid : ℕ) (h : pid ∈ s.live) :
      ProcStep prog s { s with
        live := s.live.erase pid, zombies := pid :: s.zombies, pending := true }
  | raise : ProcStep prog s { s with pending := true }
  | deliver (hmain : s.main ≠ .exited) (hpending : s.pending = true)
      (hmask : s.mask SIGCHLD = false) :
      ProcStep prog s { s with
        pending := false, mask := sigBlock s.mask maskOne,
        frames := (.waitpid, s.mask) :: s.frames }
  -- the handler
  | reap (pid : ℕ) (old : Sigset) (fs : List (HandlerPc × Sigset))
      (hf : s.frames = (.waitpid, old) :: fs) (h : pid ∈ s.zombies) :
      ProcStep prog s { s with
        zombies := s.zombies.erase pid, frames := (.blockAll pid, old) :: fs }
  | blockInHandler (pid : ℕ) (old : Sigset) (fs : List (HandlerPc × Sigset))
      (hf : s.frames = (.blockAll pid, old) :: fs) :
      ProcStep prog s { s with
        mask := sigBlock s.mask maskAll, frames := (.deletejob pid s.mask, old) :: fs }
  | deletejob (pid : ℕ) (prev_all old : Sigset) (fs : List (HandlerPc × Sigset))
      (hf : s.frames = (.deletejob pid prev_all, old) :: fs) :
      ProcStep prog s { s with
        calls := s.calls ++ [.deletejob pid], frames := (.setmask prev_all, old) :: fs }
  | unblockInHandler (prev_all old : Sigset) (fs : List (HandlerPc × Sigset))
      (hf : s.frames = (.setmask prev_all, old) :: fs) :
      ProcStep prog s { s with mask := prev_all, frames := (.waitpid, old) :: fs }
  /-- `ECHILD`: there is nothing to wait for, and the handler returns.  With a live
  child and no zombie `waitpid` sleeps. -/
  | echild (old : Sigset) (fs : List (HandlerPc × Sigset))
      (hf : s.frames = (.waitpid, old) :: fs) (hlive : s.live = []) (hzombies : s.zombies = []) :
      ProcStep prog s { s with mask := old, frames := fs }
  /-- Any other error of `waitpid` ends the process (`Sio_error`). -/
  | waitError (old : Sigset) (fs : List (HandlerPc × Sigset))
      (hf : s.frames = (.waitpid, old) :: fs) :
      ProcStep prog s { s with main := .exited, frames := [] }

/-- The process from the top of its loop, without children and with any inherited mask;
a signal may be pending already. -/
def procSystem (prog : Program) : System Proc where
  init s := s.main = prog.top ∧ s.live = [] ∧ s.zombies = [] ∧ s.frames = [] ∧ s.calls = []
  step := ProcStep prog

/-! ## §3. The account of the job list. -/

/-- `1` if the two pids are the same. -/
def same (p q : ℕ) : ℕ := if p = q then 1 else 0

/-- The main loop has forked `pid` and not yet added it. -/
def MainPc.owes (pid : ℕ) : MainPc → ℕ
  | .blockAll p | .addjob p => same p pid
  | _ => 0

/-- The activation has reaped `pid` and not yet deleted it. -/
def HandlerPc.holds (pid : ℕ) : HandlerPc → ℕ
  | .blockAll p | .deletejob p _ => same p pid
  | _ => 0

/-- The mask the activation will put back still blocks `SIGCHLD`. -/
def HandlerPc.keepsBlocked : HandlerPc → Prop
  | .deletejob _ prev_all | .setmask prev_all => prev_all SIGCHLD = true
  | _ => True

/-- How often `pid` was added, respectively deleted. -/
def added (calls : List JobCall) (pid : ℕ) : ℕ := calls.count (.addjob pid)

def deleted (calls : List JobCall) (pid : ℕ) : ℕ := calls.count (.deletejob pid)

/-- At every moment no pid was deleted more often than it was added. -/
def AddedFirst (calls : List JobCall) : Prop :=
  ∀ past, past <+: calls → ∀ pid, deleted past pid ≤ added past pid

theorem added_concat_addjob (calls : List JobCall) (p pid : ℕ) :
    added (calls ++ [.addjob p]) pid = added calls pid + same p pid ∧
      deleted (calls ++ [.addjob p]) pid = deleted calls pid := by
  constructor
  · unfold added same
    by_cases h : p = pid <;> simp [h]
  · unfold deleted
    simp

theorem added_concat_deletejob (calls : List JobCall) (p pid : ℕ) :
    added (calls ++ [.deletejob p]) pid = added calls pid ∧
      deleted (calls ++ [.deletejob p]) pid = deleted calls pid + same p pid := by
  constructor
  · unfold added
    simp
  · unfold deleted same
    by_cases h : p = pid <;> simp [h]

/-- One more call keeps the order if the counts are in order after it. -/
theorem AddedFirst.concat {calls : List JobCall} {c : JobCall} (h : AddedFirst calls)
    (hc : ∀ pid, deleted (calls ++ [c]) pid ≤ added (calls ++ [c]) pid) :
    AddedFirst (calls ++ [c]) := by
  intro past hpast
  rcases List.prefix_concat_iff.mp hpast with rfl | hold
  · exact hc
  · exact h past hold

/-- **The account**: additions and the child the main loop still owes are the deletions,
the children not reaped, and the one the handler has reaped and still holds. -/
def Balanced (s : Proc) : Prop :=
  ∀ pid, added s.calls pid + s.main.owes pid =
    deleted s.calls pid + (s.live ++ s.zombies).count pid +
      weight (fun f => f.1.holds pid) s.frames

/-! ## §4. The masks. -/

/-- **Which mask is in force**: between the first `sigprocmask` of the loop and its last
one `SIGCHLD` is blocked and no handler runs; a handler runs alone, over the top of the
loop, with `SIGCHLD` blocked. -/
def Masked (s : Proc) : Prop :=
  (s.frames = [] ∧ (s.mask SIGCHLD = true ∨ s.main = .block ∨ s.main = .exited)) ∨
    ∃ h old, s.frames = [(h, old)] ∧ s.main = .block ∧ s.mask SIGCHLD = true ∧ h.keepsBlocked

theorem sigBlock_maskOne (mask : Sigset) : sigBlock mask maskOne SIGCHLD = true := by
  simp [sigBlock, maskOne, sigaddset]

theorem sigBlock_maskAll (mask : Sigset) (sig : ℕ) : sigBlock mask maskAll sig = true := by
  simp [sigBlock, maskAll, sigfillset]

/-- With `SIGCHLD` unblocked no handler runs, and the main loop is at its top. -/
theorem Masked.top {s : Proc} (h : Masked s) (hmask : s.mask SIGCHLD = false) :
    s.frames = [] ∧ (s.main = .block ∨ s.main = .exited) := by
  rcases h with ⟨hf, hblocked | htop⟩ | ⟨_, _, _, _, hblocked, _⟩
  · rw [hmask] at hblocked
    cases hblocked
  · exact ⟨hf, htop⟩
  · rw [hmask] at hblocked
    cases hblocked

/-- A frame is the only one. -/
theorem Masked.frame {s : Proc} (h : Masked s) {f : HandlerPc} {old : Sigset}
    {fs : List (HandlerPc × Sigset)} (hf : s.frames = (f, old) :: fs) :
    fs = [] ∧ s.main = .block ∧ s.mask SIGCHLD = true ∧ f.keepsBlocked := by
  rcases h with ⟨hnil, _⟩ | ⟨g, old', hone, hmain, hmask, hkeeps⟩
  · rw [hnil] at hf
    cases hf
  · rw [hone] at hf
    cases hf
    exact ⟨rfl, hmain, hmask, hkeeps⟩

/-- Inside the loop body `SIGCHLD` is blocked. -/
theorem Masked.body {s : Proc} (h : Masked s) (hf : s.frames = []) (htop : s.main ≠ .block)
    (hrun : s.main ≠ .exited) : s.mask SIGCHLD = true := by
  rcases h with ⟨_, hblocked | hmain | hmain⟩ | ⟨_, _, hone, _⟩
  · exact hblocked
  · exact absurd hmain htop
  · exact absurd hmain hrun
  · rw [hf] at hone
    cases hone

theorem Masked.step {s s' : Proc} (hs : Masked s) (h : ProcStep .procmask2 s s') :
    Masked s' := by
  cases h with
  | block hf h => exact Or.inl ⟨hf, Or.inl (sigBlock_maskOne s.mask)⟩
  | fork pid hf h hpos hnew =>
      exact Or.inl ⟨hf, Or.inl (hs.body hf (by simp [h]) (by simp [h]))⟩
  | forkError hf h => exact Or.inl ⟨hf, Or.inr (Or.inr rfl)⟩
  | blockAll pid hf h => exact Or.inl ⟨hf, Or.inl (sigBlock_maskAll s.mask SIGCHLD)⟩
  | addjob pid hf h => exact Or.inl ⟨hf, Or.inl (hs.body hf (by simp [h]) (by simp [h]))⟩
  | setmask hf h => exact Or.inl ⟨hf, Or.inr (Or.inl rfl)⟩
  | terminate pid h => exact hs
  | raise => exact hs
  | deliver hmain hpending hmask =>
      obtain ⟨hf, htop⟩ := hs.top hmask
      refine Or.inr ⟨.waitpid, s.mask, ?_, htop.resolve_right hmain, sigBlock_maskOne s.mask, trivial⟩
      show (HandlerPc.waitpid, s.mask) :: s.frames = [(.waitpid, s.mask)]
      rw [hf]
  | reap pid old fs hf h =>
      obtain ⟨rfl, hmain, hmask, _⟩ := hs.frame hf
      exact Or.inr ⟨_, old, rfl, hmain, hmask, trivial⟩
  | blockInHandler pid old fs hf =>
      obtain ⟨rfl, hmain, hmask, _⟩ := hs.frame hf
      exact Or.inr ⟨_, old, rfl, hmain, sigBlock_maskAll s.mask SIGCHLD, hmask⟩
  | deletejob pid prev_all old fs hf =>
      obtain ⟨rfl, hmain, hmask, hkeeps⟩ := hs.frame hf
      exact Or.inr ⟨_, old, rfl, hmain, hmask, hkeeps⟩
  | unblockInHandler prev_all old fs hf =>
      obtain ⟨rfl, hmain, _, hkeeps⟩ := hs.frame hf
      exact Or.inr ⟨_, old, rfl, hmain, hkeeps, trivial⟩
  | echild old fs hf hlive hzombies =>
      obtain ⟨rfl, hmain, _⟩ := hs.frame hf
      exact Or.inl ⟨rfl, Or.inr (Or.inl hmain)⟩
  | waitError old fs hf => exact Or.inl ⟨rfl, Or.inr (Or.inr rfl)⟩

/-! ## §5. The children and the account. -/

/-- A child that terminates is still not reaped. -/
theorem terminate_perm {live : List ℕ} {pid : ℕ} (h : pid ∈ live) (zombies : List ℕ) :
    live.erase pid ++ pid :: zombies ~ live ++ zombies :=
  List.perm_middle.trans ((List.perm_cons_erase h).symm.append_right zombies)

/-- `waitpid` takes one child away. -/
theorem reap_perm {zombies : List ℕ} {pid : ℕ} (h : pid ∈ zombies) (live : List ℕ) :
    live ++ zombies ~ pid :: (live ++ zombies.erase pid) :=
  ((List.perm_cons_erase h).append_left live).trans List.perm_middle

theorem count_cons_same (p pid : ℕ) (l : List ℕ) :
    (p :: l).count pid = l.count pid + same p pid := by
  unfold same
  by_cases h : p = pid <;> simp [h]

/-- Pids of children that are not reaped are distinct. -/
theorem nodup_step {s s' : Proc} (hs : (s.live ++ s.zombies).Nodup)
    (h : ProcStep .procmask2 s s') : (s'.live ++ s'.zombies).Nodup := by
  cases h with
  | fork pid hf h hpos hnew => exact List.nodup_cons.mpr ⟨hnew, hs⟩
  | terminate pid h => exact (terminate_perm h s.zombies).nodup_iff.mpr hs
  | reap pid old fs hf h => exact (List.nodup_cons.mp ((reap_perm h s.live).nodup_iff.mp hs)).2
  | _ => exact hs

theorem Balanced.step {s s' : Proc} (hs : Balanced s) (hmasked : Masked s)
    (h : ProcStep .procmask2 s s') : Balanced s' := by
  intro pid
  have hb := hs pid
  cases h with
  | block hf h | forkError hf h | setmask hf h =>
      rw [h] at hb
      exact hb
  | fork p hf h hpos hnew =>
      show added s.calls pid + same p pid = deleted s.calls pid +
        (p :: (s.live ++ s.zombies)).count pid + weight _ s.frames
      have hzero : s.main.owes pid = 0 := by rw [h]; rfl
      rw [count_cons_same]
      omega
  | blockAll p hf h =>
      rw [h] at hb
      exact hb
  | addjob p hf h =>
      obtain ⟨hadded, hdeleted⟩ := added_concat_addjob s.calls p pid
      have howes : s.main.owes pid = same p pid := by rw [h]; rfl
      show added (s.calls ++ [.addjob p]) pid + 0 = deleted (s.calls ++ [.addjob p]) pid +
        (s.live ++ s.zombies).count pid + weight _ s.frames
      omega
  | terminate p h =>
      show added s.calls pid + s.main.owes pid = deleted s.calls pid +
        (s.live.erase p ++ p :: s.zombies).count pid + weight _ s.frames
      rw [(terminate_perm h s.zombies).count_eq pid]
      exact hb
  | raise => exact hb
  | deliver hmain hpending hmask =>
      rw [(hmasked.top hmask).1] at hb
      show added s.calls pid + s.main.owes pid = deleted s.calls pid +
        (s.live ++ s.zombies).count pid + weight _ ((.waitpid, s.mask) :: s.frames)
      rw [(hmasked.top hmask).1]
      exact hb
  | reap p old fs hf h =>
      obtain ⟨rfl, _⟩ := hmasked.frame hf
      rw [hf, (reap_perm h s.live).count_eq pid, count_cons_same] at hb
      show added s.calls pid + s.main.owes pid = deleted s.calls pid +
        (s.live ++ s.zombies.erase p).count pid + same p pid
      have hzero : weight (fun f : HandlerPc × Sigset => f.1.holds pid) [(.waitpid, old)] = 0 := rfl
      omega
  | blockInHandler p old fs hf =>
      rw [hf] at hb
      exact hb
  | deletejob p prev_all old fs hf =>
      obtain ⟨rfl, _⟩ := hmasked.frame hf
      obtain ⟨hadded, hdeleted⟩ := added_concat_deletejob s.calls p pid
      rw [hf] at hb
      have hholds : weight (fun f : HandlerPc × Sigset => f.1.holds pid)
          [(.deletejob p prev_all, old)] = same p pid := rfl
      show added (s.calls ++ [.deletejob p]) pid + s.main.owes pid =
        deleted (s.calls ++ [.deletejob p]) pid + (s.live ++ s.zombies).count pid + 0
      omega
  | unblockInHandler prev_all old fs hf =>
      rw [hf] at hb
      exact hb
  | echild old fs hf hlive hzombies =>
      obtain ⟨rfl, _⟩ := hmasked.frame hf
      rw [hf] at hb
      exact hb
  | waitError old fs hf =>
      obtain ⟨rfl, hmain, _⟩ := hmasked.frame hf
      rw [hf, hmain] at hb
      exact hb

/-- A deletion finds its addition in the history: the handler holds the pid it deletes,
and while it runs the main loop owes nothing. -/
theorem AddedFirst.step {s s' : Proc} (hs : AddedFirst s.calls) (hmasked : Masked s)
    (hbalanced' : Balanced s') (h : ProcStep .procmask2 s s') : AddedFirst s'.calls := by
  cases h with
  | addjob p hf h =>
      refine hs.concat fun pid => ?_
      have hb := hbalanced' pid
      have hzero : MainPc.owes pid .setmask = 0 := rfl
      dsimp only at hb
      omega
  | deletejob p prev_all old fs hf =>
      refine hs.concat fun pid => ?_
      have hb := hbalanced' pid
      have hzero : s.main.owes pid = 0 := by
        rw [(hmasked.frame hf).2.1]
        rfl
      dsimp only at hb
      omega
  | _ => exact hs

/-! ## §6. Whole runs. -/

/-- What holds in every state of a run of `procmask2`. -/
structure ProcInv (s : Proc) : Prop where
  masked : Masked s
  balanced : Balanced s
  nodup : (s.live ++ s.zombies).Nodup
  addedFirst : AddedFirst s.calls

theorem ProcInv.init {s : Proc} (h : (procSystem .procmask2).init s) : ProcInv s := by
  obtain ⟨hmain, hlive, hzombies, hframes, hcalls⟩ := h
  refine ⟨Or.inl ⟨hframes, Or.inr (Or.inl hmain)⟩, ?_, ?_, ?_⟩
  · intro pid
    rw [hmain, hlive, hzombies, hframes, hcalls]
    rfl
  · rw [hlive, hzombies]
    exact List.nodup_nil
  · rw [hcalls]
    intro past hpast pid
    rw [List.prefix_nil.mp hpast]
    exact Nat.le_refl _

/-- **One step** of the process, of a child or of the kernel. -/
theorem ProcInv.step {s s' : Proc} (hs : ProcInv s) (h : ProcStep .procmask2 s s') :
    ProcInv s' := by
  have hbalanced := hs.balanced.step hs.masked h
  exact ⟨hs.masked.step h, hbalanced, nodup_step hs.nodup h,
    hs.addedFirst.step hs.masked hbalanced h⟩

theorem ProcInv.reachable {s : Proc} (h : (procSystem .procmask2).Reachable s) : ProcInv s :=
  h.invariant (fun _ h0 => ProcInv.init h0) (fun _ _ _ hs hstep => hs.step hstep)

/-- **The order of the job list in `procmask2`**, for every run: any number of children,
each ending at any moment, and every delivery the mask allows.  No pid is ever deleted
more often than it was added before, and whenever `SIGCHLD` is unblocked in the main
loop, the pids added and not deleted are exactly the children not yet reaped. -/
theorem procmask2_job_order {s : Proc} (h : (procSystem .procmask2).Reachable s) :
    AddedFirst s.calls ∧
      (s.main ≠ .exited → s.mask SIGCHLD = false →
        ∀ pid, deleted s.calls pid < added s.calls pid ↔ pid ∈ s.live ++ s.zombies) := by
  have hs := ProcInv.reachable h
  refine ⟨hs.addedFirst, ?_⟩
  intro hrun hmask pid
  obtain ⟨hframes, htop⟩ := hs.masked.top hmask
  have hb := hs.balanced pid
  rw [hframes, htop.resolve_right hrun] at hb
  have hb' : added s.calls pid = deleted s.calls pid + (s.live ++ s.zombies).count pid := hb
  rw [hb', ← List.count_pos_iff]
  omega

/-- The process with one child, back at the top of its loop. -/
def oneChild : Proc where
  main := .block
  mask := sigemptyset
  prev := sigemptyset
  pending := false
  live := [5]
  zombies := []
  frames := []
  calls := [.addjob 5]

theorem oneChild_reachable : (procSystem .procmask2).Reachable oneChild := by
  have h0 : (procSystem .procmask2).Reachable
      ⟨.block, sigemptyset, sigemptyset, false, [], [], [], []⟩ :=
    System.Reachable.of_init ⟨rfl, rfl, rfl, rfl, rfl⟩
  have h1 := h0.tail (ProcStep.block rfl rfl)
  have h2 := h1.tail (ProcStep.fork 5 rfl rfl (by decide) (by simp))
  have h3 := h2.tail (ProcStep.blockAll 5 rfl rfl)
  have h4 := h3.tail (ProcStep.addjob 5 rfl rfl)
  exact h4.tail (ProcStep.setmask rfl rfl)

theorem procmask2_job_order_oneChild : (procSystem .procmask2).Reachable oneChild ∧
    deleted oneChild.calls 5 < added oneChild.calls 5 :=
  ⟨oneChild_reachable,
    ((procmask2_job_order oneChild_reachable).2 (by decide) rfl 5).mpr (by simp [oneChild])⟩

/-- **`procmask1` is buggy**: the child may end, and be reaped and deleted, before the
parent adds it. -/
theorem procmask1_deletes_first :
    ∃ s, (procSystem .procmask1).Reachable s ∧ ¬ AddedFirst s.calls := by
  have h0 : (procSystem .procmask1).Reachable
      ⟨.fork, sigemptyset, sigemptyset, false, [], [], [], []⟩ :=
    System.Reachable.of_init ⟨rfl, rfl, rfl, rfl, rfl⟩
  have h1 := h0.tail (ProcStep.fork 5 rfl rfl (by decide) (by simp))
  have h2 := h1.tail (ProcStep.terminate 5 (by simp))
  have h3 := h2.tail (ProcStep.deliver (by simp) rfl rfl)
  have h4 := h3.tail (ProcStep.reap 5 _ _ rfl (by simp))
  have h5 := h4.tail (ProcStep.blockInHandler 5 _ _ rfl)
  have h6 := h5.tail (ProcStep.deletejob 5 _ _ _ rfl)
  refine ⟨_, h6, fun hfirst => ?_⟩
  have hle := hfirst _ (List.prefix_refl _) 5
  exact absurd hle (by decide)

end ComputerScience.Signals
