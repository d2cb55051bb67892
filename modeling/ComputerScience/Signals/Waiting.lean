/-
  ComputerScience.Signals.Waiting
  ───────────────────────────────
  **WAITING FOR A SIGNAL** (`15-ecf-signals/sigsuspend.c`, `waitforsignal.c`).

  Again and again the program forks a child and waits until the handler of `SIGCHLD` has
  reaped it and put its pid into the global `pid`; then it prints a dot.  `SIGCHLD` is blocked
  from before the fork until after `pid = 0`, so the handler cannot run before `pid` is reset.
  From there on

      sigsuspend      waits in `Sigsuspend(&prev)`, which unblocks the signal and sleeps in one
                      action, and restores the mask when a handler has returned
      waitforsignal   unblocks the signal and spins.

  Ctrl-c wakes `Sigsuspend` too; its handler does nothing, and elsewhere it changes nothing.
  `prev` is the mask the program has inherited.  A failing `Fork`, which ends the process, is
  left out.

  Main results:
    • `WaitInv.step` — one step,
    • `WaitInv.moves`, `WaitInv.prints` — no wake-up is lost: from every state, if no ctrl-c
      comes, the next dot is reached,
    • `Deaf.step` — unless `SIGCHLD` was blocked from the start,
    • `waiting_results` — both programs, every run.
-/
import ComputerScience.Lib.TransitionSystem
import Mathlib.Data.List.Basic

namespace ComputerScience.Signals

open ComputerScience.Lib

/-! ## §1. The programs. -/

inductive Waiter where
  | sigsuspend
  | waitforsignal
  deriving DecidableEq, Repr

/-- The call `main` makes next. -/
inductive WaitPc where
  /-- `Sigprocmask(SIG_BLOCK, &mask, &prev)` -/
  | block
  | fork
  /-- `pid = 0` -/
  | reset
  /-- `Sigprocmask(SIG_SETMASK, &prev, NULL)`: in `waitforsignal` before the loop, in
  `sigsuspend` behind it -/
  | setmask
  /-- `while (!pid)` -/
  | test
  /-- asleep in `Sigsuspend(&prev)` -/
  | suspended
  | print
  /-- the process is gone -/
  | exited
  deriving DecidableEq, Repr

/-- `sigchld_handler`. -/
inductive ChldPc where
  /-- before `Waitpid(-1, NULL, 0)` -/
  | waitpid
  /-- `pid` has its value, before the return -/
  | done
  deriving DecidableEq, Repr

structure Waiting where
  main : WaitPc
  /-- `SIGCHLD` is blocked. -/
  blocked : Bool
  /-- ... in `prev` -/
  prev : Bool
  /-- The activation of the handler, with what its return restores. -/
  handler : Option (ChldPc × Bool)
  pending : Bool
  pid : ℕ
  live : List ℕ
  zombies : List ℕ
  /-- The pids that `Fork` and `Waitpid` have returned, in order. -/
  forked : List ℕ
  reaped : List ℕ
  /-- The calls of `printf(".")`; its text may still be in the buffer of `stdout`. -/
  dots : ℕ

/-- Behind `pid = 0`. -/
def Waiter.afterReset : Waiter → WaitPc
  | .sigsuspend => .test
  | .waitforsignal => .setmask

/-- Behind the loop. -/
def Waiter.afterLoop : Waiter → WaitPc
  | .sigsuspend => .setmask
  | .waitforsignal => .print

/-- Behind the last `Sigprocmask`. -/
def Waiter.afterSetmask : Waiter → WaitPc
  | .sigsuspend => .print
  | .waitforsignal => .test

/-- One step of the program, of its child or of the kernel. -/
inductive WaitStep (prog : Waiter) (s : Waiting) : Waiting → Prop where
  | block (hh : s.handler = none) (h : s.main = .block) :
      WaitStep prog s { s with main := .fork, blocked := true, prev := s.blocked }
  | fork (p : ℕ) (hh : s.handler = none) (h : s.main = .fork) (hpos : 0 < p)
      (hnew : p ∉ s.live ++ s.zombies) :
      WaitStep prog s { s with main := .reset, live := p :: s.live, forked := s.forked ++ [p] }
  | reset (hh : s.handler = none) (h : s.main = .reset) :
      WaitStep prog s { s with main := prog.afterReset, pid := 0 }
  | setmask (hh : s.handler = none) (h : s.main = .setmask) :
      WaitStep prog s { s with main := prog.afterSetmask, blocked := s.prev }
  /-- The loop ends.  A turn of `waitforsignal` that finds `pid` zero changes nothing. -/
  | testEnd (hh : s.handler = none) (h : s.main = .test) (hpid : s.pid ≠ 0) :
      WaitStep prog s { s with main := prog.afterLoop }
  | suspend (hh : s.handler = none) (h : s.main = .test) (hpid : s.pid = 0)
      (hprog : prog = .sigsuspend) :
      WaitStep prog s { s with main := .suspended, blocked := s.prev }
  | print (hh : s.handler = none) (h : s.main = .print) :
      WaitStep prog s { s with main := .block, dots := s.dots + 1 }
  | terminate (p : ℕ) (h : p ∈ s.live) :
      WaitStep prog s { s with
        live := s.live.erase p, zombies := p :: s.zombies, pending := true }
  /-- The handler runs.  When it returns to `Sigsuspend`, that restores the mask in force
  before it was called, in which `SIGCHLD` is blocked. -/
  | deliver (hh : s.handler = none) (h : s.main ≠ .exited) (hp : s.pending = true)
      (hb : s.blocked = false) :
      WaitStep prog s { s with
        handler := some (.waitpid, if s.main = .suspended then true else s.blocked)
        pending := false, blocked := true }
  | reap (p : ℕ) (old : Bool) (hh : s.handler = some (.waitpid, old)) (h : p ∈ s.zombies) :
      WaitStep prog s { s with
        zombies := s.zombies.erase p, pid := p, reaped := s.reaped ++ [p]
        handler := some (.done, old) }
  /-- `Waitpid` without a child ends the process. -/
  | echild (old : Bool) (hh : s.handler = some (.waitpid, old)) (hlive : s.live = [])
      (hzombies : s.zombies = []) :
      WaitStep prog s { s with main := .exited, handler := none }
  | handlerEnd (old : Bool) (hh : s.handler = some (.done, old)) :
      WaitStep prog s { s with
        handler := none, blocked := old
        main := if s.main = .suspended then .test else s.main }
  /-- Ctrl-c, with `sigint_handler`. -/
  | sigint (hh : s.handler = none) (h : s.main = .suspended) :
      WaitStep prog s { s with main := .test, blocked := true }

/-- The programs, behind their calls of `Signal`; `inherited` says whether `SIGCHLD` is blocked
then. -/
def waiting (prog : Waiter) (inherited : Bool) : System Waiting where
  init s := s = ⟨.block, inherited, false, none, false, 0, [], [], [], [], 0⟩
  step := WaitStep prog

/-! ## §2. The child. -/

/-- Every child was reaped. -/
def NoChild (s : Waiting) : Prop :=
  s.live = [] ∧ s.zombies = [] ∧ s.pending = false ∧ s.reaped = s.forked

/-- The last child is alive, or it is a zombie and its signal is pending. -/
def OneChild (s : Waiting) : Prop :=
  ∃ p, p ≠ 0 ∧ s.forked = s.reaped ++ [p] ∧
    (s.live = [p] ∧ s.zombies = [] ∧ s.pending = false ∨
      s.live = [] ∧ s.zombies = [p] ∧ s.pending = true)

/-- The last child is a zombie, and the handler is there to reap it. -/
def Caught (s : Waiting) : Prop :=
  ∃ p, p ≠ 0 ∧ s.forked = s.reaped ++ [p] ∧ s.live = [] ∧ s.zombies = [p] ∧ s.pending = false

/-- The last child was reaped, and `pid` is its pid. -/
def Got (s : Waiting) : Prop :=
  NoChild s ∧ s.pid ≠ 0 ∧ s.forked.getLast? = some s.pid

/-- Where the handler may run: in `Sigsuspend`, or while `waitforsignal` spins. -/
def Interruptible (prog : Waiter) (main : WaitPc) (old : Bool) : Prop :=
  main = .suspended ∧ prog = .sigsuspend ∧ old = true ∨
    main = .test ∧ prog = .waitforsignal ∧ old = false

/-- What is known in each place. -/
def Place (prog : Waiter) (s : Waiting) : Prop :=
  match s.handler, s.main with
  | none, .block => s.blocked = false ∧ NoChild s
  | none, .fork => s.blocked = true ∧ NoChild s
  | none, .reset => s.blocked = true ∧ OneChild s
  | none, .setmask => s.blocked = true ∧
      (prog = .waitforsignal ∧ s.pid = 0 ∧ OneChild s ∨ prog = .sigsuspend ∧ Got s)
  | none, .test => (s.blocked = true ↔ prog = .sigsuspend) ∧ (s.pid = 0 ∧ OneChild s ∨ Got s)
  | none, .suspended => s.blocked = false ∧ prog = .sigsuspend ∧ s.pid = 0 ∧ OneChild s
  | none, .print => s.blocked = false ∧ Got s
  | none, .exited => False
  | some (.waitpid, old), main => Interruptible prog main old ∧ Caught s
  | some (.done, old), main => Interruptible prog main old ∧ Got s

/-- How many children were forked for the dots so far and the next one. -/
def WaitPc.due : WaitPc → ℕ
  | .block | .fork => 0
  | _ => 1

structure WaitInv (prog : Waiter) (s : Waiting) : Prop where
  place : Place prog s
  prev : s.main ≠ .block → s.prev = false
  dots : s.forked.length = s.dots + s.main.due

variable {prog : Waiter} {s s' : Waiting}

theorem NoChild.fork (h : NoChild s) {p : ℕ} (hpos : 0 < p) (main : WaitPc) :
    OneChild { s with main := main, live := p :: s.live, forked := s.forked ++ [p] } := by
  obtain ⟨hlive, hzombies, hpending, hreaped⟩ := h
  refine ⟨p, by omega, ?_, .inl ⟨?_, hzombies, hpending⟩⟩
  · show s.forked ++ [p] = s.reaped ++ [p]
    rw [hreaped]
  · show p :: s.live = [p]
    rw [hlive]

theorem OneChild.terminate (h : OneChild s) {p : ℕ} (hp : p ∈ s.live) :
    OneChild { s with live := s.live.erase p, zombies := p :: s.zombies, pending := true } := by
  obtain ⟨q, hq, hforked, ⟨hlive, hzombies, -⟩ | ⟨hlive, -⟩⟩ := h
  · rw [hlive, List.mem_singleton] at hp
    subst hp
    refine ⟨p, hq, hforked, .inr ⟨?_, ?_, rfl⟩⟩
    · show s.live.erase p = []
      rw [hlive, List.erase_cons_head]
    · show p :: s.zombies = [p]
      rw [hzombies]
  · rw [hlive] at hp
    cases hp

theorem OneChild.deliver (h : OneChild s) (hp : s.pending = true) (handler : Option (ChldPc × Bool))
    (blocked : Bool) :
    Caught { s with handler := handler, pending := false, blocked := blocked } := by
  obtain ⟨q, hq, hforked, ⟨-, -, hpending⟩ | ⟨hlive, hzombies, -⟩⟩ := h
  · rw [hp] at hpending
    cases hpending
  · exact ⟨q, hq, hforked, hlive, hzombies, rfl⟩

theorem Caught.reap (h : Caught s) {p : ℕ} (hp : p ∈ s.zombies)
    (handler : Option (ChldPc × Bool)) :
    Got { s with zombies := s.zombies.erase p, pid := p, reaped := s.reaped ++ [p], handler := handler } := by
  obtain ⟨q, hq, hforked, hlive, hzombies, hpending⟩ := h
  rw [hzombies, List.mem_singleton] at hp
  subst hp
  refine ⟨⟨hlive, ?_, hpending, hforked.symm⟩, hq, ?_⟩
  · show s.zombies.erase p = []
    rw [hzombies, List.erase_cons_head]
  · show s.forked.getLast? = some p
    rw [hforked, List.getLast?_concat]

theorem NoChild.not_mem (h : NoChild s) {p : ℕ} : p ∉ s.live := by
  rw [h.1]
  exact List.not_mem_nil

theorem Caught.not_mem (h : Caught s) {p : ℕ} : p ∉ s.live := by
  obtain ⟨q, -, -, hlive, -⟩ := h
  rw [hlive]
  exact List.not_mem_nil

/-- The end of the child, wherever the program is. -/
theorem Place.terminate (h : Place prog s) {p : ℕ} (hp : p ∈ s.live) :
    Place prog { s with live := s.live.erase p, zombies := p :: s.zombies, pending := true } := by
  unfold Place at h ⊢
  cases hh : s.handler with
  | none =>
      cases hm : s.main with
      | block =>
          simp only [hh, hm] at h
          exact absurd hp h.2.not_mem
      | fork =>
          simp only [hh, hm] at h
          exact absurd hp h.2.not_mem
      | reset =>
          simp only [hh, hm] at h ⊢
          exact ⟨h.1, h.2.terminate hp⟩
      | setmask =>
          simp only [hh, hm] at h ⊢
          rcases h with ⟨hb, ⟨hprog, hpid, hone⟩ | ⟨-, hgot⟩⟩
          · exact ⟨hb, .inl ⟨hprog, hpid, hone.terminate hp⟩⟩
          · exact absurd hp hgot.1.not_mem
      | test =>
          simp only [hh, hm] at h ⊢
          rcases h with ⟨hb, ⟨hpid, hone⟩ | hgot⟩
          · exact ⟨hb, .inl ⟨hpid, hone.terminate hp⟩⟩
          · exact absurd hp hgot.1.not_mem
      | suspended =>
          simp only [hh, hm] at h ⊢
          exact ⟨h.1, h.2.1, h.2.2.1, h.2.2.2.terminate hp⟩
      | print =>
          simp only [hh, hm] at h
          exact absurd hp h.2.1.not_mem
      | exited =>
          simp only [hh, hm] at h
  | some frame =>
      obtain ⟨pc, old⟩ := frame
      cases pc with
      | waitpid =>
          simp only [hh] at h
          exact absurd hp h.2.not_mem
      | done =>
          simp only [hh] at h
          exact absurd hp h.2.1.not_mem

/-- Where a handler can start. -/
theorem Place.deliver (h : Place prog s) (hh : s.handler = none) (hp : s.pending = true)
    (hb : s.blocked = false) :
    OneChild s ∧ Interruptible prog s.main (if s.main = .suspended then true else s.blocked) := by
  have hquiet : ¬ NoChild s := by
    rintro ⟨-, -, hpending, -⟩
    rw [hp] at hpending
    cases hpending
  unfold Place at h
  cases hm : s.main with
  | block =>
      simp only [hh, hm] at h
      exact absurd h.2 hquiet
  | fork =>
      simp only [hh, hm] at h
      exact absurd h.2 hquiet
  | reset =>
      simp only [hh, hm, hb] at h
      cases h.1
  | setmask =>
      simp only [hh, hm, hb] at h
      cases h.1
  | test =>
      simp only [hh, hm, hb] at h
      rcases h with ⟨hprog, ⟨-, hone⟩ | hgot⟩
      · refine ⟨hone, .inr ⟨rfl, ?_, ?_⟩⟩
        · cases prog with
          | sigsuspend => exact absurd (hprog.mpr rfl) Bool.false_ne_true
          | waitforsignal => rfl
        · rw [if_neg (by simp), hb]
      · exact absurd hgot.1 hquiet
  | suspended =>
      simp only [hh, hm] at h
      exact ⟨h.2.2.2, .inl ⟨rfl, h.2.1, if_pos rfl⟩⟩
  | print =>
      simp only [hh, hm] at h
      exact absurd h.2.1 hquiet
  | exited =>
      simp only [hh, hm] at h

/-- **One step** keeps the invariant. -/
theorem WaitInv.step (h : WaitInv prog s) (hstep : WaitStep prog s s') : WaitInv prog s' := by
  obtain ⟨hplace, hprev, hdots⟩ := h
  cases hstep with
  | block hh hm =>
      simp only [Place, hh, hm] at hplace
      rw [hm] at hdots
      refine ⟨?_, fun _ => hplace.1, hdots⟩
      simp only [Place, hh]
      exact ⟨trivial, hplace.2⟩
  | fork p hh hm hpos hnew =>
      simp only [Place, hh, hm] at hplace
      rw [hm] at hdots
      refine ⟨?_, fun _ => hprev (by rw [hm]; simp), ?_⟩
      · simp only [Place, hh]
        exact ⟨hplace.1, hplace.2.fork hpos .reset⟩
      · show (s.forked ++ [p]).length = s.dots + 1
        rw [List.length_append, hdots]
        rfl
  | reset hh hm =>
      simp only [Place, hh, hm] at hplace
      rw [hm] at hdots
      refine ⟨?_, fun _ => hprev (by rw [hm]; simp), ?_⟩
      · cases prog with
        | sigsuspend =>
            simp only [Place, hh, Waiter.afterReset]
            exact ⟨⟨fun _ => trivial, fun _ => hplace.1⟩, .inl ⟨trivial, hplace.2⟩⟩
        | waitforsignal =>
            simp only [Place, hh, Waiter.afterReset]
            exact ⟨hplace.1, .inl ⟨trivial, trivial, hplace.2⟩⟩
      · cases prog with
        | sigsuspend => exact hdots
        | waitforsignal => exact hdots
  | setmask hh hm =>
      simp only [Place, hh, hm] at hplace
      rw [hm] at hdots
      have hfalse : s.prev = false := hprev (by rw [hm]; simp)
      refine ⟨?_, fun _ => hfalse, ?_⟩
      · cases prog with
        | sigsuspend =>
            simp only [Place, hh, Waiter.afterSetmask]
            rcases hplace.2 with ⟨hprog, -⟩ | ⟨-, hgot⟩
            · cases hprog
            · exact ⟨hfalse, hgot⟩
        | waitforsignal =>
            simp only [Place, hh, Waiter.afterSetmask, hfalse]
            rcases hplace.2 with ⟨-, hpid, hone⟩ | ⟨hprog, -⟩
            · exact ⟨by simp, .inl ⟨hpid, hone⟩⟩
            · cases hprog
      · cases prog with
        | sigsuspend => exact hdots
        | waitforsignal => exact hdots
  | testEnd hh hm hpid =>
      simp only [Place, hh, hm] at hplace
      rw [hm] at hdots
      have hgot : Got s := by
        rcases hplace.2 with ⟨hzero, -⟩ | hgot
        · exact absurd hzero hpid
        · exact hgot
      refine ⟨?_, fun _ => hprev (by rw [hm]; simp), ?_⟩
      · cases prog with
        | sigsuspend =>
            simp only [Place, hh, Waiter.afterLoop]
            exact ⟨hplace.1.mpr rfl, .inr ⟨trivial, hgot⟩⟩
        | waitforsignal =>
            simp only [Place, hh, Waiter.afterLoop]
            exact ⟨by simpa using hplace.1, hgot⟩
      · cases prog with
        | sigsuspend => exact hdots
        | waitforsignal => exact hdots
  | suspend hh hm hpid hprog =>
      simp only [Place, hh, hm] at hplace
      rw [hm] at hdots
      have hfalse : s.prev = false := hprev (by rw [hm]; simp)
      refine ⟨?_, fun _ => hfalse, hdots⟩
      simp only [Place, hh]
      rcases hplace.2 with ⟨-, hone⟩ | hgot
      · exact ⟨hfalse, hprog, hpid, hone⟩
      · exact absurd hpid hgot.2.1
  | print hh hm =>
      simp only [Place, hh, hm] at hplace
      rw [hm] at hdots
      refine ⟨?_, fun hne => absurd rfl hne, hdots⟩
      simp only [Place, hh]
      exact ⟨hplace.1, hplace.2.1⟩
  | terminate p hp => exact ⟨hplace.terminate hp, hprev, hdots⟩
  | deliver hh hm hp hb =>
      obtain ⟨hone, hat⟩ := hplace.deliver hh hp hb
      refine ⟨?_, hprev, hdots⟩
      simp only [Place]
      exact ⟨hat, hone.deliver hp _ _⟩
  | reap p old hh hp =>
      simp only [Place, hh] at hplace
      refine ⟨?_, hprev, hdots⟩
      simp only [Place]
      exact ⟨hplace.1, hplace.2.reap hp _⟩
  | echild old hh hlive hzombies =>
      simp only [Place, hh] at hplace
      obtain ⟨q, -, -, -, hz, -⟩ := hplace.2
      rw [hzombies] at hz
      cases hz
  | handlerEnd old hh =>
      simp only [Place, hh] at hplace
      have htest : (if s.main = .suspended then WaitPc.test else s.main) = .test := by
        obtain ⟨⟨hm, -⟩ | ⟨hm, -⟩, -⟩ := hplace <;> rw [hm] <;> rfl
      have hin : s.main ≠ .block ∧ s.main.due = 1 := by
        obtain ⟨⟨hm, -⟩ | ⟨hm, -⟩, -⟩ := hplace <;> rw [hm] <;> exact ⟨by simp, rfl⟩
      rw [htest]
      refine ⟨?_, fun _ => hprev hin.1, by rw [hdots, hin.2]; rfl⟩
      simp only [Place]
      refine ⟨?_, .inr hplace.2⟩
      rcases hplace.1 with ⟨-, rfl, rfl⟩ | ⟨-, rfl, rfl⟩
      · simp
      · simp
  | sigint hh hm =>
      simp only [Place, hh, hm] at hplace
      rw [hm] at hdots
      refine ⟨?_, fun _ => hprev (by rw [hm]; simp), hdots⟩
      simp only [Place, hh]
      exact ⟨by simp [hplace.2.1], .inl ⟨hplace.2.2.1, hplace.2.2.2⟩⟩

theorem WaitInv.reachable (h : (waiting prog false).Reachable s) : WaitInv prog s := by
  refine h.invariant ?_ (fun _ _ _ hinv hstep => hinv.step hstep)
  rintro s rfl
  exact ⟨⟨rfl, rfl, rfl, rfl, rfl⟩, fun hne => absurd rfl hne, rfl⟩

/-- Elsewhere than in its loop the program is not interrupted. -/
theorem WaitInv.handler_eq_none (h : WaitInv prog s) (hsusp : s.main ≠ .suspended)
    (htest : s.main ≠ .test) : s.handler = none := by
  have hnot : ∀ old, ¬ Interruptible prog s.main old := by
    rintro old (⟨hm, -⟩ | ⟨hm, -⟩)
    · exact hsusp hm
    · exact htest hm
  have hplace := h.place
  cases hh : s.handler with
  | none => rfl
  | some frame =>
      obtain ⟨pc, old⟩ := frame
      cases pc with
      | waitpid =>
          simp only [Place, hh] at hplace
          exact absurd hplace.1 (hnot old)
      | done =>
          simp only [Place, hh] at hplace
          exact absurd hplace.1 (hnot old)

/-! ## §3. The next dot. -/

/-- How far the dot is behind the last `Sigprocmask`. -/
def Waiter.setmaskRank : Waiter → ℕ
  | .sigsuspend => 1
  | .waitforsignal => 5

def ChldPc.rank : ChldPc → ℕ
  | .waitpid => 2
  | .done => 1

/-- What is left of a turn of the main loop, before its dot. -/
def Waiting.left (prog : Waiter) (s : Waiting) : ℕ :=
  (match s.main with
    | .block => 13
    | .fork => 12
    | .reset => 6
    | .setmask => prog.setmaskRank
    | .test => if s.pid = 0 then 4 else 2
    | .suspended => 3
    | .print | .exited => 0) +
  4 * s.live.length + 3 * s.pending.toNat +
  s.handler.elim 0 fun frame => frame.1.rank

/-- `Sigsuspend` returns because of ctrl-c. -/
def Interrupted (s s' : Waiting) : Prop :=
  s.handler = none ∧ s.main = .suspended ∧ s'.main = .test

/-- The program from `s₀` up to its next dot, when no ctrl-c comes. -/
def untilPrint (prog : Waiter) (s₀ : Waiting) : System Waiting where
  init s := s = s₀
  step s s' := s.main ≠ .print ∧ WaitStep prog s s' ∧ ¬ Interrupted s s'

theorem WaitInv.left_lt (h : WaitInv prog s) (hstep : WaitStep prog s s') (hm : s.main ≠ .print)
    (hint : ¬ Interrupted s s') : s'.left prog < s.left prog := by
  have hplace := h.place
  cases hstep with
  | block hh hmain =>
      simp only [Waiting.left, hmain]
      omega
  | fork p hh hmain hpos hnew =>
      simp only [Waiting.left, hmain, List.length_cons]
      omega
  | reset hh hmain =>
      cases prog with
      | sigsuspend =>
          simp only [Waiting.left, hmain, Waiter.afterReset, if_true]
          omega
      | waitforsignal =>
          simp only [Waiting.left, hmain, Waiter.afterReset, Waiter.setmaskRank]
          omega
  | setmask hh hmain =>
      cases prog with
      | sigsuspend =>
          simp only [Waiting.left, hmain, Waiter.afterSetmask, Waiter.setmaskRank]
          omega
      | waitforsignal =>
          simp only [Waiting.left, hmain, Waiter.afterSetmask, Waiter.setmaskRank]
          split <;> omega
  | testEnd hh hmain hpid =>
      cases prog with
      | sigsuspend =>
          simp only [Waiting.left, hmain, Waiter.afterLoop, Waiter.setmaskRank, if_neg hpid]
          omega
      | waitforsignal =>
          simp only [Waiting.left, hmain, Waiter.afterLoop, if_neg hpid]
          omega
  | suspend hh hmain hpid hprog =>
      simp only [Waiting.left, hmain, if_pos hpid]
      omega
  | print hh hmain => exact absurd hmain hm
  | terminate p hp =>
      have hlen := List.length_erase_of_mem hp
      have hpos := List.length_pos_of_mem hp
      simp only [Waiting.left, Bool.toNat_true]
      omega
  | deliver hh hmain hp hb =>
      simp only [Waiting.left, hh, hp, Option.elim, ChldPc.rank, Bool.toNat_true, Bool.toNat_false]
      omega
  | reap p old hh hp =>
      simp only [Place, hh] at hplace
      have hpid : p ≠ 0 := (hplace.2.reap hp none).2.1
      rcases hplace.1 with ⟨hmain, -, -⟩ | ⟨hmain, -, -⟩
      · simp only [Waiting.left, hmain, hh, Option.elim, ChldPc.rank]
        omega
      · simp only [Waiting.left, hmain, hh, Option.elim, ChldPc.rank, if_neg hpid]
        split <;> omega
  | echild old hh hlive hzombies =>
      simp only [Place, hh] at hplace
      obtain ⟨q, -, -, -, hz, -⟩ := hplace.2
      rw [hzombies] at hz
      cases hz
  | handlerEnd old hh =>
      simp only [Place, hh] at hplace
      have hpid := hplace.2.2.1
      rcases hplace.1 with ⟨hmain, -, -⟩ | ⟨hmain, -, -⟩
      · simp only [Waiting.left, hmain, hh, Option.elim, ChldPc.rank, if_true, if_neg hpid]
        omega
      · simp only [Waiting.left, hmain, hh, Option.elim, ChldPc.rank, if_neg hpid, ite_self]
        omega
  | sigint hh hmain => exact absurd ⟨hh, hmain, rfl⟩ hint

/-- **No wake-up is lost**: before the dot something other than ctrl-c can happen. -/
theorem WaitInv.moves (h : WaitInv prog s) (hm : s.main ≠ .print) :
    ∃ s', WaitStep prog s s' ∧ ¬ Interrupted s s' := by
  have hplace := h.place
  -- the child, or the signal it has left, wakes the program
  have hwake : s.handler = none → OneChild s → s.blocked = false → s.main ≠ .exited →
      ∃ s', WaitStep prog s s' ∧ ¬ Interrupted s s' := by
    rintro hh ⟨p, -, -, ⟨hlive, -⟩ | ⟨-, -, hp⟩⟩ hb hne
    · refine ⟨_, .terminate p (by rw [hlive]; exact List.mem_cons_self), ?_⟩
      rintro ⟨-, hsusp, htest⟩
      rw [hsusp] at htest
      cases htest
    · refine ⟨_, .deliver hh hne hp hb, ?_⟩
      rintro ⟨-, hsusp, htest⟩
      rw [hsusp] at htest
      cases htest
  have hother : ∀ {s' : Waiting}, s.main ≠ .suspended → WaitStep prog s s' →
      ∃ s', WaitStep prog s s' ∧ ¬ Interrupted s s' :=
    fun hne hstep => ⟨_, hstep, fun hint => hne hint.2.1⟩
  cases hh : s.handler with
  | none =>
      cases hmain : s.main with
      | block => exact hother (by rw [hmain]; simp) (.block hh hmain)
      | fork =>
          simp only [Place, hh, hmain] at hplace
          refine hother (by rw [hmain]; simp) (.fork 1 hh hmain Nat.one_pos ?_)
          rw [hplace.2.1, hplace.2.2.1]
          exact List.not_mem_nil
      | reset => exact hother (by rw [hmain]; simp) (.reset hh hmain)
      | setmask => exact hother (by rw [hmain]; simp) (.setmask hh hmain)
      | test =>
          simp only [Place, hh, hmain] at hplace
          rcases hplace with ⟨hb, ⟨hpid, hone⟩ | hgot⟩
          · cases prog with
            | sigsuspend => exact hother (by rw [hmain]; simp) (.suspend hh hmain hpid rfl)
            | waitforsignal => exact hwake hh hone (by simpa using hb) (by rw [hmain]; simp)
          · exact hother (by rw [hmain]; simp) (.testEnd hh hmain hgot.2.1)
      | suspended =>
          simp only [Place, hh, hmain] at hplace
          exact hwake hh hplace.2.2.2 hplace.1 (by rw [hmain]; simp)
      | print => exact absurd hmain hm
      | exited => simp only [Place, hh, hmain] at hplace
  | some frame =>
      obtain ⟨pc, old⟩ := frame
      cases pc with
      | waitpid =>
          simp only [Place, hh] at hplace
          obtain ⟨p, -, -, -, hzombies, -⟩ := hplace.2
          refine ⟨_, .reap p old hh (by rw [hzombies]; exact List.mem_cons_self), ?_⟩
          rintro ⟨hnone, -⟩
          rw [hh] at hnone
          cases hnone
      | done =>
          refine ⟨_, .handlerEnd old hh, ?_⟩
          rintro ⟨hnone, -⟩
          rw [hh] at hnone
          cases hnone

theorem WaitInv.untilPrint {s₀ : Waiting} (h : WaitInv prog s₀)
    (hr : (untilPrint prog s₀).Reachable s) : WaitInv prog s := by
  refine hr.invariant ?_ (fun _ _ _ hinv hstep => hinv.step hstep.2.1)
  rintro s rfl
  exact h

theorem WaitInv.prints {s₀ : Waiting} (h : WaitInv prog s₀) :
    (Signals.untilPrint prog s₀).EndsIn fun s => s.main = .print := by
  refine System.ends_of_measure (Waiting.left prog) ?_ ?_
  · intro s s' hr ⟨hm, hstep, hint⟩
    exact (h.untilPrint hr).left_lt hstep hm hint
  · intro s hr hstuck
    by_contra hm
    obtain ⟨s', hstep, hint⟩ := (h.untilPrint hr).moves hm
    exact hstuck s' ⟨hm, hstep, hint⟩

/-! ## §4. A blocked signal. -/

/-- With `SIGCHLD` blocked from the start the handler never runs. -/
structure Deaf (prog : Waiter) (s : Waiting) : Prop where
  blocked : s.blocked = true
  handler : s.handler = none
  pid : s.pid = 0
  prev : s.main ≠ .block → s.prev = true
  main : s.main ≠ .print
  setmask : s.main = .setmask → prog = .waitforsignal
  dots : s.dots = 0
  forked : s.forked.length = s.main.due

theorem Deaf.step (h : Deaf prog s) (hstep : WaitStep prog s s') : Deaf prog s' := by
  have hno : ∀ frame, s.handler ≠ some frame := by
    intro frame hframe
    rw [h.handler] at hframe
    cases hframe
  have hforked := h.forked
  cases hstep with
  | block hh hm =>
      rw [hm] at hforked
      exact ⟨rfl, h.handler, h.pid, fun _ => h.blocked, by simp, by simp, h.dots, hforked⟩
  | fork p hh hm hpos hnew =>
      rw [hm] at hforked
      refine ⟨h.blocked, h.handler, h.pid, fun _ => h.prev (by rw [hm]; simp), by simp, by simp,
        h.dots, ?_⟩
      show (s.forked ++ [p]).length = 1
      rw [List.length_append, hforked]
      rfl
  | reset hh hm =>
      rw [hm] at hforked
      cases prog with
      | sigsuspend =>
          exact ⟨h.blocked, h.handler, rfl, fun _ => h.prev (by rw [hm]; simp),
            by simp [Waiter.afterReset], by simp [Waiter.afterReset], h.dots, hforked⟩
      | waitforsignal =>
          exact ⟨h.blocked, h.handler, rfl, fun _ => h.prev (by rw [hm]; simp),
            by simp [Waiter.afterReset], fun _ => rfl, h.dots, hforked⟩
  | setmask hh hm =>
      rw [hm] at hforked
      have hprev := h.prev (by rw [hm]; simp)
      obtain rfl := h.setmask hm
      exact ⟨hprev, h.handler, h.pid, fun _ => hprev, by simp [Waiter.afterSetmask],
        fun _ => rfl, h.dots, hforked⟩
  | testEnd hh hm hpid => exact absurd h.pid hpid
  | suspend hh hm hpid hprog =>
      rw [hm] at hforked
      have hprev := h.prev (by rw [hm]; simp)
      exact ⟨hprev, h.handler, h.pid, fun _ => hprev, by simp, by simp, h.dots, hforked⟩
  | print hh hm => exact absurd hm h.main
  | terminate p hp =>
      exact ⟨h.blocked, h.handler, h.pid, h.prev, h.main, h.setmask, h.dots, h.forked⟩
  | deliver hh hm hp hb =>
      rw [h.blocked] at hb
      cases hb
  | reap p old hh hp => exact absurd hh (hno _)
  | echild old hh hlive hzombies => exact absurd hh (hno _)
  | handlerEnd old hh => exact absurd hh (hno _)
  | sigint hh hm =>
      rw [hm] at hforked
      exact ⟨rfl, h.handler, h.pid, fun _ => h.prev (by rw [hm]; simp), by simp, by simp, h.dots,
        hforked⟩

theorem Deaf.reachable (h : (waiting prog true).Reachable s) : Deaf prog s := by
  refine h.invariant ?_ (fun _ _ _ hinv hstep => hinv.step hstep)
  rintro s rfl
  exact ⟨rfl, rfl, rfl, fun hne => absurd rfl hne, by simp, by simp, rfl, rfl⟩

/-- **Waiting for the child**, by `sigsuspend` and by `waitforsignal`.  If `SIGCHLD` is not
blocked when the program starts, then in every state of every run: the process has not failed;
at each dot `pid` is the pid of the child forked last, all children were reaped, and there is
one dot for each; and if no ctrl-c comes, every way on leads to the next dot.  If it is blocked,
the program forks one child and never prints anything. -/
theorem waiting_results (prog : Waiter) :
    (∀ s, (waiting prog false).Reachable s → s.main ≠ .exited ∧
      (s.main = .print → s.pid ≠ 0 ∧ s.forked.getLast? = some s.pid ∧ s.reaped = s.forked ∧
        s.forked.length = s.dots + 1) ∧
      (untilPrint prog s).EndsIn fun s => s.main = .print) ∧
    ∀ s, (waiting prog true).Reachable s → s.dots = 0 ∧ s.forked.length ≤ 1 := by
  refine ⟨?_, ?_⟩
  · intro s hreach
    have hinv := WaitInv.reachable hreach
    have hplace := hinv.place
    have hdots := hinv.dots
    refine ⟨?_, ?_, hinv.prints⟩
    · intro hm
      have hh := hinv.handler_eq_none (by rw [hm]; simp) (by rw [hm]; simp)
      simp only [Place, hh, hm] at hplace
    · intro hm
      have hh := hinv.handler_eq_none (by rw [hm]; simp) (by rw [hm]; simp)
      simp only [Place, hh, hm] at hplace
      obtain ⟨-, ⟨-, -, -, hreaped⟩, hpid, hlast⟩ := hplace
      rw [hm] at hdots
      exact ⟨hpid, hlast, hreaped, hdots⟩
  · intro s hreach
    have hdeaf := Deaf.reachable hreach
    refine ⟨hdeaf.dots, ?_⟩
    rw [hdeaf.forked]
    cases s.main <;> decide

end ComputerScience.Signals
