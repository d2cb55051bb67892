/-
  ComputerScience.Scheduler.Retry
  ───────────────────────────────
  **THE RETRYING SCHEDULERS** `ScheduleFixedV9` and `ScheduleFixedV10`
  (`02_work_scheduler/work_scheduler.go`).

  Main queues the tasks on a buffered channel and collects one acknowledgement per
  task; an acceptor starts one worker per server name; a worker whose call fails puts
  its task back.  The two versions differ in the acceptor only: V9 ranges over
  `servers`, V10 selects between `servers` and `exit`, and main hands it the exit signal
  at the end.

  Everything rests on one conservation law, per task and in total:

      not yet queued + queued + held by a worker + succeeded = 1      (numTask in total)
-/
import ComputerScience.Lib.Pool
import ComputerScience.Lib.TransitionSystem
import Mathlib.Tactic.SplitIfs

namespace ComputerScience.Scheduler

open ComputerScience.Lib

/-! ## §1. The goroutines and the channels. -/

/-- The acceptor's loop: `for srv := range servers` (V9) or `for { select … }` (V10). -/
inductive AcceptorLoop where
  | rangeServers
  | selectExit
  deriving DecidableEq, Repr

/-- Where main is. -/
inductive MainPc where
  /-- `for task := …; task < numTask; task++ { work <- task }` -/
  | sending (task : ℕ)
  /-- `for i := …; i < numTask; i++ { <-done }`, then `close(work)` -/
  | waiting (i : ℕ)
  /-- before `exit <- struct{}{}` (V10) -/
  | exiting
  | returned
  deriving DecidableEq, Repr

/-- Where a worker (`runTasks`) is. -/
inductive WorkerPc where
  /-- at `for task := range work` -/
  | idle
  /-- inside `call(srv, task)` -/
  | calling (task : ℕ)
  /-- before `done <- true` -/
  | acking (task : ℕ)
  /-- before `work <- task` -/
  | requeuing (task : ℕ)
  | exited
  deriving DecidableEq, Repr

/-- What main does after `close(work)`: V9 returns, V10 sends the exit signal. -/
def AcceptorLoop.afterClose : AcceptorLoop → MainPc
  | .rangeServers => .returned
  | .selectExit => .exiting

structure Worker where
  srv : String
  pc : WorkerPc
  deriving DecidableEq, Repr

inductive AcceptorPc where
  | running
  | exited
  deriving DecidableEq, Repr

/-- The scheduler: its goroutines, its channels, and the histories of the run. -/
structure Retry where
  main : MainPc
  /-- The buffer of `work := make(chan int, numTask)`. -/
  work : List ℕ
  workClosed : Bool
  /-- A send on the closed channel `work` happened. -/
  panicked : Bool
  workers : List Worker
  acceptor : AcceptorPc
  /-- Names sent on `servers` and not received yet. -/
  servers : List String
  serversClosed : Bool
  /-- All names sent on `servers` so far. -/
  sent : List String
  /-- The invocations `call(srv, task)` so far. -/
  calls : List (String × ℕ)
  /-- The tasks whose call returned true so far. -/
  succeeded : List ℕ

/-- Who takes a step. -/
inductive Party where
  | main
  | acceptor
  | worker
  /-- The owner of the `servers` channel. -/
  | owner
  deriving DecidableEq, Repr

/-- The channels and goroutines at the call; the acceptor is started first. -/
def retryInit : Retry where
  main := .sending 0
  work := []
  workClosed := false
  panicked := false
  workers := []
  acceptor := .running
  servers := []
  serversClosed := false
  sent := []
  calls := []
  succeeded := []

/-- One step.  Sends and receives on `done` and `exit` (unbuffered) are one step of both
sides; a receive from a closed and empty channel gives the zero value. -/
inductive RetryStep (loop : AcceptorLoop) (numTask : ℕ) (s : Retry) : Party → Retry → Prop where
  | mainSend (task : ℕ) (h : s.main = .sending task) (ht : task < numTask)
      (hopen : s.workClosed = false) (hroom : s.work.length < numTask) :
      RetryStep loop numTask s .main
        { s with main := .sending (task + 1), work := s.work ++ [task] }
  -- a send on a closed channel panics
  | mainSendClosed (task : ℕ) (h : s.main = .sending task) (ht : task < numTask)
      (hclosed : s.workClosed = true) :
      RetryStep loop numTask s .main { s with panicked := true }
  | mainSent (task : ℕ) (h : s.main = .sending task) (ht : numTask ≤ task) :
      RetryStep loop numTask s .main { s with main := .waiting 0 }
  | mainRecv (i j : ℕ) (srv : String) (task : ℕ) (h : s.main = .waiting i) (hi : i < numTask)
      (hj : s.workers[j]? = some ⟨srv, .acking task⟩) :
      RetryStep loop numTask s .main
        { s with main := .waiting (i + 1), workers := s.workers.set j ⟨srv, .idle⟩ }
  -- `close(work)` ends the workers' range loops
  | mainClose (i : ℕ) (h : s.main = .waiting i) (hi : numTask ≤ i) :
      RetryStep loop numTask s .main
        { s with workClosed := true, main := loop.afterClose }
  -- the acceptor's `select` takes the exit signal
  | exitSend (h : s.main = .exiting) (hloop : loop = .selectExit)
      (ha : s.acceptor = .running) :
      RetryStep loop numTask s .main { s with main := .returned, acceptor := .exited }
  | accept (srv : String) (rest : List String) (ha : s.acceptor = .running)
      (hs : s.servers = srv :: rest) :
      RetryStep loop numTask s .acceptor
        { s with servers := rest, workers := s.workers ++ [⟨srv, .idle⟩] }
  | rangeEnd (hloop : loop = .rangeServers) (ha : s.acceptor = .running)
      (hs : s.servers = []) (hclosed : s.serversClosed = true) :
      RetryStep loop numTask s .acceptor { s with acceptor := .exited }
  -- a closed channel is always ready: V10 goes on with the name ""
  | acceptClosed (hloop : loop = .selectExit) (ha : s.acceptor = .running)
      (hs : s.servers = []) (hclosed : s.serversClosed = true) :
      RetryStep loop numTask s .acceptor { s with workers := s.workers ++ [⟨"", .idle⟩] }
  | take (j : ℕ) (srv : String) (task : ℕ) (rest : List ℕ)
      (hj : s.workers[j]? = some ⟨srv, .idle⟩) (hw : s.work = task :: rest) :
      RetryStep loop numTask s .worker
        { s with
          work := rest
          workers := s.workers.set j ⟨srv, .calling task⟩
          calls := s.calls ++ [(srv, task)] }
  | workEnd (j : ℕ) (srv : String) (hj : s.workers[j]? = some ⟨srv, .idle⟩)
      (hw : s.work = []) (hclosed : s.workClosed = true) :
      RetryStep loop numTask s .worker
        { s with workers := s.workers.set j ⟨srv, .exited⟩ }
  | callTrue (j : ℕ) (srv : String) (task : ℕ)
      (hj : s.workers[j]? = some ⟨srv, .calling task⟩) :
      RetryStep loop numTask s .worker
        { s with
          workers := s.workers.set j ⟨srv, .acking task⟩
          succeeded := s.succeeded ++ [task] }
  -- the result of a call is up to the server
  | callFalse (j : ℕ) (srv : String) (task : ℕ)
      (hj : s.workers[j]? = some ⟨srv, .calling task⟩) :
      RetryStep loop numTask s .worker
        { s with workers := s.workers.set j ⟨srv, .requeuing task⟩ }
  | requeue (j : ℕ) (srv : String) (task : ℕ)
      (hj : s.workers[j]? = some ⟨srv, .requeuing task⟩)
      (hopen : s.workClosed = false) (hroom : s.work.length < numTask) :
      RetryStep loop numTask s .worker
        { s with work := s.work ++ [task], workers := s.workers.set j ⟨srv, .idle⟩ }
  | requeueClosed (j : ℕ) (srv : String) (task : ℕ)
      (hj : s.workers[j]? = some ⟨srv, .requeuing task⟩) (hclosed : s.workClosed = true) :
      RetryStep loop numTask s .worker { s with panicked := true }
  | arrive (srv : String) (hopen : s.serversClosed = false) :
      RetryStep loop numTask s .owner
        { s with servers := s.servers ++ [srv], sent := s.sent ++ [srv] }
  | closeServers (hopen : s.serversClosed = false) :
      RetryStep loop numTask s .owner { s with serversClosed := true }

/-- The scheduler with either acceptor. -/
def retrySchedule (loop : AcceptorLoop) (numTask : ℕ) : System Retry where
  init s := s = retryInit
  step s s' := ∃ party, RetryStep loop numTask s party s'

/-- `ScheduleFixedV9` -/
def scheduleFixedV9 (numTask : ℕ) : System Retry := retrySchedule .rangeServers numTask

/-- `ScheduleFixedV10` -/
def scheduleFixedV10 (numTask : ℕ) : System Retry := retrySchedule .selectExit numTask

/-! ## §2. The conservation law. -/

/-- The task is in the worker's hands. -/
def WorkerPc.holds (task : ℕ) : WorkerPc → ℕ
  | .calling t | .requeuing t => if t = task then 1 else 0
  | _ => 0

/-- Some task is in the worker's hands. -/
def WorkerPc.held : WorkerPc → ℕ
  | .calling _ | .requeuing _ => 1
  | _ => 0

theorem WorkerPc.holds_le_held (task : ℕ) (pc : WorkerPc) : pc.holds task ≤ pc.held := by
  cases pc with
  | calling t => simp only [WorkerPc.holds, WorkerPc.held]; split_ifs <;> omega
  | requeuing t => simp only [WorkerPc.holds, WorkerPc.held]; split_ifs <;> omega
  | idle => exact Nat.le_refl 0
  | acking t => exact Nat.le_refl 0
  | exited => exact Nat.le_refl 0

/-- The worker waits to hand over an acknowledgement. -/
def WorkerPc.unacked : WorkerPc → ℕ
  | .acking _ => 1
  | _ => 0

/-- The first task main has not queued yet. -/
def MainPc.next (numTask : ℕ) : MainPc → ℕ
  | .sending task => task
  | _ => numTask

/-- Main has still to queue the task `t`. -/
def MainPc.unsent (t : ℕ) : MainPc → ℕ
  | .sending task => if task ≤ t then 1 else 0
  | _ => 0

/-- The number of acknowledgements main has received. -/
def MainPc.acked (numTask : ℕ) : MainPc → ℕ
  | .sending _ => 0
  | .waiting i => i
  | _ => numTask

/-- The conservation law. -/
structure Conserved (numTask : ℕ) (s : Retry) : Prop where
  perTask : ∀ t, t < numTask →
    s.main.unsent t + s.work.count t + weight (fun w => w.pc.holds t) s.workers +
      s.succeeded.count t = 1
  total : (numTask - s.main.next numTask) + s.work.length +
    weight (fun w => w.pc.held) s.workers + s.succeeded.length = numTask
  acks : s.succeeded.length = s.main.acked numTask + weight (fun w => w.pc.unacked) s.workers
  next_le : s.main.next numTask ≤ numTask

/-- Main is past `close(work)`. -/
def MainPc.closedWork : MainPc → Bool
  | .exiting | .returned => true
  | _ => false

/-- How the goroutines end: `work` is closed by main's last steps only, the acceptor
leaves names behind only after the return. -/
structure Endings (loop : AcceptorLoop) (s : Retry) : Prop where
  closed : s.workClosed = s.main.closedWork
  not_panicked : s.panicked = false
  /-- Before the first worker every name is still in the channel. -/
  pending : s.workers = [] → s.servers = s.sent
  acceptor_exited : s.acceptor = .exited →
    (loop = .rangeServers ∧ s.servers = [] ∧ s.serversClosed = true) ∨ s.main = .returned
  exiting : s.main = .exiting → loop = .selectExit ∧ s.acceptor = .running
  worker_exited : ∀ w ∈ s.workers, w.pc = .exited → s.workClosed = true

/-- **The invariant.** -/
def RetryInv (loop : AcceptorLoop) (numTask : ℕ) (s : Retry) : Prop :=
  Conserved numTask s ∧ Endings loop s

/-- Main or a worker is at a send on `work`. -/
def AtSend (numTask : ℕ) (s : Retry) : Prop :=
  (∃ task, s.main = .sending task ∧ task < numTask) ∨
    ∃ w ∈ s.workers, ∃ task, w.pc = .requeuing task

/-- The counts after one worker went from `x` to `y`. -/
theorem workers_set {l : List Worker} {j : ℕ} {srv : String} {x : WorkerPc} (y : WorkerPc)
    (h : l[j]? = some ⟨srv, x⟩) :
    (∀ t, weight (fun w => w.pc.holds t) (l.set j ⟨srv, y⟩) + x.holds t =
      weight (fun w => w.pc.holds t) l + y.holds t) ∧
    weight (fun w => w.pc.held) (l.set j ⟨srv, y⟩) + x.held =
      weight (fun w => w.pc.held) l + y.held ∧
    weight (fun w => w.pc.unacked) (l.set j ⟨srv, y⟩) + x.unacked =
      weight (fun w => w.pc.unacked) l + y.unacked :=
  ⟨fun t => weight_set (fun w : Worker => w.pc.holds t) ⟨srv, y⟩ h,
    weight_set (fun w : Worker => w.pc.held) ⟨srv, y⟩ h,
    weight_set (fun w : Worker => w.pc.unacked) ⟨srv, y⟩ h⟩

theorem count_concat (l : List ℕ) (task t : ℕ) :
    (l ++ [task]).count t = l.count t + if task = t then 1 else 0 := by
  simp [List.count_append, List.count_cons]

theorem count_cons_task (l : List ℕ) (task t : ℕ) :
    (task :: l).count t = l.count t + if task = t then 1 else 0 := by
  simp [List.count_cons]

/-- Queueing `task` takes it out of the tasks still to queue. -/
theorem unsent_succ (task t : ℕ) :
    (MainPc.sending (task + 1)).unsent t + (if task = t then 1 else 0) =
      (MainPc.sending task).unsent t := by
  simp only [MainPc.unsent]
  split_ifs <;> omega

section Steps

variable {loop : AcceptorLoop} {numTask : ℕ} {s : Retry}

/-- With `work` closed, all acknowledgements are in and nothing is queued or held. -/
theorem Conserved.of_acked (hc : Conserved numTask s) (h : s.main.acked numTask = numTask) :
    s.work.length = 0 ∧ weight (fun w => w.pc.held) s.workers = 0 ∧
      numTask ≤ s.main.next numTask := by
  have h1 := hc.total
  have h2 := hc.acks
  omega

theorem MainPc.acked_of_closed {m : MainPc} (h : m.closedWork = true) :
    m.acked numTask = numTask := by
  cases m with
  | exiting => rfl
  | returned => rfl
  | sending task => exact absurd h (by simp [MainPc.closedWork])
  | waiting i => exact absurd h (by simp [MainPc.closedWork])

/-- **A send on `work` never waits and never meets a closed channel.** -/
theorem RetryInv.at_send (hinv : RetryInv loop numTask s) (h : AtSend numTask s) :
    s.work.length < numTask ∧ s.workClosed = false := by
  obtain ⟨hc, he⟩ := hinv
  rcases h with ⟨task, hm, ht⟩ | ⟨w, hw, task, hpc⟩
  · -- main: the task it sends is not in the buffer yet
    have h1 := hc.total
    rw [hm] at h1
    simp only [MainPc.next] at h1
    refine ⟨by omega, ?_⟩
    rw [he.closed, hm]
    rfl
  · -- a worker: the task in its hands is not in the buffer
    obtain ⟨j, hj⟩ := List.getElem?_of_mem hw
    have h0 : w.pc.held = 1 := by
      rw [hpc]
      rfl
    have h1 : w.pc.held ≤ weight (fun w => w.pc.held) s.workers :=
      le_weight (fun w : Worker => w.pc.held) hj
    have h2 := hc.total
    refine ⟨by omega, ?_⟩
    -- the task in the worker's hands is not acknowledged
    rw [he.closed]
    by_contra hclosed
    have h3 := hc.of_acked (MainPc.acked_of_closed (by simpa using hclosed))
    omega

/-! ## §3. One step. -/

/-- A worker moves from `x` to `y`, and moves its task along. -/
theorem Conserved.workerMove (hc : Conserved numTask s) {j : ℕ} {srv : String}
    {x : WorkerPc} (y : WorkerPc) (hj : s.workers[j]? = some ⟨srv, x⟩)
    (work : List ℕ) (calls : List (String × ℕ)) (succeeded : List ℕ)
    (hper : ∀ t, work.count t + y.holds t + succeeded.count t =
      s.work.count t + x.holds t + s.succeeded.count t)
    (htotal : work.length + y.held + succeeded.length =
      s.work.length + x.held + s.succeeded.length)
    (hacks : succeeded.length + x.unacked = s.succeeded.length + y.unacked) :
    Conserved numTask { s with
      work := work
      workers := s.workers.set j ⟨srv, y⟩
      calls := calls
      succeeded := succeeded } := by
  obtain ⟨w1, w2, w3⟩ := workers_set y hj
  constructor
  · intro t ht
    have h1 := hc.perTask t ht
    have h2 := w1 t
    have h3 := hper t
    dsimp only
    omega
  · have h1 := hc.total
    dsimp only
    omega
  · have h1 := hc.acks
    dsimp only
    omega
  · exact hc.next_le

theorem Endings.workerMove (he : Endings loop s) {j : ℕ} {srv : String} {x : WorkerPc}
    (y : WorkerPc) (hj : s.workers[j]? = some ⟨srv, x⟩) (work : List ℕ)
    (calls : List (String × ℕ)) (succeeded : List ℕ)
    (hexited : y = .exited → s.workClosed = true) :
    Endings loop { s with
      work := work
      workers := s.workers.set j ⟨srv, y⟩
      calls := calls
      succeeded := succeeded } := by
  constructor
  · exact he.closed
  · exact he.not_panicked
  · intro hnil
    exact absurd hnil (set_ne_nil _ hj)
  · exact he.acceptor_exited
  · exact he.exiting
  · intro w hw hpc
    obtain ⟨k, hk⟩ := List.getElem?_of_mem hw
    rcases getElem?_set_cases hk with ⟨_, h'⟩ | ⟨_, h'⟩
    · subst h'
      exact hexited hpc
    · exact he.worker_exited w (List.mem_of_getElem? h') hpc

/-- Main moves on before `close(work)`. -/
theorem Endings.mainMove (he : Endings loop s) (m : MainPc) (hold : s.main.closedWork = false)
    (hnew : m.closedWork = false) (work : List ℕ) :
    Endings loop { s with main := m, work := work } := by
  constructor
  · show s.workClosed = m.closedWork
    rw [he.closed, hold, hnew]
  · exact he.not_panicked
  · exact he.pending
  · intro hexit
    rcases he.acceptor_exited hexit with h | h
    · exact Or.inl h
    · rw [h] at hold
      exact absurd hold (by simp [MainPc.closedWork])
  · intro h
    rw [show m = .exiting from h] at hnew
    exact absurd hnew (by simp [MainPc.closedWork])
  · exact he.worker_exited

/-- The acceptor starts a worker. -/
theorem RetryInv.startWorker (hinv : RetryInv loop numTask s) (ha : s.acceptor = .running)
    (srv : String) (servers : List String) :
    RetryInv loop numTask { s with
      servers := servers
      workers := s.workers ++ [⟨srv, .idle⟩] } := by
  obtain ⟨hc, he⟩ := hinv
  constructor
  · -- an idle worker counts for nothing
    constructor
    · intro t ht
      dsimp only
      rw [weight_concat]
      exact hc.perTask t ht
    · dsimp only
      rw [weight_concat]
      exact hc.total
    · dsimp only
      rw [weight_concat]
      exact hc.acks
    · exact hc.next_le
  · constructor
    · exact he.closed
    · exact he.not_panicked
    · intro hnil
      exact absurd hnil (by simp)
    · intro hexit
      exact absurd (ha.symm.trans hexit) (by simp)
    · exact he.exiting
    · intro w hw hpc
      rcases List.mem_append.mp hw with hw | hw
      · exact he.worker_exited w hw hpc
      · rw [List.mem_singleton.mp hw] at hpc
        exact absurd hpc (by simp)

/-- Main queues its next task. -/
theorem Conserved.mainSend (hc : Conserved numTask s) {task : ℕ}
    (hm : s.main = .sending task) (ht : task < numTask) :
    Conserved numTask { s with main := .sending (task + 1), work := s.work ++ [task] } := by
  obtain ⟨h1, h2, h3, h4⟩ := hc
  rw [hm] at h1 h2 h3
  constructor
  · intro t htn
    have h1 := h1 t htn
    rw [← unsent_succ] at h1
    dsimp only
    rw [count_concat]
    omega
  · simp only [MainPc.next, List.length_append, List.length_singleton] at h2 ⊢
    omega
  · exact h3
  · exact ht

/-- Main has queued all tasks. -/
theorem Conserved.mainSent (hc : Conserved numTask s) {task : ℕ}
    (hm : s.main = .sending task) (ht : numTask ≤ task) :
    Conserved numTask { s with main := .waiting 0 } := by
  obtain ⟨h1, h2, h3, h4⟩ := hc
  rw [hm] at h1 h2 h3 h4
  obtain rfl : task = numTask := Nat.le_antisymm h4 ht
  refine ⟨?_, h2, h3, h4⟩
  intro t htn
  have h1 := h1 t htn
  rw [show (MainPc.sending task).unsent t = 0 from if_neg (by omega)] at h1
  exact h1

/-- Main receives an acknowledgement. -/
theorem Conserved.mainRecv (hc : Conserved numTask s) {i j : ℕ} {srv : String} {task : ℕ}
    (hm : s.main = .waiting i) (hj : s.workers[j]? = some ⟨srv, .acking task⟩) :
    Conserved numTask
      { s with main := .waiting (i + 1), workers := s.workers.set j ⟨srv, .idle⟩ } := by
  obtain ⟨w1, w2, w3⟩ := workers_set .idle hj
  obtain ⟨h1, h2, h3, h4⟩ := hc
  rw [hm] at h1 h2 h3 h4
  constructor
  · intro t ht
    have h1 := h1 t ht
    have w1 := w1 t
    rw [show WorkerPc.holds t (.acking task) = WorkerPc.holds t .idle from rfl] at w1
    rw [show (MainPc.waiting (i + 1)).unsent t = (MainPc.waiting i).unsent t from rfl]
    dsimp only
    omega
  · rw [show WorkerPc.held (.acking task) = WorkerPc.held .idle from rfl] at w2
    rw [show (MainPc.waiting (i + 1)).next numTask = (MainPc.waiting i).next numTask from rfl]
    dsimp only
    omega
  · -- the acknowledgement moves from the worker to main
    rw [show WorkerPc.unacked (.acking task) = 1 from rfl,
      show WorkerPc.unacked .idle = 0 from rfl] at w3
    rw [show (MainPc.waiting i).acked numTask = i from rfl] at h3
    show s.succeeded.length = i + 1 + _
    dsimp only
    omega
  · exact h4

/-- The owner of `servers` or the acceptor moves, and no worker is started. -/
theorem RetryInv.serversMove (hinv : RetryInv loop numTask s) (servers sent : List String)
    (serversClosed : Bool) (acceptor : AcceptorPc) (hpending : s.workers = [] → servers = sent)
    (hexited : acceptor = .exited →
      (loop = .rangeServers ∧ servers = [] ∧ serversClosed = true) ∨ s.main = .returned)
    (hexiting : s.main = .exiting → acceptor = .running) :
    RetryInv loop numTask { s with
      servers := servers
      sent := sent
      serversClosed := serversClosed
      acceptor := acceptor } := by
  obtain ⟨⟨h1, h2, h3, h4⟩, he⟩ := hinv
  refine ⟨⟨h1, h2, h3, h4⟩, ?_⟩
  constructor
  · exact he.closed
  · exact he.not_panicked
  · exact hpending
  · exact hexited
  · exact fun hm => ⟨(he.exiting hm).1, hexiting hm⟩
  · exact he.worker_exited

/-- Main closes `work`. -/
theorem RetryInv.mainClose (hinv : RetryInv loop numTask s) {i : ℕ}
    (hm : s.main = .waiting i) (hi : numTask ≤ i) :
    RetryInv loop numTask { s with workClosed := true, main := loop.afterClose } := by
  obtain ⟨hc, he⟩ := hinv
  obtain ⟨h1, h2, h3, h4⟩ := hc
  rw [hm] at h1 h2 h3 h4
  -- main cannot have more acknowledgements than tasks
  obtain rfl : i = numTask := by
    simp only [MainPc.acked, MainPc.next] at h2 h3
    omega
  have hexited : s.acceptor = .exited →
      loop = .rangeServers ∧ s.servers = [] ∧ s.serversClosed = true := by
    intro hexit
    rcases he.acceptor_exited hexit with h | h
    · exact h
    · exact absurd (hm.symm.trans h) (by simp)
  cases loop with
  | rangeServers =>
      refine ⟨⟨h1, h2, h3, h4⟩, ?_⟩
      constructor
      · rfl
      · exact he.not_panicked
      · exact he.pending
      · exact fun hexit => Or.inl (hexited hexit)
      · intro h
        exact absurd h (by simp [AcceptorLoop.afterClose])
      · exact fun _ _ _ => rfl
  | selectExit =>
      -- V10's acceptor has no way out but the exit signal
      have hrunning : s.acceptor = .running := by
        cases ha : s.acceptor with
        | running => rfl
        | exited => exact absurd (hexited ha).1 (by simp)
      refine ⟨⟨h1, h2, h3, h4⟩, ?_⟩
      constructor
      · rfl
      · exact he.not_panicked
      · exact he.pending
      · exact fun hexit => Or.inl (hexited hexit)
      · exact fun _ => ⟨rfl, hrunning⟩
      · exact fun _ _ _ => rfl

/-- Main leaves, and the acceptor with it. -/
theorem RetryInv.exitSend (hinv : RetryInv loop numTask s) (hm : s.main = .exiting) :
    RetryInv loop numTask { s with main := .returned, acceptor := .exited } := by
  obtain ⟨⟨h1, h2, h3, h4⟩, he⟩ := hinv
  rw [hm] at h1 h2 h3 h4
  refine ⟨⟨h1, h2, h3, h4⟩, ?_⟩
  constructor
  · show s.workClosed = true
    rw [he.closed, hm]
    rfl
  · exact he.not_panicked
  · exact he.pending
  · exact fun _ => Or.inr rfl
  · intro h
    exact absurd h (by simp)
  · exact he.worker_exited

/-- **One step keeps the invariant.** -/
theorem RetryInv.step (hinv : RetryInv loop numTask s) {party : Party} {s' : Retry}
    (hstep : RetryStep loop numTask s party s') : RetryInv loop numTask s' := by
  cases hstep with
  | mainSend task h ht hopen hroom =>
      exact ⟨hinv.1.mainSend h ht, hinv.2.mainMove _ (by rw [h]; rfl) rfl _⟩
  | mainSendClosed task h ht hclosed =>
      -- the panic cannot happen
      have := (hinv.at_send (Or.inl ⟨task, h, ht⟩)).2
      exact absurd (hclosed.symm.trans this) (by simp)
  | mainSent task h ht =>
      exact ⟨hinv.1.mainSent h ht, hinv.2.mainMove _ (by rw [h]; rfl) rfl s.work⟩
  | mainRecv i j srv task h hi hj =>
      -- both sides of the rendezvous move
      have hmoved := hinv.2.workerMove .idle hj s.work s.calls s.succeeded (fun he => by cases he)
      exact ⟨hinv.1.mainRecv h hj, hmoved.mainMove (.waiting (i + 1)) (by rw [h]; rfl) rfl s.work⟩
  | mainClose i h hi => exact hinv.mainClose h hi
  | exitSend h hloop ha => exact hinv.exitSend h
  | accept srv rest ha hs => exact hinv.startWorker ha srv rest
  | rangeEnd hloop ha hs hclosed =>
      refine hinv.serversMove s.servers s.sent s.serversClosed .exited hinv.2.pending ?_ ?_
      · exact fun _ => Or.inl ⟨hloop, hs, hclosed⟩
      · intro hm
        exact absurd (hloop.symm.trans (hinv.2.exiting hm).1) (by simp)
  | acceptClosed hloop ha hs hclosed => exact hinv.startWorker ha "" s.servers
  | take j srv task rest hj hw =>
      -- the task goes from the buffer into the worker's hands
      refine ⟨hinv.1.workerMove (.calling task) hj rest _ _ ?_ ?_ rfl,
        hinv.2.workerMove _ hj _ _ _ (fun he => by cases he)⟩
      · intro t
        rw [hw, count_cons_task]
        simp only [WorkerPc.holds]
        omega
      · rw [hw, List.length_cons]
        simp only [WorkerPc.held]
  | workEnd j srv hj hw hclosed =>
      exact ⟨hinv.1.workerMove .exited hj s.work s.calls s.succeeded (fun _ => rfl) rfl rfl,
        hinv.2.workerMove _ hj _ _ _ (fun _ => hclosed)⟩
  | callTrue j srv task hj =>
      -- from the worker's hands to the succeeded ones
      refine ⟨hinv.1.workerMove (.acking task) hj s.work s.calls _ ?_ ?_ ?_,
        hinv.2.workerMove _ hj _ _ _ (fun he => by cases he)⟩
      · intro t
        rw [count_concat]
        simp only [WorkerPc.holds]
        omega
      · rw [List.length_append, List.length_singleton]
        simp only [WorkerPc.held]
        omega
      · rw [List.length_append, List.length_singleton]
        simp only [WorkerPc.unacked]
  | callFalse j srv task hj =>
      exact ⟨hinv.1.workerMove (.requeuing task) hj s.work s.calls s.succeeded
          (fun _ => rfl) rfl rfl,
        hinv.2.workerMove _ hj _ _ _ (fun he => by cases he)⟩
  | requeue j srv task hj hopen hroom =>
      -- and back into the buffer
      refine ⟨hinv.1.workerMove .idle hj _ s.calls s.succeeded ?_ ?_ rfl,
        hinv.2.workerMove _ hj _ _ _ (fun he => by cases he)⟩
      · intro t
        rw [count_concat]
        simp only [WorkerPc.holds]
        omega
      · rw [List.length_append, List.length_singleton]
        simp only [WorkerPc.held]
  | requeueClosed j srv task hj hclosed =>
      -- the panic cannot happen here either
      have := (hinv.at_send (Or.inr ⟨_, List.mem_of_getElem? hj, task, rfl⟩)).2
      exact absurd (hclosed.symm.trans this) (by simp)
  | arrive srv hopen =>
      refine hinv.serversMove _ _ s.serversClosed s.acceptor ?_ ?_ (fun hm => (hinv.2.exiting hm).2)
      · intro hnil
        rw [hinv.2.pending hnil]
      · intro hexit
        rcases hinv.2.acceptor_exited hexit with h | h
        · rw [hopen] at h
          exact absurd h.2.2 (by simp)
        · exact Or.inr h
  | closeServers hopen =>
      refine hinv.serversMove s.servers s.sent true s.acceptor hinv.2.pending ?_
        (fun hm => (hinv.2.exiting hm).2)
      intro hexit
      rcases hinv.2.acceptor_exited hexit with h | h
      · exact Or.inl ⟨h.1, h.2.1, rfl⟩
      · exact Or.inr h

end Steps

/-! ## §4. Whole runs. -/

theorem RetryInv.init (loop : AcceptorLoop) (numTask : ℕ) :
    RetryInv loop numTask retryInit := by
  constructor
  · constructor
    · intro t _
      simp [retryInit, MainPc.unsent, weight_nil]
    · simp [retryInit, MainPc.next, weight_nil]
    · rfl
    · exact Nat.zero_le numTask
  · constructor
    · rfl
    · rfl
    · exact fun _ => rfl
    · intro h
      exact absurd h (by simp [retryInit])
    · intro h
      exact absurd h (by simp [retryInit])
    · intro w hw
      exact absurd hw (by simp [retryInit])

theorem retry_invariant {loop : AcceptorLoop} {numTask : ℕ} {s : Retry}
    (h : (retrySchedule loop numTask).Reachable s) : RetryInv loop numTask s := by
  refine h.invariant ?_ ?_
  · intro s h0
    rw [show s = retryInit from h0]
    exact RetryInv.init loop numTask
  · intro s s' _ hinv hstep
    obtain ⟨party, hstep⟩ := hstep
    exact hinv.step hstep

/-- **At the return** every task has succeeded once and no worker holds a task. -/
theorem RetryInv.at_return {loop : AcceptorLoop} {numTask : ℕ} {s : Retry}
    (hinv : RetryInv loop numTask s) (hm : s.main = .returned) :
    (∀ t, t < numTask → s.succeeded.count t = 1) ∧ ∀ w ∈ s.workers, w.pc.held = 0 := by
  obtain ⟨hc, _⟩ := hinv
  obtain ⟨hwork, hheld, hnext⟩ := hc.of_acked (by rw [hm]; rfl)
  have hnone : ∀ w ∈ s.workers, w.pc.held = 0 := by
    intro w hw
    obtain ⟨j, hj⟩ := List.getElem?_of_mem hw
    have : w.pc.held ≤ weight (fun w => w.pc.held) s.workers :=
      le_weight (fun w : Worker => w.pc.held) hj
    omega
  refine ⟨?_, hnone⟩
  intro t ht
  -- not unsent, not queued, not held: the task has succeeded
  have h1 := hc.perTask t ht
  have h2 : weight (fun w : Worker => w.pc.holds t) s.workers ≤
      weight (fun w => w.pc.held) s.workers :=
    weight_mono (fun w => w.pc.holds_le_held t) s.workers
  have h3 : s.work = [] := List.length_eq_zero_iff.mp hwork
  rw [h3, List.count_nil, hm, show MainPc.returned.unsent t = 0 from rfl] at h1
  omega

/-- While main waits, a worker that holds a task or an acknowledgement can move. -/
theorem RetryInv.busy_step {loop : AcceptorLoop} {numTask : ℕ} {s : Retry}
    (hinv : RetryInv loop numTask s) {i j : ℕ} {w : Worker} (hm : s.main = .waiting i)
    (hi : i < numTask) (hj : s.workers[j]? = some w) (hbusy : 0 < w.pc.held + w.pc.unacked) :
    ∃ s', RetryStep loop numTask s .main s' ∨ RetryStep loop numTask s .worker s' := by
  obtain ⟨srv, pc⟩ := w
  cases pc with
  | calling task => exact ⟨_, Or.inr (.callTrue j srv task hj)⟩
  | acking task => exact ⟨_, Or.inl (.mainRecv i j srv task hm hi hj)⟩
  | requeuing task =>
      obtain ⟨hroom, hopen⟩ := hinv.at_send (Or.inr ⟨_, List.mem_of_getElem? hj, task, rfl⟩)
      exact ⟨_, Or.inr (.requeue j srv task hj hopen hroom)⟩
  | idle => exact absurd hbusy (by simp [WorkerPc.held, WorkerPc.unacked])
  | exited => exact absurd hbusy (by simp [WorkerPc.held, WorkerPc.unacked])

/-- While main waits and every worker is idle or gone, a task is in the channel. -/
theorem RetryInv.work_of_idle {loop : AcceptorLoop} {numTask : ℕ} {s : Retry}
    (hinv : RetryInv loop numTask s) {i : ℕ} (hm : s.main = .waiting i) (hi : i < numTask)
    (hidle : weight (fun w => w.pc.held + w.pc.unacked) s.workers = 0) :
    ∃ task rest, s.work = task :: rest := by
  have h1 := hinv.1.total
  have h2 := hinv.1.acks
  rw [hm] at h1 h2
  have h3 : weight (fun w => w.pc.held) s.workers ≤
      weight (fun w => w.pc.held + w.pc.unacked) s.workers :=
    weight_mono (fun w => Nat.le_add_right _ _) s.workers
  have h4 : weight (fun w => w.pc.unacked) s.workers ≤
      weight (fun w => w.pc.held + w.pc.unacked) s.workers :=
    weight_mono (fun w => Nat.le_add_left _ _) s.workers
  simp only [MainPc.next, MainPc.acked] at h1 h2
  -- an empty buffer would make all tasks succeeded and acknowledged
  cases hw : s.work with
  | nil =>
      rw [hw, List.length_nil] at h1
      omega
  | cons task rest => exact ⟨task, rest, rfl⟩

/-- **Progress**: before the return, main or a worker can move, or no worker is started
yet and the acceptor can take a name. -/
theorem RetryInv.progress {loop : AcceptorLoop} {numTask : ℕ} {s : Retry}
    (hinv : RetryInv loop numTask s) (hsent : s.sent ≠ []) (hm : s.main ≠ .returned) :
    (∃ s', RetryStep loop numTask s .main s' ∨ RetryStep loop numTask s .worker s') ∨
      (s.workers = [] ∧ s.servers ≠ [] ∧ ∃ s', RetryStep loop numTask s .acceptor s') := by
  cases hmain : s.main with
  | returned => exact absurd hmain hm
  | sending task =>
      left
      rcases Nat.lt_or_ge task numTask with ht | ht
      · obtain ⟨hroom, hopen⟩ := hinv.at_send (Or.inl ⟨task, hmain, ht⟩)
        exact ⟨_, Or.inl (.mainSend task hmain ht hopen hroom)⟩
      · exact ⟨_, Or.inl (.mainSent task hmain ht)⟩
  | exiting =>
      obtain ⟨hloop, ha⟩ := hinv.2.exiting hmain
      exact Or.inl ⟨_, Or.inl (.exitSend hmain hloop ha)⟩
  | waiting i =>
      rcases Nat.lt_or_ge i numTask with hi | hi
      swap
      · exact Or.inl ⟨_, Or.inl (.mainClose i hmain hi)⟩
      cases hworkers : s.workers with
      | nil =>
          -- no worker yet: the first name is still in the channel
          right
          obtain ⟨srv, rest, hs⟩ := List.exists_cons_of_ne_nil hsent
          have hservers : s.servers = srv :: rest := (hinv.2.pending hworkers).trans hs
          have ha : s.acceptor = .running := by
            cases ha : s.acceptor with
            | running => rfl
            | exited =>
                rcases hinv.2.acceptor_exited ha with h | h
                · rw [h.2.1] at hservers
                  exact absurd hservers (by simp)
                · exact absurd h hm
          exact ⟨rfl, by rw [hservers]; simp, _, .accept srv rest ha hservers⟩
      | cons w ws =>
          left
          have h0 : s.workers[0]? = some w := by
            rw [hworkers]
            rfl
          rcases Nat.eq_zero_or_pos (weight (fun w => w.pc.held + w.pc.unacked) s.workers)
            with hidle | hbusy
          · -- the first worker is idle and takes a task
            obtain ⟨task, rest, hwork⟩ := hinv.work_of_idle hmain hi hidle
            have hle : w.pc.held + w.pc.unacked ≤ weight _ s.workers :=
              le_weight (fun w : Worker => w.pc.held + w.pc.unacked) h0
            rw [hidle] at hle
            obtain ⟨srv, pc⟩ := w
            cases pc with
            | idle => exact ⟨_, Or.inr (.take 0 srv task rest h0 hwork)⟩
            | exited =>
                have h1 := hinv.2.worker_exited _ (List.mem_of_getElem? h0) rfl
                rw [hinv.2.closed, hmain] at h1
                exact absurd h1 (by simp [MainPc.closedWork])
            | _ => exact absurd hle (by simp [WorkerPc.held, WorkerPc.unacked])
          · obtain ⟨j, w', hj, hw'⟩ := exists_of_weight_pos _ hbusy
            exact hinv.busy_step hmain hi hj hw'

/-- **The retrying schedulers are safe and live**, in every reachable state of
`ScheduleFixedV9` and `ScheduleFixedV10`:

  • no send on `work` happened after `close(work)`, and none is about to,
  • a send on `work` finds room in the buffer,
  • at the return each task has had exactly one successful call, and no call runs,
  • before the return, once a name was sent on `servers`, main or a worker can move, or
    there is no worker yet and the acceptor can take a name. -/
theorem retrySchedule_safe_live (loop : AcceptorLoop) (numTask : ℕ) (s : Retry)
    (hs : (retrySchedule loop numTask).Reachable s) :
    (s.panicked = false ∧ (AtSend numTask s → s.workClosed = false)) ∧
    (AtSend numTask s → s.work.length < numTask) ∧
    (s.main = .returned → (∀ t, t < numTask → s.succeeded.count t = 1) ∧
      ∀ w ∈ s.workers, ∀ task, w.pc ≠ .calling task) ∧
    (s.sent ≠ [] → s.main ≠ .returned →
      (∃ s', RetryStep loop numTask s .main s' ∨ RetryStep loop numTask s .worker s') ∨
        (s.workers = [] ∧ s.servers ≠ [] ∧ ∃ s', RetryStep loop numTask s .acceptor s')) := by
  have hinv := retry_invariant hs
  refine ⟨⟨hinv.2.not_panicked, fun h => (hinv.at_send h).2⟩, fun h => (hinv.at_send h).1, ?_,
    hinv.progress⟩
  intro hm
  obtain ⟨hsucc, hheld⟩ := hinv.at_return hm
  refine ⟨hsucc, ?_⟩
  intro w hw task hpc
  have := hheld w hw
  rw [hpc] at this
  exact absurd this (by simp [WorkerPc.held])

/-- One task whose first call fails, under V9. -/
theorem retrySchedule_oneRetry :
    ∃ s, (scheduleFixedV9 1).Reachable s ∧ s.main = .returned ∧
      s.calls = [("a", 0), ("a", 0)] ∧ s.succeeded.count 0 = 1 := by
  have hinit : (retrySchedule .rangeServers 1).Reachable retryInit := System.Reachable.of_init rfl
  have hqueued := ((((hinit.tail ⟨_, .arrive "a" rfl⟩).tail
    ⟨_, .mainSend 0 rfl Nat.one_pos rfl Nat.one_pos⟩).tail
    ⟨_, .mainSent 1 rfl (Nat.le_refl 1)⟩).tail ⟨_, .accept "a" [] rfl rfl⟩)
  have hfailed := ((hqueued.tail ⟨_, .take 0 "a" 0 [] rfl rfl⟩).tail
    ⟨_, .callFalse 0 "a" 0 rfl⟩).tail ⟨_, .requeue 0 "a" 0 rfl rfl Nat.one_pos⟩
  have hdone := (((hfailed.tail ⟨_, .take 0 "a" 0 [] rfl rfl⟩).tail
    ⟨_, .callTrue 0 "a" 0 rfl⟩).tail ⟨_, .mainRecv 0 0 "a" 0 rfl Nat.one_pos rfl⟩).tail
    ⟨_, .mainClose 1 rfl (Nat.le_refl 1)⟩
  exact ⟨_, hdone, rfl, rfl,
    ((retrySchedule_safe_live .rangeServers 1 _ hdone).2.2.1 rfl).1 0 Nat.one_pos⟩

end ComputerScience.Scheduler
