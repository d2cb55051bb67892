/-
  ComputerScience.Scheduler.PerTaskDone
  ─────────────────────────────────────
  **THE SCHEDULERS WITH ONE `done` PER TASK**: `ScheduleFixedV6`, `ScheduleFixedV7` and
  `ScheduleFixedV8` (`02_work_scheduler/work_scheduler.go`).

  In V5 main feeds all tasks into the unbuffered channel `work` before it receives from the
  unbuffered channel `done`; with fewer servers than tasks every worker waits at
  `done <- true` and main at `work <- task`.  The three versions are three cures:

      V6   main selects between `work <- task` and `<-done`
      V7   a goroutine of its own feeds the tasks
      V8   `work` has room for all tasks

  The tasks are handed out in order, so the tasks called and those queued are the tasks fed;
  with the law of `Lib.CallLog` this is all the account there is.
-/
import ComputerScience.Lib.CallLog
import ComputerScience.Lib.TransitionSystem

namespace ComputerScience.Scheduler

open ComputerScience.Lib
open scoped List

/-! ## §1. The goroutines and the channels. -/

/-- How the circular wait of V5 is cured. -/
inductive Cure where
  /-- V6: `select { case work <- task: … case <-done: … }` -/
  | select
  /-- V7: `go func() { for … { work <- task }; close(work) }()` -/
  | feeder
  /-- V8: `work := make(chan int, numTask)` -/
  | buffer
  deriving DecidableEq, Repr

/-- Where the loop over the tasks is, in main or in its own goroutine. -/
inductive FeedPc where
  | sending (task : ℕ)
  /-- after `close(work)` -/
  | closed
  deriving DecidableEq, Repr

/-- Where a worker (`runTasks`) is. -/
inductive TaskPc where
  /-- at `for task := range work` -/
  | idle
  /-- inside `call(srv, task)` -/
  | calling (task : ℕ)
  /-- before `done <- true` -/
  | acking
  | exited
  deriving DecidableEq, Repr

structure TaskWorker where
  srv : String
  pc : TaskPc
  deriving DecidableEq, Repr

structure PerTask where
  feed : FeedPc
  /-- The variable `i` of main: how often it received from `done`. -/
  acked : ℕ
  /-- Main has returned. -/
  returned : Bool
  /-- The buffer of `work`. -/
  work : List ℕ
  workers : List TaskWorker
  /-- The acceptor is in `for srv := range servers`. -/
  accepting : Bool
  /-- Names sent on `servers` and not received yet. -/
  servers : List String
  serversClosed : Bool
  /-- All names sent on `servers` so far. -/
  sent : List String
  /-- The invocations `call(srv, task)` so far. -/
  calls : List (String × ℕ)
  /-- The invocations that have returned. -/
  completed : List (String × ℕ)

/-- Who takes a step. -/
inductive Side where
  /-- main, the feeder of V7 and the workers -/
  | tasks
  | acceptor
  /-- the owner of the channel `servers` -/
  | owner
  deriving DecidableEq, Repr

/-- The capacity of the channel `work`. -/
def Cure.capacity (numTask : ℕ) : Cure → ℕ
  | .select | .feeder => 0
  | .buffer => numTask

/-- Main is in its loop `for ; i < numTask; i++ { <-done }`: in V7 from the start, in V6 and
V8 after it has closed `work`. -/
def Cure.waiting : Cure → FeedPc → Bool
  | .feeder, _ => true
  | .select, .closed | .buffer, .closed => true
  | .select, .sending _ | .buffer, .sending _ => false

/-- One step.  A send and a receive that meet at an empty channel are one step. -/
inductive PerTaskStep (cure : Cure) (numTask : ℕ) (s : PerTask) : Side → PerTask → Prop where
  | handOver (task j : ℕ) (srv : String) (hf : s.feed = .sending task) (ht : task < numTask)
      (hw : s.work = []) (hj : s.workers[j]? = some ⟨srv, .idle⟩) :
      PerTaskStep cure numTask s .tasks { s with
        feed := .sending (task + 1)
        workers := s.workers.set j ⟨srv, .calling task⟩
        calls := s.calls ++ [(srv, task)] }
  | enqueue (task : ℕ) (hf : s.feed = .sending task) (ht : task < numTask)
      (hroom : s.work.length < cure.capacity numTask) :
      PerTaskStep cure numTask s .tasks { s with
        feed := .sending (task + 1)
        work := s.work ++ [task] }
  | closeWork (task : ℕ) (hf : s.feed = .sending task) (ht : numTask ≤ task) :
      PerTaskStep cure numTask s .tasks { s with feed := .closed }
  -- V6: the branch `case <-done: i++` of the `select`
  | selectDone (task j : ℕ) (srv : String) (hcure : cure = .select)
      (hf : s.feed = .sending task) (ht : task < numTask)
      (hj : s.workers[j]? = some ⟨srv, .acking⟩) :
      PerTaskStep cure numTask s .tasks { s with
        acked := s.acked + 1
        workers := s.workers.set j ⟨srv, .idle⟩ }
  | waitDone (j : ℕ) (srv : String) (hmain : cure.waiting s.feed = true)
      (hret : s.returned = false) (hi : s.acked < numTask)
      (hj : s.workers[j]? = some ⟨srv, .acking⟩) :
      PerTaskStep cure numTask s .tasks { s with
        acked := s.acked + 1
        workers := s.workers.set j ⟨srv, .idle⟩ }
  | mainReturn (hmain : cure.waiting s.feed = true) (hret : s.returned = false)
      (hi : numTask ≤ s.acked) :
      PerTaskStep cure numTask s .tasks { s with returned := true }
  | take (j task : ℕ) (srv : String) (rest : List ℕ) (hj : s.workers[j]? = some ⟨srv, .idle⟩)
      (hw : s.work = task :: rest) :
      PerTaskStep cure numTask s .tasks { s with
        work := rest
        workers := s.workers.set j ⟨srv, .calling task⟩
        calls := s.calls ++ [(srv, task)] }
  | workEnd (j : ℕ) (srv : String) (hj : s.workers[j]? = some ⟨srv, .idle⟩) (hw : s.work = [])
      (hf : s.feed = .closed) :
      PerTaskStep cure numTask s .tasks { s with workers := s.workers.set j ⟨srv, .exited⟩ }
  | callReturn (j task : ℕ) (srv : String) (hj : s.workers[j]? = some ⟨srv, .calling task⟩) :
      PerTaskStep cure numTask s .tasks { s with
        workers := s.workers.set j ⟨srv, .acking⟩
        completed := s.completed ++ [(srv, task)] }
  | accept (srv : String) (rest : List String) (ha : s.accepting = true)
      (hs : s.servers = srv :: rest) :
      PerTaskStep cure numTask s .acceptor { s with
        servers := rest
        workers := s.workers ++ [⟨srv, .idle⟩] }
  | rangeEnd (ha : s.accepting = true) (hs : s.servers = []) (hclosed : s.serversClosed = true) :
      PerTaskStep cure numTask s .acceptor { s with accepting := false }
  | arrive (srv : String) (hopen : s.serversClosed = false) :
      PerTaskStep cure numTask s .owner { s with
        servers := s.servers ++ [srv]
        sent := s.sent ++ [srv] }
  | closeServers (hopen : s.serversClosed = false) :
      PerTaskStep cure numTask s .owner { s with serversClosed := true }

/-- The scheduler with one of the cures; the acceptor is started first. -/
def perTaskSchedule (cure : Cure) (numTask : ℕ) : System PerTask where
  init s := s = ⟨.sending 0, 0, false, [], [], true, [], false, [], [], []⟩
  step s s' := ∃ side, PerTaskStep cure numTask s side s'

/-- `ScheduleFixedV6` -/
def scheduleFixedV6 (numTask : ℕ) : System PerTask := perTaskSchedule .select numTask

/-- `ScheduleFixedV7` -/
def scheduleFixedV7 (numTask : ℕ) : System PerTask := perTaskSchedule .feeder numTask

/-- `ScheduleFixedV8` -/
def scheduleFixedV8 (numTask : ℕ) : System PerTask := perTaskSchedule .buffer numTask

/-! ## §2. The invariant. -/

/-- The call the worker is inside of. -/
def TaskWorker.running (w : TaskWorker) : Option (String × ℕ) :=
  match w.pc with
  | .calling task => some (w.srv, task)
  | _ => none

/-- The worker waits to hand over an acknowledgement. -/
def TaskWorker.unacked (w : TaskWorker) : ℕ :=
  match w.pc with
  | .acking => 1
  | _ => 0

/-- The first task that was not fed yet. -/
def FeedPc.next (numTask : ℕ) : FeedPc → ℕ
  | .sending task => task
  | .closed => numTask

/-- The invariant. -/
structure PerTaskInv (numTask : ℕ) (s : PerTask) : Prop where
  /-- The tasks are handed out in order, each once. -/
  handed : s.calls.map Prod.snd ++ s.work = List.range (s.feed.next numTask)
  next_le : s.feed.next numTask ≤ numTask
  log : Balanced TaskWorker.running s.workers s.calls s.completed
  acks : s.completed.length = s.acked + weight TaskWorker.unacked s.workers
  returned : s.returned = true → numTask ≤ s.acked
  exited : ∀ w ∈ s.workers, w.pc = .exited → s.feed = .closed ∧ s.work = []
  /-- Before the first worker every name is still in the channel. -/
  pending : s.workers = [] → s.servers = s.sent
  accepting : s.accepting = false → s.servers = [] ∧ s.serversClosed = true

/-! ## §3. One step. -/

section Steps

variable {cure : Cure} {numTask : ℕ} {s s' : PerTask}

theorem mem_set_worker {l : List TaskWorker} {j : ℕ} {w w' : TaskWorker} (h : w ∈ l.set j w')
    (hpc : w.pc = .exited) (hne : w'.pc ≠ .exited) : w ∈ l := by
  rcases List.mem_or_eq_of_mem_set h with h | h
  · exact h
  · rw [h] at hpc
    exact absurd hpc hne

/-- The account of acknowledgements when one worker moves. -/
theorem PerTaskInv.acks_set (hinv : PerTaskInv numTask s) {j acked : ℕ} {w w' : TaskWorker}
    {completed : List (String × ℕ)} (hj : s.workers[j]? = some w)
    (hcount : completed.length + s.acked + w.unacked =
      s.completed.length + acked + w'.unacked) :
    completed.length = acked + weight TaskWorker.unacked (s.workers.set j w') := by
  have hset := weight_set TaskWorker.unacked w' hj
  have hacks := hinv.acks
  omega

/-- `work <- task` meets a worker at the empty channel. -/
theorem PerTaskInv.handOver (hinv : PerTaskInv numTask s) {task j : ℕ} {srv : String}
    (hf : s.feed = .sending task) (ht : task < numTask) (hw : s.work = [])
    (hj : s.workers[j]? = some ⟨srv, .idle⟩) :
    PerTaskInv numTask ({ s with
      feed := .sending (task + 1)
      workers := s.workers.set j ⟨srv, .calling task⟩
      calls := s.calls ++ [(srv, task)] } : PerTask) := by
  refine ⟨?_, ht, ?_, ?_, hinv.returned, ?_, ?_, hinv.accepting⟩
  · have hold : s.calls.map Prod.snd = List.range task := by
      have := hinv.handed
      rw [hw, hf, List.append_nil] at this
      exact this
    show (s.calls ++ [(srv, task)]).map Prod.snd ++ s.work = List.range (task + 1)
    rw [hw, List.append_nil, List.map_append, hold, List.range_succ]
    rfl
  · exact hinv.log.enter hj rfl rfl
  · exact hinv.acks_set hj rfl
  · intro w hmem hpc
    have h := hinv.exited w (mem_set_worker hmem hpc (by simp)) hpc
    rw [hf] at h
    cases h.1
  · intro h
    exact absurd h (set_ne_nil _ hj)

/-- Main receives an acknowledgement. -/
theorem PerTaskInv.recvDone (hinv : PerTaskInv numTask s) {j : ℕ} {srv : String}
    (hj : s.workers[j]? = some ⟨srv, .acking⟩) :
    PerTaskInv numTask ({ s with
      acked := s.acked + 1
      workers := s.workers.set j ⟨srv, .idle⟩ } : PerTask) := by
  refine ⟨hinv.handed, hinv.next_le, ?_, ?_, ?_, ?_, ?_, hinv.accepting⟩
  · exact hinv.log.keep hj rfl
  · exact hinv.acks_set hj rfl
  · intro hret
    have := hinv.returned hret
    show numTask ≤ s.acked + 1
    omega
  · intro w hmem hpc
    exact hinv.exited w (mem_set_worker hmem hpc (by simp)) hpc
  · intro h
    exact absurd h (set_ne_nil _ hj)

/-- A worker takes the first task of the buffer. -/
theorem PerTaskInv.take (hinv : PerTaskInv numTask s) {j task : ℕ} {srv : String}
    {rest : List ℕ} (hj : s.workers[j]? = some ⟨srv, .idle⟩) (hw : s.work = task :: rest) :
    PerTaskInv numTask ({ s with
      work := rest
      workers := s.workers.set j ⟨srv, .calling task⟩
      calls := s.calls ++ [(srv, task)] } : PerTask) := by
  refine ⟨?_, hinv.next_le, ?_, ?_, hinv.returned, ?_, ?_, hinv.accepting⟩
  · have hold := hinv.handed
    rw [hw] at hold
    show (s.calls ++ [(srv, task)]).map Prod.snd ++ rest = _
    rw [List.map_append, List.append_assoc]
    exact hold
  · exact hinv.log.enter hj rfl rfl
  · exact hinv.acks_set hj rfl
  · intro w hmem hpc
    -- nobody has left while a task is in the buffer
    have h := hinv.exited w (mem_set_worker hmem hpc (by simp)) hpc
    rw [hw] at h
    cases h.2
  · intro h
    exact absurd h (set_ne_nil _ hj)

/-- A call returns. -/
theorem PerTaskInv.callReturn (hinv : PerTaskInv numTask s) {j task : ℕ} {srv : String}
    (hj : s.workers[j]? = some ⟨srv, .calling task⟩) :
    PerTaskInv numTask ({ s with
      workers := s.workers.set j ⟨srv, .acking⟩
      completed := s.completed ++ [(srv, task)] } : PerTask) := by
  refine ⟨hinv.handed, hinv.next_le, ?_, ?_, hinv.returned, ?_, ?_, hinv.accepting⟩
  · exact hinv.log.leave hj rfl rfl
  · refine hinv.acks_set hj ?_
    simp only [TaskWorker.unacked, List.length_append, List.length_singleton]
    omega
  · intro w hmem hpc
    exact hinv.exited w (mem_set_worker hmem hpc (by simp)) hpc
  · intro h
    exact absurd h (set_ne_nil _ hj)

/-- A worker leaves its range loop. -/
theorem PerTaskInv.workEnd (hinv : PerTaskInv numTask s) {j : ℕ} {srv : String}
    (hj : s.workers[j]? = some ⟨srv, .idle⟩) (hw : s.work = []) (hf : s.feed = .closed) :
    PerTaskInv numTask ({ s with workers := s.workers.set j ⟨srv, .exited⟩ } : PerTask) := by
  refine ⟨hinv.handed, hinv.next_le, ?_, ?_, hinv.returned, ?_, ?_, hinv.accepting⟩
  · exact hinv.log.keep hj rfl
  · exact hinv.acks_set hj rfl
  · intro w _ _
    exact ⟨hf, hw⟩
  · intro h
    exact absurd h (set_ne_nil _ hj)

/-- **One step** keeps the invariant, with each of the cures. -/
theorem PerTaskInv.step {side : Side} (hinv : PerTaskInv numTask s)
    (hs : PerTaskStep cure numTask s side s') : PerTaskInv numTask s' := by
  cases hs with
  | handOver task j srv hf ht hw hj => exact hinv.handOver hf ht hw hj
  | enqueue task hf ht hroom =>
      have hold := hinv.handed
      rw [hf] at hold
      refine ⟨?_, ht, hinv.log, hinv.acks, hinv.returned, ?_, hinv.pending, hinv.accepting⟩
      · show s.calls.map Prod.snd ++ (s.work ++ [task]) = List.range (task + 1)
        rw [← List.append_assoc, hold, List.range_succ]
        rfl
      · intro w hmem hpc
        have h := hinv.exited w hmem hpc
        rw [hf] at h
        cases h.1
  | closeWork task hf ht =>
      have hnext : task = numTask := by
        have := hinv.next_le
        rw [hf] at this
        exact Nat.le_antisymm this ht
      refine ⟨?_, Nat.le_refl _, hinv.log, hinv.acks, hinv.returned, ?_, hinv.pending,
        hinv.accepting⟩
      · have hold := hinv.handed
        rw [hf, hnext] at hold
        exact hold
      · intro w hmem hpc
        have h := hinv.exited w hmem hpc
        rw [hf] at h
        cases h.1
  | selectDone task j srv hcure hf ht hj => exact hinv.recvDone hj
  | waitDone j srv hmain hret hi hj => exact hinv.recvDone hj
  | mainReturn hmain hret hi =>
      exact ⟨hinv.handed, hinv.next_le, hinv.log, hinv.acks, fun _ => hi, hinv.exited,
        hinv.pending, hinv.accepting⟩
  | take j task srv rest hj hw => exact hinv.take hj hw
  | workEnd j srv hj hw hf => exact hinv.workEnd hj hw hf
  | callReturn j task srv hj => exact hinv.callReturn hj
  | accept srv rest ha hs =>
      refine ⟨hinv.handed, hinv.next_le, hinv.log.spawn rfl, ?_, hinv.returned, ?_, ?_, ?_⟩
      · show s.completed.length = s.acked + weight TaskWorker.unacked (s.workers ++ [_])
        rw [weight_concat, hinv.acks]
        rfl
      · intro w hmem hpc
        rcases List.mem_append.mp hmem with h | h
        · exact hinv.exited w h hpc
        · rw [List.mem_singleton.mp h] at hpc
          cases hpc
      · intro h
        exact absurd h (by simp)
      · intro h
        rw [(hinv.accepting h).1] at hs
        cases hs
  | rangeEnd ha hs hclosed =>
      exact ⟨hinv.handed, hinv.next_le, hinv.log, hinv.acks, hinv.returned, hinv.exited,
        hinv.pending, fun _ => ⟨hs, hclosed⟩⟩
  | arrive srv hopen =>
      refine ⟨hinv.handed, hinv.next_le, hinv.log, hinv.acks, hinv.returned, hinv.exited, ?_, ?_⟩
      · intro h
        show s.servers ++ [srv] = s.sent ++ [srv]
        rw [hinv.pending h]
      · intro h
        rw [(hinv.accepting h).2] at hopen
        cases hopen
  | closeServers hopen =>
      exact ⟨hinv.handed, hinv.next_le, hinv.log, hinv.acks, hinv.returned, hinv.exited,
        hinv.pending, fun h => ⟨(hinv.accepting h).1, rfl⟩⟩

end Steps

theorem perTaskInv_reachable {cure : Cure} {numTask : ℕ} {s : PerTask}
    (h : (perTaskSchedule cure numTask).Reachable s) : PerTaskInv numTask s := by
  refine h.invariant ?_ ?_
  · rintro s rfl
    refine ⟨rfl, Nat.zero_le _, List.Perm.refl _, rfl, ?_, ?_, fun _ => rfl, ?_⟩
    · intro h
      cases h
    · intro w hmem
      cases hmem
    · intro h
      cases h
  · rintro s s' _ hinv ⟨side, hs⟩
    exact hinv.step hs

/-! ## §4. The return, and progress. -/

/-- **At the return** every task was called once, and every call has returned. -/
theorem PerTaskInv.at_return {numTask : ℕ} {s : PerTask} (hinv : PerTaskInv numTask s)
    (hret : s.returned = true) :
    s.calls.map Prod.snd = List.range numTask ∧ s.completed ~ s.calls := by
  have hacked := hinv.returned hret
  have hacks := hinv.acks
  have hlog := hinv.log.length_eq
  have hnext := hinv.next_le
  have hlen : s.calls.length + s.work.length = s.feed.next numTask := by
    have := congrArg List.length hinv.handed
    rw [List.length_append, List.length_map, List.length_range] at this
    exact this
  -- `numTask` acknowledgements leave nothing queued and nothing under way
  have hwork : s.work = [] := List.length_eq_zero_iff.mp (by omega)
  have hrun : s.workers.filterMap TaskWorker.running = [] :=
    List.length_eq_zero_iff.mp (by omega)
  constructor
  · have hall : s.feed.next numTask = numTask := by omega
    have hhanded := hinv.handed
    rw [hwork, List.append_nil, hall] at hhanded
    exact hhanded
  · exact hinv.log.all_completed (List.filterMap_eq_nil_iff.mp hrun)

/-- A task that is about to be fed finds room in the buffer of V8. -/
theorem PerTaskInv.room {numTask task : ℕ} {s : PerTask} (hinv : PerTaskInv numTask s)
    (hf : s.feed = .sending task) (ht : task < numTask) : s.work.length < numTask := by
  have := congrArg List.length hinv.handed
  rw [List.length_append, List.length_map, List.length_range, hf] at this
  simp only [FeedPc.next] at this
  omega

/-- Main or its feeder can move as long as there are tasks to feed, unless it waits for a
worker at the unbuffered channel. -/
theorem PerTaskInv.feed_step {numTask task : ℕ} {s : PerTask}
    (hinv : PerTaskInv numTask s) (cure : Cure) (hf : s.feed = .sending task) :
    (∃ s', PerTaskStep cure numTask s .tasks s') ∨ (task < numTask ∧ cure ≠ .buffer) := by
  rcases Nat.lt_or_ge task numTask with ht | ht
  · cases cure with
    | select => exact Or.inr ⟨ht, by simp⟩
    | feeder => exact Or.inr ⟨ht, by simp⟩
    | buffer => exact Or.inl ⟨_, .enqueue task hf ht (hinv.room hf ht)⟩
  · exact Or.inl ⟨_, .closeWork task hf ht⟩

/-- A worker that waits at `done <- true` is served, or main has something better to do. -/
theorem PerTaskInv.ack_step {cure : Cure} {numTask j : ℕ} {srv : String} {s : PerTask}
    (hinv : PerTaskInv numTask s) (hret : s.returned = false)
    (hj : s.workers[j]? = some ⟨srv, .acking⟩) : ∃ s', PerTaskStep cure numTask s .tasks s' := by
  by_cases hmain : cure.waiting s.feed = true
  · rcases Nat.lt_or_ge s.acked numTask with hi | hi
    · exact ⟨_, .waitDone j srv hmain hret hi hj⟩
    · exact ⟨_, .mainReturn hmain hret hi⟩
  · -- main still feeds tasks: V6 selects, V8 has room
    cases hf : s.feed with
    | closed =>
        rw [hf] at hmain
        cases cure <;> exact absurd rfl hmain
    | sending task =>
        rcases hinv.feed_step cure hf with h | ⟨ht, hcure⟩
        · exact h
        · cases cure with
          | select => exact ⟨_, .selectDone task j srv rfl hf ht hj⟩
          | feeder => exact absurd rfl hmain
          | buffer => exact absurd rfl hcure

/-- In V6 and V7 nothing is ever queued. -/
theorem perTask_unbuffered {cure : Cure} {numTask : ℕ} {s : PerTask} (hcure : cure ≠ .buffer)
    (h : (perTaskSchedule cure numTask).Reachable s) : s.work = [] := by
  refine h.invariant (I := fun s => s.work = []) ?_ ?_
  · rintro s rfl
    rfl
  · rintro s s' _ hw ⟨side, hs⟩
    cases hs with
    | enqueue task hf ht hroom =>
        cases cure with
        | select => exact absurd hroom (Nat.not_lt_zero _)
        | feeder => exact absurd hroom (Nat.not_lt_zero _)
        | buffer => exact absurd rfl hcure
    | take j task srv rest hj hw' =>
        rw [hw] at hw'
        cases hw'
    | _ => exact hw

/-- When every worker is idle or gone, the tasks go on or main returns. -/
theorem PerTaskInv.idle_step {cure : Cure} {numTask : ℕ} {s : PerTask} {w : TaskWorker}
    (hinv : PerTaskInv numTask s) (hunbuf : cure ≠ .buffer → s.work = [])
    (hret : s.returned = false) (h0 : s.workers[0]? = some w)
    (hidle : ∀ w ∈ s.workers, w.pc = .idle ∨ w.pc = .exited) :
    ∃ s', PerTaskStep cure numTask s .tasks s' := by
  obtain ⟨srv, pc⟩ := w
  have hpc : pc = .idle ∨ pc = .exited := hidle _ (List.mem_of_getElem? h0)
  cases hf : s.feed with
  | sending task =>
      rcases hinv.feed_step cure hf with h | ⟨ht, hcure⟩
      · exact h
      · rcases hpc with rfl | rfl
        · exact ⟨_, .handOver task 0 srv hf ht (hunbuf hcure) h0⟩
        · -- no worker has left before `work` is closed
          have h := (hinv.exited _ (List.mem_of_getElem? h0) rfl).1
          rw [hf] at h
          cases h
  | closed =>
      cases hw : s.work with
      | cons task rest =>
          rcases hpc with rfl | rfl
          · exact ⟨_, .take 0 task srv rest h0 hw⟩
          · have h := (hinv.exited _ (List.mem_of_getElem? h0) rfl).2
            rw [hw] at h
            cases h
      | nil =>
          -- everything was fed, called, finished and acknowledged
          have hmain : cure.waiting s.feed = true := by
            rw [hf]
            cases cure <;> rfl
          have hrun : s.workers.filterMap TaskWorker.running = [] := by
            apply List.filterMap_eq_nil_iff.mpr
            intro w hmem
            unfold TaskWorker.running
            rcases hidle w hmem with h | h <;> rw [h]
          have hunacked : weight TaskWorker.unacked s.workers = 0 := by
            by_contra hne
            obtain ⟨j, w, hj, hpos⟩ := exists_of_weight_pos _ (Nat.pos_of_ne_zero hne)
            unfold TaskWorker.unacked at hpos
            rcases hidle w (List.mem_of_getElem? hj) with h | h <;> rw [h] at hpos <;> cases hpos
          have hlen := congrArg List.length hinv.handed
          rw [hw, hf, List.append_nil, List.length_map, List.length_range] at hlen
          have hlog := hinv.log.length_eq
          rw [hrun, List.length_nil] at hlog
          have hacks := hinv.acks
          rw [hunacked] at hacks
          have hnext : FeedPc.closed.next numTask = numTask := rfl
          exact ⟨_, .mainReturn hmain hret (by omega)⟩

/-- **Progress**: before the return main, its feeder or a worker can move, or no worker is
started yet and the acceptor can take a name. -/
theorem PerTaskInv.progress {cure : Cure} {numTask : ℕ} {s : PerTask}
    (hinv : PerTaskInv numTask s) (hunbuf : cure ≠ .buffer → s.work = [])
    (hret : s.returned = false) (hsent : s.sent ≠ []) :
    (∃ s', PerTaskStep cure numTask s .tasks s') ∨
      (s.workers = [] ∧ ∃ s', PerTaskStep cure numTask s .acceptor s') := by
  cases hworkers : s.workers with
  | nil =>
      right
      obtain ⟨srv, rest, hs⟩ := List.exists_cons_of_ne_nil hsent
      have hservers : s.servers = srv :: rest := (hinv.pending hworkers).trans hs
      have ha : s.accepting = true := by
        cases ha : s.accepting with
        | true => rfl
        | false =>
            rw [(hinv.accepting ha).1] at hservers
            cases hservers
      exact ⟨rfl, _, .accept srv rest ha hservers⟩
  | cons w ws =>
      left
      have h0 : s.workers[0]? = some w := by
        rw [hworkers]
        rfl
      by_cases hidle : ∀ w ∈ s.workers, w.pc = .idle ∨ w.pc = .exited
      · exact hinv.idle_step hunbuf hret h0 hidle
      · -- a worker is inside of a call, or waits for main
        simp only [not_forall] at hidle
        obtain ⟨⟨srv, pc⟩, hmem, hbusy⟩ := hidle
        obtain ⟨j, hj⟩ := List.getElem?_of_mem hmem
        cases pc with
        | idle => exact absurd (Or.inl rfl) hbusy
        | exited => exact absurd (Or.inr rfl) hbusy
        | calling task => exact ⟨_, .callReturn j task srv hj⟩
        | acking => exact hinv.ack_step hret hj

/-- **The three cures work**: in every reachable state of `ScheduleFixedV6`, `V7` and `V8`,
  • at the return each of the tasks 0 … numTask-1 was called exactly once and every call has
    returned;
  • before the return, once a name was sent on `servers`, main, its feeder or a worker can
    move, or there is no worker yet and the acceptor can take a name. -/
theorem perTaskSchedule_exactly_once (cure : Cure) (numTask : ℕ) (s : PerTask)
    (h : (perTaskSchedule cure numTask).Reachable s) :
    (s.returned = true → s.calls.map Prod.snd ~ List.range numTask ∧ s.completed ~ s.calls) ∧
    (s.sent ≠ [] → s.returned = false →
      (∃ s', PerTaskStep cure numTask s .tasks s') ∨
        (s.workers = [] ∧ ∃ s', PerTaskStep cure numTask s .acceptor s')) := by
  have hinv := perTaskInv_reachable h
  constructor
  · intro hret
    obtain ⟨hcalls, hdone⟩ := hinv.at_return hret
    rw [hcalls]
    exact ⟨List.Perm.refl _, hdone⟩
  · intro hsent hret
    exact hinv.progress (fun hcure => perTask_unbuffered hcure h) hret hsent

/-- One server and two tasks under V6: main takes the acknowledgement of the first task while
it waits to feed the second. -/
theorem perTaskSchedule_selectDone :
    ∃ s, (scheduleFixedV6 2).Reachable s ∧ s.returned = true ∧
      s.calls = [("a", 0), ("a", 1)] ∧ s.completed ~ s.calls := by
  have h0 : (scheduleFixedV6 2).Reachable _ := System.Reachable.of_init rfl
  have h1 := (h0.tail ⟨_, .arrive "a" rfl⟩).tail ⟨_, .accept "a" [] rfl rfl⟩
  have h2 := (h1.tail ⟨_, .handOver 0 0 "a" rfl (by decide) rfl rfl⟩).tail
    ⟨_, .callReturn 0 0 "a" rfl⟩
  have h3 := h2.tail ⟨_, .selectDone 1 0 "a" rfl rfl (by decide) rfl⟩
  have h4 := (h3.tail ⟨_, .handOver 1 0 "a" rfl (by decide) rfl rfl⟩).tail
    ⟨_, .callReturn 0 1 "a" rfl⟩
  have h5 := (h4.tail ⟨_, .closeWork 2 rfl (by decide)⟩).tail
    ⟨_, .waitDone 0 "a" rfl rfl (by decide) rfl⟩
  have h6 := h5.tail ⟨_, .mainReturn rfl rfl (by decide)⟩
  exact ⟨_, h6, rfl, rfl, ((perTaskSchedule_exactly_once .select 2 _ h6).1 rfl).2⟩

end ComputerScience.Scheduler
