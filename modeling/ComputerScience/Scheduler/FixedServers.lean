/-
  ComputerScience.Scheduler.FixedServers
  ──────────────────────────────────────
  **THE SCHEDULERS FOR A FIXED LIST OF SERVERS**: `ScheduleFixedV3`, and the result for
  `ScheduleFixedV2` and `ScheduleFixedV3` together (`02_work_scheduler/work_scheduler.go`).

  V3 starts one worker per server; the workers take tasks from the unbuffered channel `work`
  until main closes it, and signal `done` once.  Main waits for one signal per worker: when
  it has them all, no worker is inside of a call.

  `PoolInv` is the account of such workers; `ScheduleFixedV4` has the same ones.
-/
import ComputerScience.Scheduler.IdleNames
import ComputerScience.Scheduler.PerTaskDone

namespace ComputerScience.Scheduler

open ComputerScience.Lib
open scoped List

/-! ## §1. Workers with one `done` each. -/

/-- Where a worker (`runTasks`) is. -/
inductive DonePc where
  /-- at `for task := range work` -/
  | idle
  /-- inside `call(srv, task)` -/
  | calling (task : ℕ)
  /-- before `done <- true` -/
  | signalling
  | exited
  deriving DecidableEq, Repr

structure DoneWorker where
  srv : String
  pc : DonePc
  deriving DecidableEq, Repr

/-- The call the worker is inside of. -/
def DoneWorker.running (w : DoneWorker) : Option (String × ℕ) :=
  match w.pc with
  | .calling task => some (w.srv, task)
  | _ => none

/-- The account of the workers: the tasks are handed out in order, and a worker leaves its
range loop only after `close(work)`. -/
structure PoolInv (numTask : ℕ) (feed : FeedPc) (workers : List DoneWorker)
    (calls completed : List (String × ℕ)) : Prop where
  handed : calls.map Prod.snd = List.range (feed.next numTask)
  next_le : feed.next numTask ≤ numTask
  log : Balanced DoneWorker.running workers calls completed
  ended : ∀ w ∈ workers, w.pc = .signalling ∨ w.pc = .exited → feed = .closed

section Pool

variable {numTask : ℕ} {feed : FeedPc} {workers : List DoneWorker}
  {calls completed : List (String × ℕ)}

/-- A worker that moves to a place inside of its range loop. -/
theorem PoolInv.ended_set (h : PoolInv numTask feed workers calls completed) {j : ℕ}
    (w' : DoneWorker) (hpc : w'.pc = .signalling ∨ w'.pc = .exited → feed = .closed) :
    ∀ w ∈ workers.set j w', w.pc = .signalling ∨ w.pc = .exited → feed = .closed := by
  intro w hmem hw
  rcases List.mem_or_eq_of_mem_set hmem with hmem | rfl
  · exact h.ended w hmem hw
  · exact hpc hw

/-- `go runTasks(srv)` -/
theorem PoolInv.start (h : PoolInv numTask feed workers calls completed) (srv : String) :
    PoolInv numTask feed (workers ++ [⟨srv, .idle⟩]) calls completed := by
  refine ⟨h.handed, h.next_le, h.log.spawn rfl, ?_⟩
  intro w hmem hw
  rcases List.mem_append.mp hmem with hmem | hmem
  · exact h.ended w hmem hw
  · rw [List.mem_singleton.mp hmem] at hw
    rcases hw with hw | hw <;> cases hw

/-- `work <- task` meets a worker at its range loop. -/
theorem PoolInv.handOver (h : PoolInv numTask feed workers calls completed) {task j : ℕ}
    {srv : String} (hf : feed = .sending task) (ht : task < numTask)
    (hj : workers[j]? = some ⟨srv, .idle⟩) :
    PoolInv numTask (.sending (task + 1)) (workers.set j ⟨srv, .calling task⟩)
      (calls ++ [(srv, task)]) completed := by
  subst hf
  refine ⟨?_, ht, h.log.enter hj rfl rfl, ?_⟩
  · rw [List.map_append, h.handed]
    exact List.range_succ.symm
  · intro w hmem hw
    have hclosed := h.ended_set ⟨srv, .calling task⟩
      (fun hpc => by rcases hpc with hpc | hpc <;> cases hpc) w hmem hw
    cases hclosed

/-- `close(work)` -/
theorem PoolInv.close (h : PoolInv numTask feed workers calls completed) {task : ℕ}
    (hf : feed = .sending task) (ht : numTask ≤ task) :
    PoolInv numTask .closed workers calls completed := by
  subst hf
  have hnext : task = numTask := Nat.le_antisymm h.next_le ht
  refine ⟨?_, Nat.le_refl _, h.log, fun _ _ _ => rfl⟩
  rw [h.handed, hnext]
  rfl

/-- A call returns. -/
theorem PoolInv.callReturn (h : PoolInv numTask feed workers calls completed) {j task : ℕ}
    {srv : String} (hj : workers[j]? = some ⟨srv, .calling task⟩) :
    PoolInv numTask feed (workers.set j ⟨srv, .idle⟩) calls (completed ++ [(srv, task)]) :=
  ⟨h.handed, h.next_le, h.log.leave hj rfl rfl,
    h.ended_set ⟨srv, .idle⟩ (fun hpc => by rcases hpc with hpc | hpc <;> cases hpc)⟩

/-- The range loop of a worker ends, or its signal is received. -/
theorem PoolInv.leave (h : PoolInv numTask feed workers calls completed) (hf : feed = .closed)
    {j : ℕ} {w w' : DoneWorker} (hj : workers[j]? = some w) (hrun : w'.running = w.running) :
    PoolInv numTask feed (workers.set j w') calls completed :=
  ⟨h.handed, h.next_le, h.log.keep hj hrun, fun _ _ _ => hf⟩

/-- **After `close(work)`, with no worker inside of a call**, every task was called once and
every call has returned. -/
theorem PoolInv.all_done (h : PoolInv numTask .closed workers calls completed)
    (hidle : ∀ w ∈ workers, w.running = none) :
    calls.map Prod.snd ~ List.range numTask ∧ completed ~ calls := by
  refine ⟨?_, h.log.all_completed hidle⟩
  rw [h.handed]
  exact List.Perm.refl _

end Pool

/-! ## §2. `ScheduleFixedV3`. -/

/-- Where main is. -/
inductive FixedMain where
  /-- `for _, srv := range servers { go runTasks(srv) }` -/
  | starting (k : ℕ)
  /-- `for task := 0; task < numTask; task++ { work <- task }`, then `close(work)` -/
  | feeding
  /-- `for i := 0; i < len(servers); i++ { <-done }` -/
  | collecting (i : ℕ)
  | returned
  deriving DecidableEq, Repr

structure FixedServers where
  main : FixedMain
  feed : FeedPc
  workers : List DoneWorker
  /-- The invocations `call(srv, task)` so far. -/
  calls : List (String × ℕ)
  /-- The invocations that have returned. -/
  completed : List (String × ℕ)

/-- One step. -/
inductive FixedStep (servers : List String) (numTask : ℕ) (s : FixedServers) :
    FixedServers → Prop where
  | start (k : ℕ) (srv : String) (hm : s.main = .starting k) (hk : servers[k]? = some srv) :
      FixedStep servers numTask s { s with
        main := .starting (k + 1)
        workers := s.workers ++ [⟨srv, .idle⟩] }
  | started (k : ℕ) (hm : s.main = .starting k) (hk : servers.length ≤ k) :
      FixedStep servers numTask s { s with main := .feeding }
  | handOver (task j : ℕ) (srv : String) (hm : s.main = .feeding) (hf : s.feed = .sending task)
      (ht : task < numTask) (hj : s.workers[j]? = some ⟨srv, .idle⟩) :
      FixedStep servers numTask s { s with
        feed := .sending (task + 1)
        workers := s.workers.set j ⟨srv, .calling task⟩
        calls := s.calls ++ [(srv, task)] }
  | closeWork (task : ℕ) (hm : s.main = .feeding) (hf : s.feed = .sending task)
      (ht : numTask ≤ task) :
      FixedStep servers numTask s { s with main := .collecting 0, feed := .closed }
  | recvDone (i j : ℕ) (srv : String) (hm : s.main = .collecting i) (hi : i < servers.length)
      (hj : s.workers[j]? = some ⟨srv, .signalling⟩) :
      FixedStep servers numTask s { s with
        main := .collecting (i + 1)
        workers := s.workers.set j ⟨srv, .exited⟩ }
  | mainReturn (i : ℕ) (hm : s.main = .collecting i) (hi : servers.length ≤ i) :
      FixedStep servers numTask s { s with main := .returned }
  | callReturn (j task : ℕ) (srv : String) (hj : s.workers[j]? = some ⟨srv, .calling task⟩) :
      FixedStep servers numTask s { s with
        workers := s.workers.set j ⟨srv, .idle⟩
        completed := s.completed ++ [(srv, task)] }
  | workEnd (j : ℕ) (srv : String) (hj : s.workers[j]? = some ⟨srv, .idle⟩)
      (hf : s.feed = .closed) :
      FixedStep servers numTask s { s with workers := s.workers.set j ⟨srv, .signalling⟩ }

/-- `ScheduleFixedV3` -/
def scheduleFixedV3 (servers : List String) (numTask : ℕ) : System FixedServers where
  init s := s = ⟨.starting 0, .sending 0, [], [], []⟩
  step := FixedStep servers numTask

/-- The worker's signal was received. -/
def DoneWorker.gone (w : DoneWorker) : ℕ :=
  match w.pc with
  | .exited => 1
  | _ => 0

/-- The servers that have their worker. -/
def FixedMain.startedNames (servers : List String) : FixedMain → List String
  | .starting k => servers.take k
  | _ => servers

/-- How many signals main has received. -/
def FixedMain.collected (n : ℕ) : FixedMain → ℕ
  | .starting _ | .feeding => 0
  | .collecting i => i
  | .returned => n

/-- Main has closed `work`. -/
def FixedMain.closed : FixedMain → Bool
  | .starting _ | .feeding => false
  | .collecting _ | .returned => true

structure FixedInv (servers : List String) (numTask : ℕ) (s : FixedServers) : Prop where
  pool : PoolInv numTask s.feed s.workers s.calls s.completed
  names : s.workers.map DoneWorker.srv = s.main.startedNames servers
  gone : weight DoneWorker.gone s.workers = s.main.collected servers.length
  closed : s.main.closed = true ↔ s.feed = .closed

section Steps

variable {servers : List String} {numTask : ℕ} {s s' : FixedServers}

/-- A worker that keeps its server moves; `hcollected` says whether main has its signal. -/
theorem FixedInv.workerStep (hinv : FixedInv servers numTask s) {j : ℕ} {w w' : DoneWorker}
    (hj : s.workers[j]? = some w) (hworkers : s'.workers = s.workers.set j w')
    (hsrv : w'.srv = w.srv) (hpool : PoolInv numTask s'.feed s'.workers s'.calls s'.completed)
    (hstarted : s'.main.startedNames servers = s.main.startedNames servers)
    (hcollected : s'.main.collected servers.length + w.gone =
      s.main.collected servers.length + w'.gone)
    (hclosed : s'.main.closed = true ↔ s'.feed = .closed) : FixedInv servers numTask s' := by
  refine ⟨hpool, ?_, ?_, hclosed⟩
  · rw [hworkers, map_set_eq hj hsrv, hstarted]
    exact hinv.names
  · have hset := weight_set DoneWorker.gone w' hj
    have hgone := hinv.gone
    rw [hworkers]
    omega

theorem DoneWorker.gone_le (w : DoneWorker) : w.gone ≤ 1 := by
  unfold DoneWorker.gone
  cases w.pc with
  | exited => exact Nat.le_refl 1
  | _ => exact Nat.zero_le 1

/-- **One step** keeps the invariant. -/
theorem FixedInv.step (hinv : FixedInv servers numTask s) (hs : FixedStep servers numTask s s') :
    FixedInv servers numTask s' := by
  cases hs with
  | start k srv hm hk =>
      obtain ⟨hlt, hget⟩ := List.getElem?_eq_some_iff.mp hk
      have hnames := hinv.names
      have hgone := hinv.gone
      have hclosed := hinv.closed
      rw [hm] at hnames hgone hclosed
      refine ⟨hinv.pool.start srv, ?_, ?_, hclosed⟩
      · show (s.workers ++ [_]).map DoneWorker.srv = servers.take (k + 1)
        rw [List.map_append, hnames, List.take_succ_eq_append_getElem hlt, hget]
        rfl
      · show weight DoneWorker.gone (s.workers ++ [_]) = 0
        rw [weight_concat, hgone]
        rfl
  | started k hm hk =>
      have hnames := hinv.names
      have hgone := hinv.gone
      have hclosed := hinv.closed
      rw [hm] at hnames hgone hclosed
      refine ⟨hinv.pool, ?_, hgone, hclosed⟩
      rw [hnames]
      exact List.take_of_length_le hk
  | handOver task j srv hm hf ht hj =>
      refine hinv.workerStep hj rfl rfl (hinv.pool.handOver hf ht hj) rfl rfl ?_
      rw [hm]
      simp [FixedMain.closed]
  | closeWork task hm hf ht =>
      have hnames := hinv.names
      have hgone := hinv.gone
      rw [hm] at hnames hgone
      exact ⟨hinv.pool.close hf ht, hnames, hgone, by simp [FixedMain.closed]⟩
  | recvDone i j srv hm hi hj =>
      have hfeed : s.feed = .closed := hinv.closed.mp (by rw [hm]; rfl)
      refine hinv.workerStep hj rfl rfl (hinv.pool.leave hfeed hj rfl) ?_ ?_ ?_
      · rw [hm]
        rfl
      · rw [hm]
        rfl
      · simp [FixedMain.closed, hfeed]
  | mainReturn i hm hi =>
      have hfeed : s.feed = .closed := hinv.closed.mp (by rw [hm]; rfl)
      have hnames := hinv.names
      have hgone := hinv.gone
      rw [hm] at hnames hgone
      refine ⟨hinv.pool, hnames, ?_, by simp [FixedMain.closed, hfeed]⟩
      -- there are not more signals than workers
      have hle := weight_le_length DoneWorker.gone_le s.workers
      have hlen : s.workers.length = servers.length := by
        rw [← List.length_map DoneWorker.srv, hnames]
        rfl
      simp only [FixedMain.collected] at hgone
      show weight DoneWorker.gone s.workers = servers.length
      omega
  | callReturn j task srv hj =>
      exact hinv.workerStep hj rfl rfl (hinv.pool.callReturn hj) rfl rfl hinv.closed
  | workEnd j srv hj hf =>
      exact hinv.workerStep hj rfl rfl (hinv.pool.leave hf hj rfl) rfl rfl hinv.closed

theorem fixedInv_reachable (h : (scheduleFixedV3 servers numTask).Reachable s) :
    FixedInv servers numTask s := by
  refine h.invariant ?_ ?_
  · rintro s rfl
    refine ⟨⟨rfl, Nat.zero_le _, List.Perm.refl _, ?_⟩, rfl, rfl, ?_⟩
    · intro w hmem
      cases hmem
    · simp [FixedMain.closed]
  · intro s s' _ hinv hs
    exact hinv.step hs

/-- **No two calls run on the same server**: each server has one worker. -/
theorem FixedInv.exclusive (hinv : FixedInv servers numTask s) (hdistinct : servers.Nodup) :
    ((s.workers.filterMap DoneWorker.running).map Prod.fst).Nodup := by
  have hsub : (s.workers.filterMap DoneWorker.running).map Prod.fst <+
      s.workers.map DoneWorker.srv := by
    rw [List.map_filterMap, ← List.filterMap_eq_map']
    apply filterMap_sublist_filterMap
    intro w c hc
    unfold DoneWorker.running at hc
    cases hpc : w.pc with
    | calling task =>
        rw [hpc] at hc
        exact hc
    | _ =>
        rw [hpc] at hc
        cases hc
  have hstarted : (s.main.startedNames servers).Nodup := by
    cases s.main with
    | starting k => exact hdistinct.sublist (List.take_sublist k servers)
    | _ => exact hdistinct
  rw [← hinv.names] at hstarted
  exact hstarted.sublist hsub

/-- **At the return** every task was called once, and every call has returned. -/
theorem FixedInv.at_return (hinv : FixedInv servers numTask s) (hm : s.main = .returned) :
    s.calls.map Prod.snd ~ List.range numTask ∧ s.completed ~ s.calls := by
  have hfeed : s.feed = .closed := hinv.closed.mp (by rw [hm]; rfl)
  have hpool := hinv.pool
  have hnames := hinv.names
  have hgone := hinv.gone
  rw [hfeed] at hpool
  rw [hm] at hnames hgone
  have hlen : s.workers.length = servers.length := by
    rw [← List.length_map DoneWorker.srv, hnames]
    rfl
  -- as many signals as workers: all workers have left
  have hall := all_of_weight_eq_length DoneWorker.gone_le (hgone.trans hlen.symm)
  apply hpool.all_done
  intro w hmem
  have hw := hall w hmem
  unfold DoneWorker.gone at hw
  unfold DoneWorker.running
  cases hpc : w.pc with
  | calling task =>
      rw [hpc] at hw
      cases hw
  | _ => rfl

/-- **Progress**: with at least one server some goroutine can move before the return. -/
theorem FixedInv.progress (hinv : FixedInv servers numTask s) (hne : servers ≠ [])
    (hm : s.main ≠ .returned) : ∃ s', FixedStep servers numTask s s' := by
  cases hmain : s.main with
  | returned => exact absurd hmain hm
  | starting k =>
      rcases Nat.lt_or_ge k servers.length with hk | hk
      · exact ⟨_, .start k servers[k] hmain (List.getElem?_eq_getElem hk)⟩
      · exact ⟨_, .started k hmain hk⟩
  | feeding =>
      have hopen : s.feed ≠ .closed := by
        intro hfeed
        have := hinv.closed.mpr hfeed
        rw [hmain] at this
        cases this
      cases hf : s.feed with
      | closed => exact absurd hf hopen
      | sending task =>
          rcases Nat.lt_or_ge task numTask with ht | ht
          · -- the first worker takes the task, or is inside of a call
            have hnames := hinv.names
            rw [hmain] at hnames
            obtain ⟨⟨srv, pc⟩, h0⟩ : ∃ w, s.workers[0]? = some w := by
              cases hw : s.workers with
              | nil =>
                  rw [hw] at hnames
                  exact absurd hnames.symm hne
              | cons w ws => exact ⟨w, rfl⟩
            have hended := hinv.pool.ended _ (List.mem_of_getElem? h0)
            cases pc with
            | idle => exact ⟨_, .handOver task 0 srv hmain hf ht h0⟩
            | calling t => exact ⟨_, .callReturn 0 t srv h0⟩
            | signalling => exact absurd (hended (Or.inl rfl)) hopen
            | exited => exact absurd (hended (Or.inr rfl)) hopen
          · exact ⟨_, .closeWork task hmain hf ht⟩
  | collecting i =>
      have hfeed : s.feed = .closed := hinv.closed.mp (by rw [hmain]; rfl)
      rcases Nat.lt_or_ge i servers.length with hi | hi
      · -- fewer signals than workers: one of them has not left
        have hnames := hinv.names
        have hgone := hinv.gone
        rw [hmain] at hnames hgone
        have hlen : s.workers.length = servers.length := by
          rw [← List.length_map DoneWorker.srv, hnames]
          rfl
        simp only [FixedMain.collected] at hgone
        obtain ⟨⟨srv, pc⟩, hmem, hpc⟩ : ∃ w ∈ s.workers, w.pc ≠ .exited := by
          by_contra hnone
          simp only [not_exists, not_and, not_not] at hnone
          have hwt : weight DoneWorker.gone s.workers = s.workers.length := by
            unfold weight
            rw [List.map_congr_left (g := fun _ => 1)
              (fun w hw => by unfold DoneWorker.gone; rw [hnone w hw])]
            rw [List.map_const', List.sum_replicate_nat, Nat.mul_one]
          omega
        obtain ⟨j, hj⟩ := List.getElem?_of_mem hmem
        cases pc with
        | idle => exact ⟨_, .workEnd j srv hj hfeed⟩
        | calling t => exact ⟨_, .callReturn j t srv hj⟩
        | signalling => exact ⟨_, .recvDone i j srv hmain hi hj⟩
        | exited => exact absurd rfl hpc
      · exact ⟨_, .mainReturn i hmain hi⟩

end Steps

/-! ## §3. Both schedulers for a fixed list of servers. -/

/-- **`ScheduleFixedV2` and `ScheduleFixedV3`**, for pairwise distinct servers, in every
reachable state:
  • no two calls run on the same server;
  • at the return each of the tasks 0 … numTask-1 was called exactly once and every call has
    returned;
  • with at least one server some goroutine can move before the return. -/
theorem fixedServers_exactly_once (servers : List String) (hdistinct : servers.Nodup)
    (numTask : ℕ) :
    (∀ s, (scheduleFixedV2 servers numTask).Reachable s →
      ((s.gos.filterMap TaskGo.running).map Prod.fst).Nodup ∧
      (s.main = .returned →
        s.calls.map Prod.snd ~ List.range numTask ∧ s.completed ~ s.calls) ∧
      (servers ≠ [] → s.main ≠ .returned → ∃ s', IdleStep servers numTask s s')) ∧
    (∀ s, (scheduleFixedV3 servers numTask).Reachable s →
      ((s.workers.filterMap DoneWorker.running).map Prod.fst).Nodup ∧
      (s.main = .returned →
        s.calls.map Prod.snd ~ List.range numTask ∧ s.completed ~ s.calls) ∧
      (servers ≠ [] → s.main ≠ .returned → ∃ s', FixedStep servers numTask s s')) := by
  constructor
  · intro s h
    have hinv := idleInv_reachable h
    exact ⟨hinv.exclusive hdistinct, hinv.at_return, hinv.progress⟩
  · intro s h
    have hinv := fixedInv_reachable h
    exact ⟨hinv.exclusive hdistinct, hinv.at_return, hinv.progress⟩

/-- Two servers under V3, one task: the run to the return. -/
theorem fixedServers_twoServers :
    ∃ s, (scheduleFixedV3 ["a", "b"] 1).Reachable s ∧ s.main = .returned ∧
      s.calls = [("b", 0)] ∧ s.completed ~ s.calls := by
  have h0 : (scheduleFixedV3 ["a", "b"] 1).Reachable _ := System.Reachable.of_init rfl
  have h1 := ((h0.tail (.start 0 "a" rfl rfl)).tail (.start 1 "b" rfl rfl)).tail
    (.started 2 rfl (by decide))
  have h2 := (h1.tail (.handOver 0 1 "b" rfl rfl (by decide) rfl)).tail
    (.closeWork 1 rfl rfl (by decide))
  have h3 := (h2.tail (.workEnd 0 "a" rfl rfl)).tail (.recvDone 0 0 "a" rfl (by decide) rfl)
  have h4 := ((h3.tail (.callReturn 1 0 "b" rfl)).tail (.workEnd 1 "b" rfl rfl)).tail
    (.recvDone 1 1 "b" rfl (by decide) rfl)
  have h5 := h4.tail (.mainReturn 2 rfl (by decide))
  exact ⟨_, h5, rfl, rfl,
    (((fixedServers_exactly_once ["a", "b"] (by decide) 1).2 _ h5).2.1 rfl).2⟩

end ComputerScience.Scheduler
