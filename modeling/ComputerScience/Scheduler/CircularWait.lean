/-
  ComputerScience.Scheduler.CircularWait
  ──────────────────────────────────────
  **THE SCHEDULER WITH THE CIRCULAR WAIT**: `ScheduleFixedV5`
  (`02_work_scheduler/work_scheduler.go`).

  Main sends all tasks on the unbuffered channel `work` before it receives from the unbuffered
  channel `done`, and a worker that has finished a task waits at `done <- true`.  So until
  main has closed `work` every worker takes one task at most: "if there are fewer servers
  than tasks there is a deadlock", says the comment behind the function.

  The names arrive over the channel `servers` in the order of `names`.

  Main results:
    • `CircularInv.step` — while main sends, the tasks sent are the workers that are busy,
    • `scheduleFixedV5_results` — with at least as many servers as tasks every run comes to an
      end with all tasks done, with fewer every run ends in the deadlock.
-/
import ComputerScience.Scheduler.PerTaskDone

namespace ComputerScience.Scheduler

open ComputerScience.Lib
open scoped List

/-! ## §1. Main, the workers, the acceptor. -/

inductive CircularMain where
  /-- at `work <- task` -/
  | sending (task : ℕ)
  /-- behind `close(work)`, `done` was received `i` times -/
  | waiting (i : ℕ)
  | returned
  deriving DecidableEq, Repr

structure Circular where
  main : CircularMain
  workers : List TaskWorker
  /-- The names that have not been received from `servers` yet. -/
  servers : List String
  /-- The invocations `call(srv, task)` so far. -/
  calls : List (String × ℕ)
  /-- The invocations that have returned. -/
  completed : List (String × ℕ)

/-- One step.  A send and a receive that meet at an unbuffered channel are one step. -/
inductive CircularStep (numTask : ℕ) (s : Circular) : Circular → Prop where
  | handOver (task j : ℕ) (srv : String) (hm : s.main = .sending task) (ht : task < numTask)
      (hj : s.workers[j]? = some ⟨srv, .idle⟩) :
      CircularStep numTask s { s with
        main := .sending (task + 1)
        workers := s.workers.set j ⟨srv, .calling task⟩
        calls := s.calls ++ [(srv, task)] }
  | closeWork (task : ℕ) (hm : s.main = .sending task) (ht : numTask ≤ task) :
      CircularStep numTask s { s with main := .waiting 0 }
  | recvDone (i j : ℕ) (srv : String) (hm : s.main = .waiting i) (hi : i < numTask)
      (hj : s.workers[j]? = some ⟨srv, .acking⟩) :
      CircularStep numTask s { s with
        main := .waiting (i + 1), workers := s.workers.set j ⟨srv, .idle⟩ }
  | mainReturn (i : ℕ) (hm : s.main = .waiting i) (hi : numTask ≤ i) :
      CircularStep numTask s { s with main := .returned }
  -- the workers
  | callReturn (j task : ℕ) (srv : String) (hj : s.workers[j]? = some ⟨srv, .calling task⟩) :
      CircularStep numTask s { s with
        workers := s.workers.set j ⟨srv, .acking⟩
        completed := s.completed ++ [(srv, task)] }
  /-- `work` is closed. -/
  | workEnd (j : ℕ) (srv : String) (hj : s.workers[j]? = some ⟨srv, .idle⟩)
      (hm : ∀ task, s.main ≠ .sending task) :
      CircularStep numTask s { s with workers := s.workers.set j ⟨srv, .exited⟩ }
  | accept (srv : String) (rest : List String) (hs : s.servers = srv :: rest) :
      CircularStep numTask s { s with
        servers := rest, workers := s.workers ++ [⟨srv, .idle⟩] }

/-- `ScheduleFixedV5` with these names on `servers`. -/
def scheduleFixedV5 (names : List String) (numTask : ℕ) : System Circular where
  init s := s = ⟨.sending 0, [], names, [], []⟩
  step := CircularStep numTask

/-! ## §2. Every run stops. -/

def TaskPc.rank : TaskPc → ℕ
  | .idle => 1
  | .calling _ => 4
  | .acking => 3
  | .exited => 0

def CircularMain.rank (numTask : ℕ) : CircularMain → ℕ
  | .sending task => 5 * (numTask - task) + 2
  | .waiting _ => 1
  | .returned => 0

/-- A bound on the steps that are left. -/
def Circular.left (numTask : ℕ) (s : Circular) : ℕ :=
  s.main.rank numTask + weight (fun w : TaskWorker => w.pc.rank) s.workers + 2 * s.servers.length

section Steps

variable {names : List String} {numTask : ℕ} {s s' : Circular}

theorem CircularStep.left_lt (h : CircularStep numTask s s') : s'.left numTask < s.left numTask := by
  cases h with
  | handOver task j srv hm ht hj =>
      have hset := weight_set (fun w : TaskWorker => w.pc.rank) ⟨srv, .calling task⟩ hj
      simp only [Circular.left, hm, CircularMain.rank, TaskPc.rank] at hset ⊢
      omega
  | closeWork task hm ht =>
      simp only [Circular.left, hm, CircularMain.rank]
      omega
  | recvDone i j srv hm hi hj =>
      have hset := weight_set (fun w : TaskWorker => w.pc.rank) ⟨srv, .idle⟩ hj
      simp only [Circular.left, hm, CircularMain.rank, TaskPc.rank] at hset ⊢
      omega
  | mainReturn i hm hi =>
      simp only [Circular.left, hm, CircularMain.rank]
      omega
  | callReturn j task srv hj =>
      have hset := weight_set (fun w : TaskWorker => w.pc.rank) ⟨srv, .acking⟩ hj
      simp only [Circular.left, TaskPc.rank] at hset ⊢
      omega
  | workEnd j srv hj hm =>
      have hset := weight_set (fun w : TaskWorker => w.pc.rank) ⟨srv, .exited⟩ hj
      simp only [Circular.left, TaskPc.rank] at hset ⊢
      omega
  | accept srv rest hs =>
      simp only [Circular.left, weight_concat, hs, List.length_cons, TaskPc.rank]
      omega

/-! ## §3. Who is busy. -/

/-- The worker has a task that main has not heard of. -/
def TaskWorker.busy (w : TaskWorker) : ℕ :=
  match w.pc with
  | .calling _ | .acking => 1
  | .idle | .exited => 0

/-- How many tasks were sent. -/
def CircularMain.fed (numTask : ℕ) : CircularMain → ℕ
  | .sending task => task
  | .waiting _ | .returned => numTask

/-- While main sends it hears of no task, so each task sent keeps a worker busy. -/
def Circular.Counted (names : List String) (numTask : ℕ) (s : Circular) : Prop :=
  match s.main with
  | .sending task => task ≤ numTask ∧ weight TaskWorker.busy s.workers = task ∧
      ∀ w ∈ s.workers, w.pc ≠ .exited
  | .waiting i => i + weight TaskWorker.busy s.workers = numTask ∧ numTask ≤ names.length
  | .returned => weight TaskWorker.busy s.workers = 0 ∧ numTask ≤ names.length

/-- The name of a worker that has a task. -/
def TaskWorker.served (w : TaskWorker) : Option String :=
  match w.pc with
  | .calling _ | .acking => some w.srv
  | .idle | .exited => none

structure CircularInv (names : List String) (numTask : ℕ) (s : Circular) : Prop where
  arrived : s.workers.map TaskWorker.srv ++ s.servers = names
  log : Balanced TaskWorker.running s.workers s.calls s.completed
  /-- The tasks are handed out in order, each once. -/
  handed : s.calls.map Prod.snd = List.range (s.main.fed numTask)
  counted : s.Counted names numTask
  /-- While main sends, the busy workers have one task each. -/
  each : ∀ task, s.main = .sending task →
    s.calls.map Prod.fst ~ s.workers.filterMap TaskWorker.served

theorem map_srv_set {workers : List TaskWorker} {j : ℕ} {srv : String} {pc : TaskPc}
    (hj : workers[j]? = some ⟨srv, pc⟩) (pc' : TaskPc) :
    (workers.set j ⟨srv, pc'⟩).map TaskWorker.srv = workers.map TaskWorker.srv := by
  obtain ⟨hlt, hget⟩ := List.getElem?_eq_some_iff.mp hj
  have hlen : j < (workers.map TaskWorker.srv).length := by rwa [List.length_map]
  have hsrv : (workers.map TaskWorker.srv)[j] = srv := by rw [List.getElem_map, hget]
  rw [List.map_set]
  calc (workers.map TaskWorker.srv).set j srv
      = (workers.map TaskWorker.srv).set j (workers.map TaskWorker.srv)[j] := by rw [hsrv]
    _ = workers.map TaskWorker.srv := List.set_getElem_self hlen

/-- No more workers than names. -/
theorem CircularInv.length_le (h : CircularInv names numTask s) :
    s.workers.length + s.servers.length = names.length := by
  rw [← h.arrived, List.length_append, List.length_map]

theorem CircularInv.handOver (h : CircularInv names numTask s) {task j : ℕ} {srv : String}
    (hm : s.main = .sending task) (ht : task < numTask)
    (hj : s.workers[j]? = some ⟨srv, .idle⟩) :
    CircularInv names numTask { s with
      main := .sending (task + 1)
      workers := s.workers.set j ⟨srv, .calling task⟩
      calls := s.calls ++ [(srv, task)] } where
  arrived := by
    simp only [map_srv_set hj]
    exact h.arrived
  log := h.log.enter hj rfl rfl
  handed := by
    have hold := h.handed
    rw [hm] at hold
    simp only [List.map_append, hold]
    exact List.range_succ.symm
  counted := by
    have hset := weight_set TaskWorker.busy ⟨srv, .calling task⟩ hj
    have hold := h.counted
    simp only [Circular.Counted, hm] at hold
    simp only [TaskWorker.busy] at hset
    refine ⟨ht, by simp only; omega, fun w hw => ?_⟩
    rcases List.mem_or_eq_of_mem_set hw with hw | rfl
    · exact hold.2.2 w hw
    · exact nofun
  each := by
    intro _ _
    have hnew := filterMap_set_perm (f := TaskWorker.served) (y := ⟨srv, .calling task⟩) hj rfl rfl
    simp only [List.map_append, List.map_cons, List.map_nil]
    exact (((h.each task hm).append_right [srv]).trans List.perm_append_comm).trans hnew.symm

/-- **`close(work)`**: by now there are as many workers as tasks. -/
theorem CircularInv.closeWork (h : CircularInv names numTask s) {task : ℕ}
    (hm : s.main = .sending task) (ht : numTask ≤ task) :
    CircularInv names numTask { s with main := .waiting 0 } where
  arrived := h.arrived
  log := h.log
  handed := by
    have hold := h.counted
    simp only [Circular.Counted, hm] at hold
    have hall := h.handed
    rw [hm] at hall
    rw [hall]
    exact congrArg List.range (Nat.le_antisymm hold.1 ht)
  counted := by
    have hold := h.counted
    simp only [Circular.Counted, hm] at hold
    -- every task sent keeps a worker of its own busy
    have hbusy : weight TaskWorker.busy s.workers ≤ s.workers.length := by
      apply weight_le_length
      intro w
      unfold TaskWorker.busy
      split <;> decide
    have hlen := h.length_le
    simp only [Circular.Counted]
    omega
  each := nofun

/-- A worker moves without a word to main, and stays busy. -/
theorem CircularInv.worker (h : CircularInv names numTask s) {j : ℕ} {srv : String}
    {pc pc' : TaskPc} {completed : List (String × ℕ)}
    (hj : s.workers[j]? = some ⟨srv, pc⟩)
    (hlog : Balanced TaskWorker.running (s.workers.set j ⟨srv, pc'⟩) s.calls completed)
    (hbusy : TaskWorker.busy ⟨srv, pc'⟩ = TaskWorker.busy ⟨srv, pc⟩)
    (hserved : TaskWorker.served ⟨srv, pc'⟩ = TaskWorker.served ⟨srv, pc⟩)
    (hexit : pc' = .exited → ∀ task, s.main ≠ .sending task) :
    CircularInv names numTask { s with
      workers := s.workers.set j ⟨srv, pc'⟩, completed := completed } where
  arrived := by
    simp only [map_srv_set hj]
    exact h.arrived
  log := hlog
  handed := h.handed
  counted := by
    have hset := weight_set TaskWorker.busy ⟨srv, pc'⟩ hj
    -- main is where it was, so only the workers' part of the account is to be looked at
    have hsame : weight TaskWorker.busy (s.workers.set j ⟨srv, pc'⟩) =
        weight TaskWorker.busy s.workers := by omega
    have hold := h.counted
    cases hm : s.main with
    | sending task =>
        simp only [Circular.Counted, hm, hsame] at hold ⊢
        refine ⟨hold.1, hold.2.1, fun w hw => ?_⟩
        rcases List.mem_or_eq_of_mem_set hw with hw | rfl
        · exact hold.2.2 w hw
        · exact fun he => hexit he task hm
    | waiting i =>
        simp only [Circular.Counted, hm, hsame] at hold ⊢
        exact hold
    | returned =>
        simp only [Circular.Counted, hm, hsame] at hold ⊢
        exact hold
  each := by
    intro task hm
    rw [filterMap_set_eq hj hserved]
    exact h.each task hm

theorem CircularInv.recvDone (h : CircularInv names numTask s) {i j : ℕ} {srv : String}
    (hm : s.main = .waiting i) (hj : s.workers[j]? = some ⟨srv, .acking⟩) :
    CircularInv names numTask { s with
      main := .waiting (i + 1), workers := s.workers.set j ⟨srv, .idle⟩ } where
  arrived := by
    simp only [map_srv_set hj]
    exact h.arrived
  log := h.log.keep hj rfl
  handed := by
    have hold := h.handed
    rw [hm] at hold
    exact hold
  counted := by
    have hset := weight_set TaskWorker.busy ⟨srv, .idle⟩ hj
    have hold := h.counted
    simp only [Circular.Counted, hm] at hold
    simp only [TaskWorker.busy] at hset
    simp only [Circular.Counted]
    omega
  each := nofun

theorem CircularInv.accept (h : CircularInv names numTask s) {srv : String} {rest : List String}
    (hs : s.servers = srv :: rest) :
    CircularInv names numTask { s with
      servers := rest, workers := s.workers ++ [⟨srv, .idle⟩] } where
  arrived := by
    simp only [List.map_append, List.map_cons, List.map_nil, List.append_assoc,
      List.singleton_append]
    rw [← hs]
    exact h.arrived
  log := h.log.spawn rfl
  handed := h.handed
  counted := by
    have hsame : weight TaskWorker.busy (s.workers ++ [⟨srv, .idle⟩]) =
        weight TaskWorker.busy s.workers := weight_concat _ _ _
    have hold := h.counted
    cases hm : s.main with
    | sending task =>
        simp only [Circular.Counted, hm, hsame] at hold ⊢
        refine ⟨hold.1, hold.2.1, fun w hw => ?_⟩
        rcases List.mem_append.mp hw with hw | hw
        · exact hold.2.2 w hw
        · rw [List.mem_singleton.mp hw]
          exact nofun
    | waiting i =>
        simp only [Circular.Counted, hm, hsame] at hold ⊢
        exact hold
    | returned =>
        simp only [Circular.Counted, hm, hsame] at hold ⊢
        exact hold
  each := by
    intro task hm
    have hidle : [(⟨srv, .idle⟩ : TaskWorker)].filterMap TaskWorker.served = [] := rfl
    rw [List.filterMap_append, hidle, List.append_nil]
    exact h.each task hm

/-- **One step** keeps the account. -/
theorem CircularInv.step (h : CircularInv names numTask s) (hstep : CircularStep numTask s s') :
    CircularInv names numTask s' := by
  cases hstep with
  | handOver task j srv hm ht hj => exact h.handOver hm ht hj
  | closeWork task hm ht => exact h.closeWork hm ht
  | recvDone i j srv hm hi hj => exact h.recvDone hm hj
  | mainReturn i hm hi =>
      have hold := h.counted
      have hall := h.handed
      rw [hm] at hall
      simp only [Circular.Counted, hm] at hold
      exact ⟨h.arrived, h.log, hall, by simp only [Circular.Counted]; omega, nofun⟩
  | callReturn j task srv hj => exact h.worker hj (h.log.leave hj rfl rfl) rfl rfl nofun
  | workEnd j srv hj hm => exact h.worker hj (h.log.keep hj rfl) rfl rfl fun _ => hm
  | accept srv rest hs => exact h.accept hs

theorem CircularInv.reachable (h : (scheduleFixedV5 names numTask).Reachable s) :
    CircularInv names numTask s := by
  refine h.invariant (fun s hinit => ?_) (fun s s' _ hs hstep => hs.step hstep)
  obtain rfl : s = ⟨.sending 0, [], names, [], []⟩ := hinit
  exact ⟨rfl, .refl _, rfl, ⟨Nat.zero_le _, rfl, nofun⟩, fun _ _ => .refl _⟩

/-! ## §4. Where a run stops. -/

/-- No worker is inside of a call. -/
theorem running_of_stuck (hstuck : (scheduleFixedV5 names numTask).Stuck s) :
    ∀ w ∈ s.workers, w.running = none := by
  rintro ⟨srv, pc⟩ hw
  obtain ⟨j, hj⟩ := List.getElem?_of_mem hw
  cases pc with
  | calling task => exact absurd (.callReturn j task srv hj) (hstuck _)
  | idle | acking | exited => rfl

theorem servers_of_stuck (hstuck : (scheduleFixedV5 names numTask).Stuck s) : s.servers = [] := by
  cases hs : s.servers with
  | nil => rfl
  | cons srv rest => exact absurd (.accept srv rest hs) (hstuck _)

/-- Main waits for a worker while every worker waits for main. -/
theorem CircularInv.deadlock (h : CircularInv names numTask s)
    (hstuck : (scheduleFixedV5 names numTask).Stuck s) {task : ℕ} (hm : s.main = .sending task) :
    task = names.length ∧ names.length < numTask ∧ ∀ w ∈ s.workers, w.pc = .acking := by
  have hold := h.counted
  simp only [Circular.Counted, hm] at hold
  obtain ⟨-, hbusy, hexit⟩ := hold
  have ht : task < numTask := by
    by_contra hge
    exact hstuck _ (.closeWork task hm (Nat.le_of_not_lt hge))
  have hacking : ∀ w ∈ s.workers, w.pc = .acking := by
    rintro ⟨srv, pc⟩ hw
    obtain ⟨j, hj⟩ := List.getElem?_of_mem hw
    cases pc with
    | idle => exact absurd (.handOver task j srv hm ht hj) (hstuck _)
    | calling task' => exact absurd (.callReturn j task' srv hj) (hstuck _)
    | acking => rfl
    | exited => exact absurd rfl (hexit _ hw)
  have hall : weight TaskWorker.busy s.workers = s.workers.length := by
    apply weight_eq_length
    intro w hw
    rw [TaskWorker.busy, hacking w hw]
  have hlen := h.length_le
  rw [servers_of_stuck hstuck, List.length_nil] at hlen
  exact ⟨by omega, by omega, hacking⟩

/-- In the deadlock every server has one task. -/
theorem CircularInv.each_served (h : CircularInv names numTask s) {task : ℕ}
    (hm : s.main = .sending task) (hacking : ∀ w ∈ s.workers, w.pc = .acking) :
    s.calls.map Prod.fst ~ s.workers.map TaskWorker.srv := by
  have hall : s.workers.filterMap TaskWorker.served = s.workers.map TaskWorker.srv := by
    rw [← List.filterMap_eq_map]
    refine List.filterMap_congr fun w hw => ?_
    rw [TaskWorker.served, hacking w hw]
    rfl
  exact hall ▸ h.each task hm

/-- Behind `close(work)` main returns. -/
theorem CircularInv.returns (h : CircularInv names numTask s)
    (hstuck : (scheduleFixedV5 names numTask).Stuck s) (hm : ∀ task, s.main ≠ .sending task) :
    s.main = .returned ∧ numTask ≤ names.length ∧ ∀ w ∈ s.workers, w.pc = .exited := by
  have hidle : ∀ srv, (⟨srv, .idle⟩ : TaskWorker) ∉ s.workers := by
    intro srv hw
    obtain ⟨j, hj⟩ := List.getElem?_of_mem hw
    exact hstuck _ (.workEnd j srv hj hm)
  have hcalling : ∀ srv task, (⟨srv, .calling task⟩ : TaskWorker) ∉ s.workers := by
    intro srv task hw
    obtain ⟨j, hj⟩ := List.getElem?_of_mem hw
    exact hstuck _ (.callReturn j task srv hj)
  have hold := h.counted
  cases hmain : s.main with
  | sending task => exact absurd hmain (hm task)
  | waiting i =>
      exfalso
      simp only [Circular.Counted, hmain] at hold
      have hi : i < numTask := by
        by_contra hge
        exact hstuck _ (.mainReturn i hmain (Nat.le_of_not_lt hge))
      obtain ⟨j, ⟨srv, pc⟩, hj, hpos⟩ := exists_of_weight_pos TaskWorker.busy (l := s.workers)
        (by omega)
      cases pc with
      | idle => exact hidle srv (List.mem_of_getElem? hj)
      | calling task => exact hcalling srv task (List.mem_of_getElem? hj)
      | acking => exact hstuck _ (.recvDone i j srv hmain hi hj)
      | exited => exact absurd hpos (Nat.lt_irrefl 0)
  | returned =>
      simp only [Circular.Counted, hmain] at hold
      refine ⟨rfl, hold.2, ?_⟩
      rintro ⟨srv, pc⟩ hw
      obtain ⟨j, hj⟩ := List.getElem?_of_mem hw
      cases pc with
      | idle => exact absurd hw (hidle srv)
      | calling task => exact absurd hw (hcalling srv task)
      | acking =>
          have hle := le_weight TaskWorker.busy hj
          rw [hold.1] at hle
          exact absurd hle (Nat.not_succ_le_zero 0)
      | exited => rfl

end Steps

/-- **`ScheduleFixedV5`.**  Every run comes to a stop.  With at least as many servers as tasks
    it stops with main returned, every task called once and every worker gone; with fewer it
    stops in the deadlock: each server has done one task and waits for main to receive, and
    main waits to send the next task. -/
theorem scheduleFixedV5_results (names : List String) (numTask : ℕ) :
    (scheduleFixedV5 names numTask).EndsIn fun s =>
      (numTask ≤ names.length → s.main = .returned ∧ (∀ w ∈ s.workers, w.pc = .exited) ∧
        s.completed.map Prod.snd ~ List.range numTask) ∧
      (names.length < numTask → s.main = .sending names.length ∧
        s.workers.length = names.length ∧ (∀ w ∈ s.workers, w.pc = .acking) ∧
        s.completed.map Prod.fst ~ names ∧
        s.completed.map Prod.snd ~ List.range names.length) := by
  refine System.ends_of_measure (Circular.left numTask) (fun s s' _ h => h.left_lt)
    fun s hreach hstuck => ?_
  have h := CircularInv.reachable hreach
  have hall := h.log.all_completed (running_of_stuck hstuck)
  have hdone := hall.map Prod.snd
  rw [h.handed] at hdone
  have hlen := h.length_le
  have harrived := h.arrived
  rw [servers_of_stuck hstuck] at hlen harrived
  rw [List.length_nil] at hlen
  rw [List.append_nil] at harrived
  by_cases hm : ∃ task, s.main = .sending task
  · obtain ⟨task, hm⟩ := hm
    obtain ⟨rfl, hlt, hacking⟩ := h.deadlock hstuck hm
    have hnames := (hall.map Prod.fst).trans (h.each_served hm hacking)
    rw [harrived] at hnames
    rw [hm] at hdone
    exact ⟨fun hle => absurd hlt (Nat.not_lt.mpr hle),
      fun _ => ⟨hm, hlen, hacking, hnames, hdone⟩⟩
  · obtain ⟨hret, hle, hexited⟩ := h.returns hstuck fun task ht => hm ⟨task, ht⟩
    rw [hret] at hdone
    exact ⟨fun _ => ⟨hret, hexited, hdone⟩, fun hlt => absurd hlt (Nat.not_lt.mpr hle)⟩

end ComputerScience.Scheduler
