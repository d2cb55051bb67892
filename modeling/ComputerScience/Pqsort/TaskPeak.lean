/-
  ComputerScience.Pqsort.TaskPeak
  ───────────────────────────────
  **WHAT `join_tasks` RETURNS** (`26-parallelism/pqsort/taskq.c`): the "maximum number of
  concurrrent tasks".

  `active_count` is the length of the list: a task is taken off it, and out of the count,
  before it is joined, when it may still run.  A task spawned in that time is counted
  without the one being joined, and the maximum can come out too small.  If no task is
  spawned while the task that is being joined is unfinished, every spawn counts all tasks
  there are, and the maximum is right.

  Main results:
    • `unfinished_le` — the unfinished tasks are on the list, or being joined,
    • `joinTasks_undercounts` — a run in which the returned number is too small,
    • `joinTasks_peak` — the runs in which it is not.
-/
import ComputerScience.Pqsort.TaskQueue

namespace ComputerScience.Pqsort

open ComputerScience.Lib

/-! ## §1. Unfinished tasks. -/

/-- The tasks spawned and not yet finished. -/
def TaskRun.unfinished (s : TaskRun) : ℕ := s.tasks.count .running

/-- The step spawns no task while the task that `join_tasks` has taken off the list is
unfinished. -/
def Timely (s s' : TaskRun) : Prop :=
  s.tasks.length < s'.tasks.length → ∀ tid ∈ s.main.current, s.tasks[tid]? = some .finished

/-- **The unfinished tasks are on the list**, if the one being joined has finished. -/
theorem unfinished_le {maxThreads : ℕ} {s : TaskRun} {nodes : List (ℕ × ℕ)}
    (hinv : TaskInv maxThreads s nodes)
    (hcurrent : ∀ tid ∈ s.main.current, s.tasks[tid]? = some .finished) :
    s.unfinished ≤ nodes.length := by
  have hzero : ∀ l : List ℕ, (∀ tid ∈ l, s.tasks[tid]? = some .finished) →
      l.countP (fun i => s.tasks[i]? = some .running) = 0 := by
    intro l hl
    rw [List.countP_eq_zero]
    intro tid htid
    simp [hl tid htid]
  -- count over the thread ids, in the order joined, being joined, on the list
  unfold TaskRun.unfinished
  rw [count_eq_countP_range, ← hinv.order, List.countP_append, List.countP_append,
    hzero _ hinv.finished, hzero _ hcurrent, Nat.zero_add]
  calc (nodes.map Prod.snd).countP _ ≤ (nodes.map Prod.snd).length := List.countP_le_length
    _ = nodes.length := List.length_map ..

/-! ## §2. The maximum. -/

/-- `spawn_task` leaves a maximum that is at least the old one and at least the new
count. -/
theorem spawnTask_max (tq : TaskQueueT) (heap : TaskHeap) (ele tid : ℕ) :
    tq.maxActiveCount ≤ (spawnTask tq heap ele tid).1.maxActiveCount ∧
      (spawnTask tq heap ele tid).1.activeCount ≤
        (spawnTask tq heap ele tid).1.maxActiveCount := by
  simp only [spawnTask]
  split <;> omega

/-- The maximum never falls. -/
theorem TaskStep.max_mono {maxThreads : ℕ} {s s' : TaskRun} (h : TaskStep maxThreads s s') :
    s.tq.maxActiveCount ≤ s'.tq.maxActiveCount := by
  cases h with
  | spawnMain ele hm hfresh hcreate => exact (spawnTask_max s.tq s.heap ele s.tasks.length).1
  | spawnTask i ele hi hfresh hcreate => exact (spawnTask_max s.tq s.heap ele s.tasks.length).1
  | _ => exact Int.le_refl _

/-- What holds in every state of a timely run. -/
structure PeakInv (s : TaskRun) : Prop where
  bound : (s.unfinished : ℤ) ≤ s.tq.maxActiveCount
  returned : ∀ n, s.main = .returned n → n = s.tq.maxActiveCount

/-- A timely spawn counts every unfinished task. -/
theorem PeakInv.spawn {maxThreads : ℕ} (hmax : maxThreads < 2 ^ 31) {s : TaskRun}
    {nodes : List (ℕ × ℕ)} (hinv : TaskInv maxThreads s nodes) {ele : ℕ}
    (hmain : ∀ n, s.main ≠ .returned n) (hfresh : s.heap ele = none)
    (hcreate : s.tasks.length < s.joined.length + maxThreads)
    (htimely : Timely s (s.spawn ele)) : PeakInv (s.spawn ele) := by
  have hspawned : s.tasks.length < (s.spawn ele).tasks.length := by
    show _ < (s.tasks ++ [TaskStatus.running]).length
    rw [List.length_append, List.length_singleton]
    omega
  have hle := unfinished_le hinv (htimely hspawned)
  have hcount := (hinv.spawn hmax hmain hfresh hcreate).repr.count
  rw [List.length_append, List.length_singleton] at hcount
  have hlast := (spawnTask_max s.tq s.heap ele s.tasks.length).2
  refine ⟨?_, fun n hn => absurd hn (hmain n)⟩
  have hone : (s.spawn ele).unfinished = s.unfinished + 1 := by
    show (s.tasks ++ [TaskStatus.running]).count .running = s.tasks.count .running + 1
    simp
  have hactive : (s.spawn ele).tq.activeCount ≤ (s.spawn ele).tq.maxActiveCount := hlast
  omega

/-- **One timely step.** -/
theorem PeakInv.step {maxThreads : ℕ} (hmax : maxThreads < 2 ^ 31) {s s' : TaskRun}
    {nodes : List (ℕ × ℕ)} (hinv : TaskInv maxThreads s nodes) (hp : PeakInv s)
    (h : TaskStep maxThreads s s') (htimely : Timely s s') : PeakInv s' := by
  cases h with
  | spawnMain ele hm hfresh hcreate =>
      exact PeakInv.spawn hmax hinv (by intro n; rw [hm]; simp) hfresh hcreate htimely
  | spawnTask i ele hi hfresh hcreate =>
      exact PeakInv.spawn hmax hinv (hinv.not_returned hi) hfresh hcreate htimely
  | finish i hi =>
      refine ⟨?_, hp.returned⟩
      have hle : (s.tasks.set i .finished).count .running ≤ s.unfinished := by
        have hlt := (List.getElem?_eq_some_iff.mp hi).1
        rw [List.count_set hlt]
        unfold TaskRun.unfinished
        simp
      exact le_trans (Int.ofNat_le.mpr hle) hp.bound
  | ret hm hhead =>
      refine ⟨hp.bound, ?_⟩
      rintro n hn
      injection hn with hn
      exact hn.symm
  | joinTasks hm | unlink oldHead node hm hhead hnode | free oldHead tid hm | join tid hm hfin =>
      exact ⟨hp.bound, fun n hn => absurd hn (by simp)⟩

/-! ## §3. Whole runs. -/

theorem PeakInv.reachable {maxThreads : ℕ} (hmax : maxThreads < 2 ^ 31) {s : TaskRun}
    (h : ((taskSystem maxThreads).restrict Timely).Reachable s) : PeakInv s := by
  refine h.invariant ?_ ?_
  · rintro s rfl
    exact ⟨Int.le_refl 0, fun n hn => absurd hn (by simp)⟩
  · intro s s' hs hp hstep
    obtain ⟨nodes, hinv⟩ := task_invariant hmax hs.of_restrict
    exact hp.step hmax hinv hstep.1 hstep.2

theorem max_mono_run {maxThreads : ℕ} {s s' : TaskRun}
    (h : Relation.ReflTransGen ((taskSystem maxThreads).restrict Timely).step s s') :
    s.tq.maxActiveCount ≤ s'.tq.maxActiveCount := by
  induction h with
  | refl => exact Int.le_refl _
  | tail _ hstep ih => exact le_trans ih hstep.1.max_mono

/-- **When the returned number is right**: in every run in which no task is spawned while
the task taken off the list is unfinished, the number that `join_tasks` returns is at
least the number of unfinished tasks at every earlier moment. -/
theorem joinTasks_peak (maxThreads : ℕ) (hmax : maxThreads < 2 ^ 31) (mid s : TaskRun)
    (hmid : ((taskSystem maxThreads).restrict Timely).Reachable mid)
    (hrun : Relation.ReflTransGen ((taskSystem maxThreads).restrict Timely).step mid s) (n : ℤ)
    (hret : s.main = .returned n) : (mid.unfinished : ℤ) ≤ n := by
  rw [(PeakInv.reachable hmax (hmid.trans hrun)).returned n hret]
  exact le_trans (PeakInv.reachable hmax hmid).bound (max_mono_run hrun)

/-- **The maximum can be too small**: `join_tasks` takes the only task off the list, which
then spawns another one.  Two tasks are unfinished, and the returned number is `1`. -/
theorem joinTasks_undercounts : ∃ mid s, (taskSystem 4).Reachable mid ∧
    Relation.ReflTransGen (taskSystem 4).step mid s ∧ mid.unfinished = 2 ∧
      s.main = .returned 1 := by
  have h0 : (taskSystem 4).Reachable ⟨newTaskQueue, fun _ => none, [], .spawning, []⟩ :=
    System.Reachable.of_init rfl
  have h1 := h0.tail (TaskStep.spawnMain 10 rfl rfl (by decide))
  have h2 := h1.tail (TaskStep.joinTasks rfl)
  have h3 := h2.tail (TaskStep.unlink 10 ⟨0, none⟩ rfl rfl rfl)
  have h4 := h3.tail (TaskStep.free 10 0 rfl)
  have hmid := h4.tail (TaskStep.spawnTask 0 11 rfl rfl (by decide))
  -- both tasks finish, and are joined one after the other
  exact ⟨_, _, hmid, .head (TaskStep.finish 0 rfl) <| .head (TaskStep.finish 1 rfl) <|
    .head (TaskStep.join 0 rfl rfl) <| .head (TaskStep.unlink 11 ⟨1, none⟩ rfl rfl rfl) <|
    .head (TaskStep.free 11 1 rfl) <| .head (TaskStep.join 1 rfl rfl) <|
    .single (TaskStep.ret rfl rfl), rfl, rfl⟩

/-- Two tasks, of which the second spawns a third while the first is being joined. -/
theorem joinTasks_peak_two : ∃ mid s : TaskRun,
    ((taskSystem 4).restrict Timely).Reachable mid ∧ mid.main = .joining 0 ∧ mid.unfinished = 2 ∧
      s.main = .returned 2 ∧ (mid.unfinished : ℤ) ≤ 2 := by
  have hidle : ∀ {s s' : TaskRun}, s.main.current = [] → Timely s s' := by
    intro s s' hcur _ tid htid
    rw [hcur] at htid
    cases htid
  have hsame : ∀ {s s' : TaskRun}, s'.tasks.length = s.tasks.length → Timely s s' :=
    fun hlen hlt => by omega
  -- the task that is being joined has finished
  have htimely : ∀ {s s' : TaskRun}, s.main.current = [0] → s.tasks[0]? = some .finished →
      Timely s s' := by
    intro s s' hcur hfin _ tid htid
    rw [hcur, List.mem_singleton] at htid
    rw [htid]
    exact hfin
  suffices hrun : ∃ mid s, ((taskSystem 4).restrict Timely).Reachable mid ∧
      mid.main = .joining 0 ∧ mid.unfinished = 2 ∧
      Relation.ReflTransGen ((taskSystem 4).restrict Timely).step mid s ∧ s.main = .returned 2 by
    obtain ⟨mid, s, hmid, hjoin, hcount, hrun, hret⟩ := hrun
    exact ⟨mid, s, hmid, hjoin, hcount, hret, joinTasks_peak 4 (by decide) mid s hmid hrun 2 hret⟩
  have h0 : ((taskSystem 4).restrict Timely).Reachable
      ⟨newTaskQueue, fun _ => none, [], .spawning, []⟩ := System.Reachable.of_init rfl
  have h1 := (h0.tail ⟨TaskStep.spawnMain 10 rfl rfl (by decide), hidle rfl⟩).tail
    ⟨TaskStep.spawnMain 11 rfl rfl (by decide), hidle rfl⟩
  have h2 := (h1.tail ⟨TaskStep.joinTasks rfl, hsame rfl⟩).tail
    ⟨TaskStep.finish 0 rfl, hsame rfl⟩
  have h3 := (h2.tail ⟨TaskStep.unlink 10 ⟨0, some 11⟩ rfl rfl rfl, hsame rfl⟩).tail
    ⟨TaskStep.free 10 0 rfl, hsame rfl⟩
  have hmid := h3.tail ⟨TaskStep.spawnTask 1 12 rfl rfl (by decide), htimely rfl rfl⟩
  exact ⟨_, _, hmid, rfl, rfl, .head ⟨TaskStep.join 0 rfl rfl, hsame rfl⟩ <|
    .head ⟨TaskStep.finish 1 rfl, hsame rfl⟩ <|
    .head ⟨TaskStep.unlink 11 ⟨1, some 12⟩ rfl rfl rfl, hsame rfl⟩ <|
    .head ⟨TaskStep.free 11 1 rfl, hsame rfl⟩ <|
    .head ⟨TaskStep.join 1 rfl rfl, hsame rfl⟩ <|
    .head ⟨TaskStep.finish 2 rfl, hsame rfl⟩ <|
    .head ⟨TaskStep.unlink 12 ⟨2, none⟩ rfl rfl rfl, hsame rfl⟩ <|
    .head ⟨TaskStep.free 12 2 rfl, hsame rfl⟩ <|
    .head ⟨TaskStep.join 2 rfl rfl, hsame rfl⟩ <|
    .single ⟨TaskStep.ret rfl rfl, hsame rfl⟩, rfl⟩

end ComputerScience.Pqsort
