/-
  ComputerScience.Pqsort.Group
  ────────────────────────────
  **A TASK QUEUE AS ITS LIST OF TASKS.**

  The sorting routines use a queue in one way only: spawn some tasks, call `join_tasks`,
  go on when it returns.  For them a queue is the list of all tasks spawned on it, the
  number of nodes `join_tasks` has taken from it (always the oldest ones) and whether it
  waits for the last one it took.  `taskRun_group_step` shows that the linked list of
  `taskq.c` behaves like this.

  Three facts carry everything that follows: when `join_tasks` finds the list empty all
  tasks are finished (`Group.Wf.all_finished`), as long as it has not some task or
  `join_tasks` itself can move (`Group.Wf.progress`), and every move costs something
  (`JoinStep.cost`).
-/
import ComputerScience.Pqsort.TaskQueue

namespace ComputerScience.Pqsort

open ComputerScience.Lib

variable {τ : Type*}

/-! ## §1. Groups of tasks. -/

/-- A queue: its tasks in the order they were spawned, how many `join_tasks` has taken,
and whether it is in `Pthread_join` for the last one taken. -/
structure Group (τ : Type*) where
  tasks : List τ
  taken : ℕ
  joining : Bool

/-- `new_task_queue` -/
def Group.new : Group τ := ⟨[], 0, false⟩

/-- `spawn_task` -/
def Group.spawn (g : Group τ) (t : τ) : Group τ := { g with tasks := g.tasks ++ [t] }

/-- The task `i` moves on to the state `t`. -/
def Group.setTask (g : Group τ) (i : ℕ) (t : τ) : Group τ := { g with tasks := g.tasks.set i t }

/-- `join_tasks` finds the list empty. -/
def Group.Empty (g : Group τ) : Prop := g.joining = false ∧ g.taken = g.tasks.length

/-- A step of `join_tasks`. -/
inductive JoinStep (fin : τ → Prop) (g : Group τ) : Group τ → Prop where
  | take (h : g.joining = false) (hlt : g.taken < g.tasks.length) :
      JoinStep fin g { g with taken := g.taken + 1, joining := true }
  | join (t : τ) (h : g.joining = true) (ht : g.tasks[g.taken - 1]? = some t) (hfin : fin t) :
      JoinStep fin g { g with joining := false }

/-- `join_tasks` does not touch the tasks. -/
theorem JoinStep.tasks_eq {fin : τ → Prop} {g g' : Group τ} (h : JoinStep fin g g') :
    g'.tasks = g.tasks := by
  cases h <;> rfl

/-! ## §2. What is joined is finished. -/

/-- The invariant of a queue. -/
structure Group.Wf (fin : τ → Prop) (g : Group τ) : Prop where
  taken_le : g.taken ≤ g.tasks.length
  joining : g.joining = true → 0 < g.taken
  joined : ∀ (i : ℕ) (t : τ), g.tasks[i]? = some t → i + g.joining.toNat < g.taken → fin t

variable {fin : τ → Prop} {g g' : Group τ}

theorem Group.Wf.new : (Group.new : Group τ).Wf fin := by
  unfold Group.new
  exact ⟨Nat.le_refl 0, by simp, by simp⟩

theorem Group.Wf.spawn (h : g.Wf fin) (t : τ) : (g.spawn t).Wf fin := by
  unfold Group.spawn
  refine ⟨?_, h.joining, ?_⟩
  · show g.taken ≤ (g.tasks ++ [t]).length
    rw [List.length_append]
    have := h.taken_le
    omega
  · intro i t' hi hlt
    -- what is joined was spawned before
    have hlen : i < g.tasks.length := by
      have := h.taken_le
      have hlt : i + g.joining.toNat < g.taken := hlt
      omega
    refine h.joined i t' ?_ hlt
    rwa [← List.getElem?_append_left hlen]

/-- A task may move as long as it stays finished once it is. -/
theorem Group.Wf.setTask (h : g.Wf fin) {i : ℕ} {t : τ} (t' : τ) (hi : g.tasks[i]? = some t)
    (hfin : fin t → fin t') : (g.setTask i t').Wf fin := by
  unfold Group.setTask
  refine ⟨?_, h.joining, ?_⟩
  · show g.taken ≤ (g.tasks.set i t').length
    rw [List.length_set]
    exact h.taken_le
  · intro j u hj hlt
    rcases getElem?_set_cases hj with ⟨rfl, rfl⟩ | ⟨_, hold⟩
    · exact hfin (h.joined j t hi hlt)
    · exact h.joined j u hold hlt

theorem Group.Wf.step (h : g.Wf fin) (hstep : JoinStep fin g g') : g'.Wf fin := by
  cases hstep with
  | take hj hlt =>
      refine ⟨hlt, fun _ => Nat.succ_pos _, ?_⟩
      intro i t hi hlt'
      have hlt' : i + 1 < g.taken + 1 := hlt'
      refine h.joined i t hi ?_
      rw [hj]
      show i + 0 < g.taken
      omega
  | join t hj ht hfin =>
      refine ⟨h.taken_le, fun hc => absurd hc (by simp), ?_⟩
      intro i u hi hlt
      have hlt : i + 0 < g.taken := hlt
      -- either joined before, or the task just joined
      by_cases heq : i = g.taken - 1
      · rw [heq] at hi
        obtain rfl : t = u := Option.some.inj (ht.symm.trans hi)
        exact hfin
      · refine h.joined i u hi ?_
        rw [hj]
        show i + 1 < g.taken
        omega

/-- **When `join_tasks` finds the list empty every task is finished.** -/
theorem Group.Wf.all_finished (h : g.Wf fin) (hempty : g.Empty) {i : ℕ} {t : τ}
    (hi : g.tasks[i]? = some t) : fin t := by
  obtain ⟨hj, htaken⟩ := hempty
  refine h.joined i t hi ?_
  rw [hj, htaken]
  exact (List.getElem?_eq_some_iff.mp hi).1

/-- **Progress**: `join_tasks` can return, or move, or some task is not finished. -/
theorem Group.Wf.progress (h : g.Wf fin) :
    g.Empty ∨ (∃ g', JoinStep fin g g') ∨ ∃ (i : ℕ) (t : τ), g.tasks[i]? = some t ∧ ¬ fin t := by
  by_cases hj : g.joining = true
  · -- in `Pthread_join`: the thread has finished, or it can move
    have hpos := h.joining hj
    have hle := h.taken_le
    have hlt : g.taken - 1 < g.tasks.length := by omega
    have hget : g.tasks[g.taken - 1]? = some g.tasks[g.taken - 1] :=
      List.getElem?_eq_getElem hlt
    by_cases hfin : fin g.tasks[g.taken - 1]
    · exact Or.inr (Or.inl ⟨_, .join _ hj hget hfin⟩)
    · exact Or.inr (Or.inr ⟨_, _, hget, hfin⟩)
  · -- at the top of the loop: a node to take, or none
    have hj : g.joining = false := by simpa using hj
    by_cases hlt : g.taken < g.tasks.length
    · exact Or.inr (Or.inl ⟨_, .take hj hlt⟩)
    · have hle := h.taken_le
      exact Or.inl ⟨hj, by omega⟩

/-! ## §3. What is left to do. -/

/-- The steps left in a group whose tasks have `w` steps left each. -/
def Group.cost (w : τ → ℕ) (g : Group τ) : ℕ :=
  weight w g.tasks + 2 * (g.tasks.length - g.taken) + g.joining.toNat

variable {w : τ → ℕ}

theorem Group.Wf.cost_spawn (h : g.Wf fin) (t : τ) :
    (g.spawn t).cost w = g.cost w + w t + 2 := by
  have := h.taken_le
  unfold Group.cost Group.spawn
  simp only [weight_concat, List.length_append, List.length_singleton]
  omega

theorem Group.cost_setTask {i : ℕ} {t : τ} (t' : τ) (hi : g.tasks[i]? = some t) :
    (g.setTask i t').cost w + w t = g.cost w + w t' := by
  have := weight_set w t' hi
  unfold Group.cost Group.setTask
  simp only [List.length_set]
  omega

/-- Every step of `join_tasks` counts. -/
theorem JoinStep.cost (hstep : JoinStep fin g g') : g'.cost w + 1 = g.cost w := by
  cases hstep with
  | take hj hlt =>
      unfold Group.cost
      rw [hj]
      simp only [Bool.toNat_true, Bool.toNat_false]
      omega
  | join t hj ht hfin =>
      unfold Group.cost
      rw [hj]
      rfl

/-! ## §4. The linked list behaves like a group. -/

/-- The group a queue in memory stands for. -/
def TaskRun.group (s : TaskRun) : Group TaskStatus where
  tasks := s.tasks
  taken := s.joined.length + s.main.current.length
  joining := !s.main.current.isEmpty

/-- At the top of the loop of `join_tasks`, `head` is `NULL` exactly if the group is
empty. -/
theorem taskRun_head_none_iff {maxThreads : ℕ} (hmax : maxThreads < 2 ^ 31) {s : TaskRun}
    (hs : (taskSystem maxThreads).Reachable s) (hm : s.main = .looping) :
    s.tq.head = none ↔ s.group.Empty := by
  obtain ⟨nodes, hinv⟩ := task_invariant hmax hs
  have hlen := hinv.length_eq
  rw [hm] at hlen
  rw [hinv.repr.chain.eq_none_iff, ← List.length_eq_zero_iff]
  unfold Group.Empty TaskRun.group
  rw [hm]
  have hlen : s.joined.length + 0 + nodes.length = s.tasks.length := hlen
  show nodes.length = 0 ↔ false = false ∧ s.joined.length + 0 = s.tasks.length
  constructor
  · intro h
    exact ⟨rfl, by omega⟩
  · intro h
    omega

/-- **`taskq.c` refines the group**: every step is a spawn, a task's end, a step of
`join_tasks`, or invisible. -/
theorem taskRun_group_step {maxThreads : ℕ} (hmax : maxThreads < 2 ^ 31) {s s' : TaskRun}
    (hs : (taskSystem maxThreads).Reachable s) (hstep : TaskStep maxThreads s s') :
    s'.group = s.group ∨ s'.group = s.group.spawn .running ∨
      (∃ i : ℕ, s.tasks[i]? = some .running ∧ s'.group = s.group.setTask i .finished) ∨
      JoinStep (· = TaskStatus.finished) s.group s'.group := by
  obtain ⟨nodes, hinv⟩ := task_invariant hmax hs
  have hlen := hinv.length_eq
  cases hstep with
  | spawnMain ele hm hfresh hcreate => exact Or.inr (Or.inl rfl)
  | spawnTask i ele hi hfresh hcreate => exact Or.inr (Or.inl rfl)
  | finish i hi => exact Or.inr (Or.inr (Or.inl ⟨i, hi, rfl⟩))
  | joinTasks hm =>
      left
      unfold TaskRun.group
      rw [hm]
      rfl
  | unlink oldHead node hm hhead hnode =>
      -- a node comes off the list: the oldest task not taken
      right; right; right
      obtain ⟨rest, rfl, _⟩ := hinv.repr.unlink hhead hnode (by
        have := hinv.threads
        omega)
      have hgroup : s.group = ⟨s.tasks, s.joined.length, false⟩ := by
        unfold TaskRun.group
        rw [hm]
        rfl
      rw [hm, List.length_cons] at hlen
      show JoinStep _ s.group ⟨s.tasks, s.joined.length + 1, true⟩
      rw [hgroup]
      refine JoinStep.take rfl ?_
      show s.joined.length < s.tasks.length
      omega
  | free oldHead tid hm =>
      left
      unfold TaskRun.group
      rw [hm]
      rfl
  | join tid hm hfin =>
      right; right; right
      have hgroup : s.group = ⟨s.tasks, s.joined.length + 1, true⟩ := by
        unfold TaskRun.group
        rw [hm]
        rfl
      have hgroup' : TaskRun.group { s with main := .looping, joined := s.joined ++ [tid] } =
          ⟨s.tasks, s.joined.length + 1, false⟩ := by
        unfold TaskRun.group
        rw [List.length_append]
        rfl
      -- the thread joined is the last one taken
      have horder := congrArg (·[s.joined.length]?) hinv.order
      rw [hm] at horder hlen
      have hlt : s.joined.length < s.tasks.length := by
        have : s.joined.length + 1 + nodes.length = s.tasks.length := hlen
        omega
      have htid : tid = s.joined.length := by
        simpa [JoinPc.current, List.getElem?_append, List.getElem?_range hlt] using horder
      rw [hgroup, hgroup']
      refine JoinStep.join .finished rfl ?_ rfl
      show s.tasks[s.joined.length + 1 - 1]? = some .finished
      rw [Nat.add_sub_cancel, ← htid]
      exact hfin
  | ret hm hhead =>
      left
      unfold TaskRun.group
      rw [hm]
      rfl

end ComputerScience.Pqsort
