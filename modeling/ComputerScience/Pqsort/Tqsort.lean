/-
  ComputerScience.Pqsort.Tqsort
  ─────────────────────────────
  **PARALLEL QUICKSORT SORTS** (`tqsort`, `26-parallelism/pqsort/pqsort.c`).

  The whole program: the caller of `tqsort`, any number of sort tasks on one queue, and
  inside each of them the copy and partition tasks of its current call of
  `partition_parallel`.  One step is one piece of work of one of them between two points
  where it spawns, locks or joins, and the steps interleave in any way.

  The invariant (`TqsortInv`): the sort tasks own disjoint intervals, each satisfies its
  own invariant, and a cell nobody owns holds the goal.  When the caller returns nobody
  owns anything.
-/
import ComputerScience.Pqsort.SortTask

namespace ComputerScience.Pqsort

open ComputerScience.Lib
open ComputerScience.Lib.Cells

variable {α : Type*}

/-! ## §1. The program. -/

/-- Where the caller is. -/
inductive MainPc where
  /-- before `tqsort_helper` -/
  | start
  /-- in `join_tasks` -/
  | joining
  | returned
  deriving DecidableEq, Repr

/-- The two arrays, the queue of the sort tasks, and the caller. -/
structure Tqsort (α : Type*) where
  mem : Mem α
  tq : Group (SortTask α)
  main : MainPc

/-- Spawn the task, if there is one. -/
def Group.spawn? {τ : Type*} (g : Group τ) : Option τ → Group τ
  | none => g
  | some t => g.spawn t

section Spawn

variable {τ : Type*} {g : Group τ} {child : Option τ} {j : ℕ} {y : τ}

theorem Group.getElem?_spawn? (h : g.tasks[j]? = some y) :
    (g.spawn? child).tasks[j]? = some y := by
  cases child with
  | none => exact h
  | some t =>
      show (g.tasks ++ [t])[j]? = some y
      rw [List.getElem?_append_left (List.getElem?_eq_some_iff.mp h).1]
      exact h

theorem Group.getElem?_spawn?_new : (g.spawn? (some y)).tasks[g.tasks.length]? = some y := by
  show (g.tasks ++ [y])[g.tasks.length]? = some y
  exact List.getElem?_concat_length

theorem Group.getElem?_spawn?_cases (h : (g.spawn? child).tasks[j]? = some y) :
    g.tasks[j]? = some y ∨ (j = g.tasks.length ∧ child = some y) := by
  cases child with
  | none => exact Or.inl h
  | some t =>
      rcases getElem?_concat_cases h with hold | ⟨hj, rfl⟩
      · exact Or.inl hold
      · exact Or.inr ⟨hj, rfl⟩

theorem Group.Wf.spawn? {fin : τ → Prop} (h : g.Wf fin) : (g.spawn? child).Wf fin := by
  cases child with
  | none => exact h
  | some t => exact h.spawn t

end Spawn

variable [LinearOrder α]

/-- One step of `tqsort(base, nele, scratch_base)`; both arrays begin at offset 0. -/
inductive TqsortStep (c : Tuning α) (nele : ℕ) (s : Tqsort α) : Tqsort α → Prop where
  -- `init_task`, `new_task_queue` and the first `tqsort_helper`
  | start (hm : s.main = .start) :
      TqsortStep c nele s
        { mem := (tqsortHelper c nele s.mem 0 nele 0).1
          tq := s.tq.spawn? (tqsortHelper c nele s.mem 0 nele 0).2
          main := .joining }
  -- any task, finished ones excepted: `SortStep` has no step for them
  | task (i : ℕ) (x : SortTask α) (pc : SortPc α) (m' : Mem α) (child : Option (SortTask α))
      (hi : s.tq.tasks[i]? = some x) (hstep : SortStep c nele x s.mem pc m' child) :
      TqsortStep c nele s
        { s with mem := m', tq := (s.tq.setTask i { x with pc := pc }).spawn? child }
  | join (tq : Group (SortTask α)) (hm : s.main = .joining)
      (hjoin : JoinStep SortTask.Fin s.tq tq) : TqsortStep c nele s { s with tq := tq }
  -- `join_tasks` found the list empty
  | ret (hm : s.main = .joining) (hempty : s.tq.Empty) :
      TqsortStep c nele s { s with main := .returned }

/-- All runs of `tqsort` on the arrays `m`. -/
def tqsortSystem (c : Tuning α) (nele : ℕ) (m : Mem α) : System (Tqsort α) where
  init s := s = ⟨m, Group.new, .start⟩
  step := TqsortStep c nele

/-! ## §2. The invariant. -/

/-- The invariant of a run on the arrays `m`, with the goal `t`. -/
structure TqsortInv (t : Cells α) (c : Tuning α) (nele : ℕ) (m : Mem α) (s : Tqsort α) : Prop where
  wf : s.tq.Wf SortTask.Fin
  start : s.main = .start → s.mem = m ∧ s.tq = Group.new
  task : ∀ (i : ℕ) (x : SortTask α), s.tq.tasks[i]? = some x → TaskOk t c nele s.mem x
  /-- Two tasks own different cells. -/
  apart : ∀ (i j : ℕ) (x y : SortTask α), i ≠ j → s.tq.tasks[i]? = some x →
    s.tq.tasks[j]? = some y → ∀ k, x.owns k → ¬ y.owns k
  /-- A cell nobody owns holds the goal. -/
  goal : s.main ≠ .start → ∀ k, k < nele →
    (∀ (i : ℕ) (x : SortTask α), s.tq.tasks[i]? = some x → ¬ x.owns k) → s.mem.base k = t k
  /-- Nothing is written behind the arrays. -/
  frame : ∀ k, nele ≤ k → s.mem.base k = m.base k ∧ s.mem.scratch k = m.scratch k
  returned : s.main = .returned → s.tq.Empty

variable {t : Cells α} {c : Tuning α} {nele : ℕ} {m : Mem α} {s s' : Tqsort α}

theorem TqsortInv.init : TqsortInv t c nele m ⟨m, Group.new, .start⟩ := by
  refine ⟨Group.Wf.new, fun _ => ⟨rfl, rfl⟩, ?_, ?_, ?_, fun _ _ => ⟨rfl, rfl⟩, ?_⟩
  · intro i x hi
    exact absurd hi (by simp [Group.new])
  · intro i j x y _ hi
    exact absurd hi (by simp [Group.new])
  · intro hm
    exact absurd rfl hm
  · intro hm
    exact absurd hm (by simp)

/-- The first call of `tqsort_helper`: the array is sorted, or one task owns it. -/
theorem TqsortInv.start_step (h : TqsortInv t c nele m s) (hq : QsortSorts c.qsort)
    (ht : SortedOn t 0 nele) (hperm : Toward m.base t 0 nele) (hm : s.main = .start) :
    TqsortInv t c nele m
      { mem := (tqsortHelper c nele s.mem 0 nele 0).1
        tq := s.tq.spawn? (tqsortHelper c nele s.mem 0 nele 0).2
        main := .joining } := by
  obtain ⟨hmem, htq⟩ := h.start hm
  rw [hmem, htq]
  have hhelper := tqsortHelper_spec (m := m) hq (show 0 + nele ≤ nele by omega) ht hperm
  generalize tqsortHelper c nele m 0 nele 0 = r at *
  -- the only task there can be is the one just spawned
  have hcases : ∀ (i : ℕ) (x : SortTask α),
      ((Group.new : Group (SortTask α)).spawn? r.2).tasks[i]? = some x → i = 0 ∧ r.2 = some x := by
    intro i x hi
    rcases Group.getElem?_spawn?_cases hi with hold | hnew
    · exact absurd hold (by simp [Group.new])
    · exact hnew
  refine ⟨Group.Wf.new.spawn?, ?_, ?_, ?_, ?_, ?_, ?_⟩
  · intro hc
    exact absurd hc (by simp)
  · intro i x hi
    exact hhelper.taskOk (by omega) hperm (hcases i x hi).2
  · intro i j x y hne hi hj
    have h0 := (hcases i x hi).1
    have h0' := (hcases j y hj).1
    omega
  · intro _ k hk hnone
    cases hchild : r.2 with
    | none => exact hhelper.reached hchild k (by omega) (by omega)
    | some y =>
        have hown := (hhelper.owns_iff hchild k).mpr (by omega)
        have hy : ((Group.new : Group (SortTask α)).spawn? r.2).tasks[0]? = some y := by
          rw [hchild]
          exact Group.getElem?_spawn?_new
        exact absurd hown (hnone 0 y hy)
  · intro k hk
    exact ⟨hhelper.frame k (by omega), by rw [hhelper.scratch]⟩
  · intro hc
    exact absurd hc (by simp)

/-- A finished task does not move. -/
theorem SortStep.not_fin {x : SortTask α} {m' : Mem α} {pc : SortPc α}
    {child : Option (SortTask α)} (hstep : SortStep c nele x m pc m' child) : ¬ x.Fin := by
  intro hfin
  unfold SortTask.Fin at hfin
  cases hstep <;> simp_all

/-- **A step of one sort task keeps the invariant of all.** -/
theorem TqsortInv.task_step (h : TqsortInv t c nele m s) {i : ℕ} {x : SortTask α} {pc : SortPc α}
    {m' : Mem α} {child : Option (SortTask α)} (hi : s.tq.tasks[i]? = some x) (hfin : ¬ x.Fin)
    (hok : TaskStepOk t c nele s.mem m' x { x with pc := pc } child) :
    TqsortInv t c nele m
      { s with mem := m', tq := (s.tq.setTask i { x with pc := pc }).spawn? child } := by
  have hle := (h.task i x hi).le
  -- the new list: the task that moved, its child, and the others as they were
  have hcases : ∀ (j : ℕ) (y : SortTask α),
      ((s.tq.setTask i { x with pc := pc }).spawn? child).tasks[j]? = some y →
      (j ≠ i ∧ s.tq.tasks[j]? = some y) ∨ (j = i ∧ y = { x with pc := pc }) ∨
        (j = (s.tq.setTask i { x with pc := pc }).tasks.length ∧ child = some y) := by
    intro j y hj
    rcases Group.getElem?_spawn?_cases hj with hold | hnew
    · rcases getElem?_set_cases hold with hself | hother
      · exact Or.inr (Or.inl hself)
      · exact Or.inl hother
    · exact Or.inr (Or.inr hnew)
  -- a cell of the others is not a cell of `x`
  have hother : ∀ (j : ℕ) (y : SortTask α), j ≠ i → s.tq.tasks[j]? = some y →
      ∀ k, y.owns k → ¬ x.owns k :=
    fun j y hne hj => h.apart j i y x hne hj hi
  refine ⟨?_, ?_, ?_, ?_, ?_, ?_, ?_⟩
  · exact (h.wf.setTask _ hi (fun hc => absurd hc hfin)).spawn?
  · intro hm
    rw [(h.start hm).2] at hi
    exact absurd hi (by simp [Group.new])
  · intro j y hj
    rcases hcases j y hj with ⟨hne, hold⟩ | ⟨rfl, rfl⟩ | ⟨rfl, hnew⟩
    · apply (h.task j y hold).congr
      intro k hk
      exact hok.frame k (hother j y hne hold k hk)
    · exact hok.task
    · exact hok.spawned y hnew
  · -- two of the new list: each is an old one, the task that moved, or its child
    intro j j' y y' hne hj hj' k hk hk'
    rcases hcases j y hj with ⟨hji, hold⟩ | ⟨rfl, rfl⟩ | ⟨rfl, hnew⟩
    · rcases hcases j' y' hj' with ⟨_, hold'⟩ | ⟨rfl, rfl⟩ | ⟨rfl, hnew'⟩
      · exact h.apart j j' y y' hne hold hold' k hk hk'
      · exact hother j y hji hold k hk (hok.keeps k hk')
      · exact hother j y hji hold k hk (hok.gives y' hnew' k hk').1
    · rcases hcases j' y' hj' with ⟨hji', hold'⟩ | ⟨rfl, rfl⟩ | ⟨rfl, hnew'⟩
      · exact hother j' y' hji' hold' k hk' (hok.keeps k hk)
      · exact hne rfl
      · exact (hok.gives y' hnew' k hk').2 hk
    · rcases hcases j' y' hj' with ⟨hji', hold'⟩ | ⟨rfl, rfl⟩ | ⟨rfl, hnew'⟩
      · exact hother j' y' hji' hold' k hk' (hok.gives y hnew k hk).1
      · exact (hok.gives y hnew k hk).2 hk'
      · exact hne rfl
  · intro hm k hk hnone
    have hself : (s.tq.setTask i { x with pc := pc }).tasks[i]? =
        some ({ x with pc := pc } : SortTask α) :=
      List.getElem?_set_self (List.getElem?_eq_some_iff.mp hi).1
    -- a cell the task has given up, or one it never owned
    by_cases hx : x.owns k
    · apply hok.released k hx (hnone i _ (Group.getElem?_spawn? hself))
      intro y hy
      subst hy
      exact hnone _ y Group.getElem?_spawn?_new
    · rw [(hok.frame k hx).1]
      apply h.goal hm k hk
      intro j y hj
      by_cases hji : j = i
      · subst hji
        rw [hi] at hj
        obtain rfl := Option.some.inj hj
        exact hx
      · apply hnone j y (Group.getElem?_spawn? _)
        show (s.tq.tasks.set i _)[j]? = some y
        rw [List.getElem?_set_ne (fun e => hji e.symm)]
        exact hj
  · intro k hk
    have hnot : ¬ x.owns k := by
      unfold SortTask.owns
      omega
    rw [(hok.frame k hnot).1, (hok.frame k hnot).2]
    exact h.frame k hk
  · intro hm
    exact absurd (h.wf.all_finished (h.returned hm) hi) hfin

/-- **The invariant of one step.** -/
theorem TqsortInv.step (h : TqsortInv t c nele m s) (hmax : nele < 2 ^ 31)
    (hq : QsortSorts c.qsort) (ht : SortedOn t 0 nele) (hperm : Toward m.base t 0 nele)
    (hstep : TqsortStep c nele s s') : TqsortInv t c nele m s' := by
  cases hstep with
  | start hm => exact h.start_step hq ht hperm hm
  | task i x pc m' child hi hstep =>
      exact h.task_step hi hstep.not_fin ((h.task i x hi).step hmax hq ht hstep)
  | join tq hm hjoin =>
      have htasks := hjoin.tasks_eq
      have hwf := h.wf.step hjoin
      obtain ⟨tasks, taken, joining⟩ := tq
      dsimp only at htasks
      subst htasks
      refine ⟨hwf, ?_, h.task, h.apart, h.goal, h.frame, ?_⟩
      · intro hc
        rw [hm] at hc
        exact absurd hc (by simp)
      · intro hc
        rw [hm] at hc
        exact absurd hc (by simp)
  | ret hm hempty =>
      refine ⟨h.wf, ?_, h.task, h.apart, ?_, h.frame, fun _ => hempty⟩
      · intro hc
        exact absurd hc (by simp)
      · intro _
        exact h.goal (by rw [hm]; simp)

theorem tqsort_invariant (hmax : nele < 2 ^ 31) (hq : QsortSorts c.qsort) (ht : SortedOn t 0 nele)
    (hperm : Toward m.base t 0 nele) (hs : (tqsortSystem c nele m).Reachable s) :
    TqsortInv t c nele m s := by
  apply System.Reachable.invariant _ _ hs
  · intro s hinit
    rw [hinit]
    exact TqsortInv.init
  · intro s s' _ hinv hstep
    exact hinv.step hmax hq ht hperm hstep

/-! ## §3. Every run ends, and the array is sorted. -/

/-- A bound on the steps left. -/
def Tqsort.cost (nele : ℕ) (s : Tqsort α) : ℕ :=
  s.tq.cost SortTask.cost +
    match s.main with
    | .start => newCost nele + 4
    | .joining => 1
    | .returned => 0

omit [LinearOrder α] in
theorem Group.Wf.cost_spawn? {fin : SortTask α → Prop} {g : Group (SortTask α)} (h : g.Wf fin)
    (child : Option (SortTask α)) :
    (g.spawn? child).cost SortTask.cost = g.cost SortTask.cost + childCost child := by
  cases child with
  | none => rfl
  | some y =>
      unfold childCost
      rw [← Nat.add_assoc]
      exact h.cost_spawn y

theorem TqsortInv.cost_step (h : TqsortInv t c nele m s) (hstep : TqsortStep c nele s s') :
    s'.cost nele < s.cost nele := by
  cases hstep with
  | start hm =>
      have hspawn := h.wf.cost_spawn? (tqsortHelper c nele s.mem 0 nele 0).2
      have hchild := childCost_helper c nele s.mem 0 nele 0
      unfold Tqsort.cost
      rw [hm]
      dsimp only
      omega
  | task i x pc m' child hi hstep =>
      have hset := Group.cost_setTask (w := SortTask.cost) { x with pc := pc } hi
      have hwf := h.wf.setTask { x with pc := pc } hi
        (fun hfin => absurd hfin hstep.not_fin)
      have hspawn := hwf.cost_spawn? child
      have hlt := (h.task i x hi).cost_step hstep
      unfold Tqsort.cost
      dsimp only
      omega
  | join tq hm hjoin =>
      have hcost := hjoin.cost (w := SortTask.cost)
      unfold Tqsort.cost
      dsimp only
      omega
  | ret hm hempty =>
      unfold Tqsort.cost
      rw [hm]
      dsimp only
      omega

/-- As long as `tqsort` has not returned, somebody can move. -/
theorem TqsortInv.progress (h : TqsortInv t c nele m s) (hm : s.main ≠ .returned) :
    ∃ s', TqsortStep c nele s s' := by
  cases hmain : s.main with
  | start => exact ⟨_, .start hmain⟩
  | joining =>
      rcases h.wf.progress with hempty | ⟨tq, hjoin⟩ | ⟨i, x, hi, hfin⟩
      · exact ⟨_, .ret hmain hempty⟩
      · exact ⟨_, .join tq hmain hjoin⟩
      · obtain ⟨pc, m', child, hstep⟩ := (h.task i x hi).progress hfin
        exact ⟨_, .task i x pc m' child hi hstep⟩
  | returned => exact absurd hmain hm

/-- When `tqsort` returns the array is the goal. -/
theorem TqsortInv.reached (h : TqsortInv t c nele m s) (hm : s.main = .returned) :
    ∀ k, k < nele → s.mem.base k = t k := by
  intro k hk
  apply h.goal (by rw [hm]; simp) k hk
  intro i x hi
  -- every task is finished, and a finished task owns nothing
  have hfin : x.pc = .finished := h.wf.all_finished (h.returned hm) hi
  unfold SortTask.owns SortTask.lo
  rw [hfin]
  dsimp only
  omega

/-- **`tqsort` sorts**: whatever the tuning parameters and the order of the tasks, every run
returns, and then the array is a sorted permutation of what it was; nothing behind the two
arrays is written. -/
theorem tqsort_sorts (c : Tuning α) (hq : QsortSorts c.qsort) (nele : ℕ) (hmax : nele < 2 ^ 31)
    (m : Mem α) :
    (tqsortSystem c nele m).EndsIn (fun s => s.main = .returned) ∧
    ∀ s, (tqsortSystem c nele m).Reachable s → s.main = .returned →
      SortedOn s.mem.base 0 nele ∧ (s.mem.base.load 0 nele).Perm (m.base.load 0 nele) ∧
      ∀ k, nele ≤ k → s.mem.base k = m.base k ∧ s.mem.scratch k = m.scratch k := by
  -- the goal: the initial contents, sorted
  obtain ⟨t, ht, hperm⟩ := exists_goal m.base 0 nele
  have hinv : ∀ s, (tqsortSystem c nele m).Reachable s → TqsortInv t c nele m s :=
    fun s hs => tqsort_invariant hmax hq ht hperm hs
  constructor
  · apply System.ends_of_measure (Tqsort.cost nele)
    · intro s s' hs hstep
      exact (hinv s hs).cost_step hstep
    · intro s hs hstuck
      by_contra hm
      obtain ⟨s', hstep⟩ := (hinv s hs).progress hm
      exact hstuck s' hstep
  · intro s hs hm
    have hgoal := (hinv s hs).reached hm
    refine ⟨?_, ?_, (hinv s hs).frame⟩
    · intro i j hi hij hj
      rw [hgoal i (by omega), hgoal j (by omega)]
      exact ht i j hi hij hj
    · rw [load_congr (fun k _ hk => hgoal k (by omega))]
      exact hperm.symm

/-- Five elements and both cutovers at two: the array is partitioned in parallel. -/
theorem tqsort_sorts_five :
    QsortSorts (@insertionQsort UInt64) ∧
    ∀ s, (tqsortSystem (⟨3, 3, 0, insertionQsort⟩ : Tuning UInt64) 5
        ⟨fun i => [5, 3, 4, 1, 2].getD i 0, fun _ => 0⟩).Reachable s → s.main = .returned →
      s.mem.base.load 0 5 = [1, 2, 3, 4, 5] := by
  refine ⟨insertionQsort_sorts, ?_⟩
  intro s hs hm
  obtain ⟨hsorted, hperm, _⟩ :=
    (tqsort_sorts ⟨3, 3, 0, insertionQsort⟩ insertionQsort_sorts 5 (by decide) _).2 s hs hm
  have hgoal : (s.mem.base.load 0 5).Perm [1, 2, 3, 4, 5] := hperm.trans (by decide)
  exact hgoal.eq_of_pairwise' hsorted.pairwise (by decide)

end ComputerScience.Pqsort
