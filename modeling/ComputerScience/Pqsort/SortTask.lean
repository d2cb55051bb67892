/-
  ComputerScience.Pqsort.SortTask
  ───────────────────────────────
  **ONE SORT TASK** (`sort_thread`, `tqsort_helper`, `26-parallelism/pqsort/pqsort.c`).

  A sort task partitions its range, serially or with copy and partition tasks of its own,
  and hands each side to `tqsort_helper`, which sorts it on the spot or spawns a task.

  The goal of the whole sort is one fixed row of cells `t`.  A task owns an interval of
  both arrays.  It writes nowhere else, and what it gives up either belongs to the task it
  spawns or holds the goal (`TaskOk.step`).  Nothing else has to be known about a task to
  put many of them together.
-/
import ComputerScience.Pqsort.PartitionParallel
import Mathlib.Tactic.Linarith
import Mathlib.Tactic.Ring

namespace ComputerScience.Pqsort

open ComputerScience.Lib
open ComputerScience.Lib.Cells

variable {α : Type*}

/-! ## §1. The task. -/

/-- The tuning parameters, and `qsort` of libc. -/
structure Tuning (α : Type*) where
  serialSortFraction : ℕ
  serialPartitionFraction : ℕ
  useQsortLib : ℤ
  qsort : (α → α → ℤ) → Cells α → ℕ → ℕ → Cells α

/-- One of the two cutover sizes that `init_task(nele)` computes. -/
def cutover (fraction nele : ℕ) : ℕ :=
  if fraction > 1 then
    if nele / fraction < 2 then 2 else nele / fraction
  else nele

/-- `nele_max_sort_serial` after `init_task(total)` -/
def Tuning.neleMaxSortSerial (c : Tuning α) (total : ℕ) : ℕ := cutover c.serialSortFraction total

/-- `nele_max_partition_serial` after `init_task(total)` -/
def Tuning.neleMaxPartitionSerial (c : Tuning α) (total : ℕ) : ℕ :=
  cutover c.serialPartitionFraction total

/-- A range above the cutover has at least three elements. -/
theorem two_le_cutover {fraction total n : ℕ} (hn : n ≤ total) (h : cutover fraction total < n) :
    2 ≤ cutover fraction total := by
  unfold cutover at *
  by_cases hf : fraction > 1
  · rw [if_pos hf] at h ⊢
    by_cases hlt : total / fraction < 2
    · rw [if_pos hlt]
    · rw [if_neg hlt]
      omega
  · -- the whole array is below the cutover
    rw [if_neg hf] at h
    omega

/-- Where a `sort_thread` is, with its local variables and the calls it is in. -/
inductive SortPc (α : Type*) where
  | start
  /-- in `dcopy_parallel`, called by `partition_parallel` -/
  | copying (pval : α) (d : Dcopy)
  /-- in the second half of `partition_parallel` -/
  | partitioning (d : Ppar α)
  /-- `partition` has returned `m`; before `if (m > 1)` -/
  | left (m : ℕ)
  /-- before `if (nele-1 > m+1)` -/
  | right (m : ℕ)
  | finished

/-- `sort_task_t`, with the state of its thread. -/
structure SortTask (α : Type*) where
  base : ℕ
  nele : ℕ
  scratchBase : ℕ
  pc : SortPc α

def SortTask.Fin (x : SortTask α) : Prop := x.pc = .finished

/-- `new_task(base, nele, scratch_base, tq)` -/
def newTask (base nele scratchBase : ℕ) : SortTask α := ⟨base, nele, scratchBase, .start⟩

/-- The range holds the elements that the goal has there. -/
def Toward (m t : Cells α) (off n : ℕ) : Prop := (m.load off n).Perm (t.load off n)

theorem Toward.congr {m m' t : Cells α} {off n : ℕ} (h : Toward m t off n)
    (heq : ∀ i, off ≤ i → i < off + n → m' i = m i) : Toward m' t off n := by
  unfold Toward at *
  rw [load_congr heq]
  exact h

variable [LinearOrder α]

/-- `tqsort_helper(base, nele, scratch_base, tq)`: the arrays, and the task it spawns. -/
def tqsortHelper (c : Tuning α) (total : ℕ) (m : Mem α) (base nele scratchBase : ℕ) :
    Mem α × Option (SortTask α) :=
  if nele ≤ c.neleMaxSortSerial total then
    -- `if (use_qsort_lib) qsort_lib(…) else qsort_serial(…)`
    if c.useQsortLib ≠ 0 then ({ m with base := qsortLib c.qsort m.base base nele }, none)
    else ({ m with base := qsortSerial m.base base nele }, none)
  -- `spawn_task(tq, sort_thread, (void *) t)`
  else (m, some (newTask base nele scratchBase))

/-- `if (m > 1) tqsort_helper(base, m, scratch_base, tq);` -/
def sortLeft (c : Tuning α) (total : ℕ) (x : SortTask α) (m : Mem α) (k : ℕ) :
    Mem α × Option (SortTask α) :=
  if k > 1 then tqsortHelper c total m x.base k x.scratchBase else (m, none)

/-- `if (nele-1 > m+1) tqsort_helper(base+m+1, nele-m-1, scratch_base+m+1, tq);` -/
def sortRight (c : Tuning α) (total : ℕ) (x : SortTask α) (m : Mem α) (k : ℕ) :
    Mem α × Option (SortTask α) :=
  if x.nele - 1 > k + 1 then
    tqsortHelper c total m (x.base + k + 1) (x.nele - k - 1) (x.scratchBase + k + 1)
  else (m, none)

/-- One step of a sort task, or of a copy or partition task of it: the new program
counter, the new arrays and the sort task it spawns. -/
inductive SortStep (c : Tuning α) (total : ℕ) (x : SortTask α) (m : Mem α) :
    SortPc α → Mem α → Option (SortTask α) → Prop where
  -- `partition`: `partition_serial` up to the cutover
  | serial (hpc : x.pc = .start) (hcut : x.nele ≤ c.neleMaxPartitionSerial total) :
      SortStep c total x m (.left (partitionSerial m.base x.base x.nele).2)
        { m with base := (partitionSerial m.base x.base x.nele).1 } none
  -- `partition_parallel`: pivot aside, then `dcopy_parallel`
  | select (hpc : x.pc = .start) (hcut : ¬ x.nele ≤ c.neleMaxPartitionSerial total) :
      SortStep c total x m
        (.copying (m.base (pivot x.base x.nele))
          (Dcopy.enter x.base x.scratchBase (x.nele - 1) (c.neleMaxPartitionSerial total)))
        { m with base := m.base.swap (pivot x.base x.nele) (x.base + x.nele - 1) } none
  | copy (pval : α) (d d' : Dcopy) (m' : Mem α) (hpc : x.pc = .copying pval d)
      (hstep : DcopyStep d m d' m') : SortStep c total x m (.copying pval d') m' none
  -- `dcopy_parallel` returns; `init_partition`
  | copied (pval : α) (d : Dcopy) (hpc : x.pc = .copying pval d) (hdone : d.Done) :
      SortStep c total x m
        (.partitioning (Ppar.enter x.base x.nele x.scratchBase pval
          (c.neleMaxPartitionSerial total))) m none
  | part (d d' : Ppar α) (m' : Mem α) (hpc : x.pc = .partitioning d)
      (hstep : PparStep d m d' m') : SortStep c total x m (.partitioning d') m' none
  -- `join_tasks` returns; "Swap pivot back"
  | parted (d : Ppar α) (hpc : x.pc = .partitioning d) (hdone : d.Done) :
      SortStep c total x m (.left d.par.nextLeftIndex)
        { m with
          base := m.base.swap (x.base + d.par.nextLeftIndex) (x.base + x.nele - 1) } none
  | left (k : ℕ) (hpc : x.pc = .left k) :
      SortStep c total x m (.right k) (sortLeft c total x m k).1 (sortLeft c total x m k).2
  | right (k : ℕ) (hpc : x.pc = .right k) :
      SortStep c total x m .finished (sortRight c total x m k).1 (sortRight c total x m k).2

/-! ## §2. What a task owns and what it knows. -/

/-- Where the interval of the task begins; it ends with the range of the task. -/
def SortTask.lo (x : SortTask α) : ℕ :=
  match x.pc with
  | .right k => x.base + k + 1
  | .finished => x.base + x.nele
  | _ => x.base

/-- The cells of both arrays that belong to the task. -/
def SortTask.owns (x : SortTask α) (i : ℕ) : Prop := x.lo ≤ i ∧ i < x.base + x.nele

omit [LinearOrder α] in
/-- Where the interval begins, by the program counter. -/
theorem SortTask.lo_of_pc {x : SortTask α} {pc : SortPc α} (h : x.pc = pc) :
    x.lo = SortTask.lo { x with pc := pc } := by
  rw [← h]

/-- What a task knows at its program counter. -/
def SortPc.Ok (t : Cells α) (x : SortTask α) (cut : ℕ) (m : Mem α) : SortPc α → Prop
  | .start => Toward m.base t x.base x.nele
  | .copying pval d =>
      Toward m.base t x.base x.nele ∧ m.base (x.base + (x.nele - 1)) = pval ∧ DcopyOk d m ∧
        d.src = x.base ∧ d.dest = x.base ∧ d.nele = x.nele - 1 ∧ d.blockSize = cut
  | .partitioning d =>
      (d.par.pval :: m.scratch.load x.base (x.nele - 1)).Perm (t.load x.base x.nele) ∧
        PparOk d m ∧ d.par.base = x.base ∧ d.nele = x.nele
  | .left k =>
      k < x.nele ∧ Toward m.base t x.base k ∧ m.base (x.base + k) = t (x.base + k) ∧
        Toward m.base t (x.base + k + 1) (x.nele - k - 1)
  | .right k => k < x.nele ∧ Toward m.base t (x.base + k + 1) (x.nele - k - 1)
  | .finished => True

/-- The invariant of a sort task. -/
structure TaskOk (t : Cells α) (c : Tuning α) (total : ℕ) (m : Mem α) (x : SortTask α) : Prop where
  same : x.scratchBase = x.base
  le : x.base + x.nele ≤ total
  two_lt : 2 < x.nele
  pc : x.pc.Ok t x (c.neleMaxPartitionSerial total) m

variable {t : Cells α} {c : Tuning α} {total : ℕ} {m m' : Mem α} {x : SortTask α}

/-- **What a task knows depends on its own cells only.** -/
theorem TaskOk.congr (h : TaskOk t c total m x)
    (heq : ∀ i, x.owns i → m'.base i = m.base i ∧ m'.scratch i = m.scratch i) :
    TaskOk t c total m' x := by
  refine ⟨h.same, h.le, h.two_lt, ?_⟩
  have hpcOk := h.pc
  have htwo := h.two_lt
  unfold SortTask.owns SortTask.lo at heq
  cases hpc : x.pc with
  | start =>
      rw [hpc] at hpcOk heq
      dsimp only at heq
      exact Toward.congr hpcOk (fun i hlo hhi => (heq i ⟨hlo, hhi⟩).1)
  | copying pval d =>
      rw [hpc] at hpcOk heq
      dsimp only at heq
      obtain ⟨hperm, hpval, hd, hsrc, hdest, hnele, hblock⟩ := hpcOk
      refine ⟨?_, ?_, ?_, hsrc, hdest, hnele, hblock⟩
      · exact hperm.congr (fun i hlo hhi => (heq i ⟨hlo, hhi⟩).1)
      · rw [(heq _ ⟨by omega, by omega⟩).1]
        exact hpval
      · apply hd.congr
        · intro i hlo hhi
          exact (heq i ⟨by omega, by omega⟩).1
        · intro i hlo hhi
          exact (heq i ⟨by omega, by omega⟩).2
  | partitioning d =>
      rw [hpc] at hpcOk heq
      dsimp only at heq
      obtain ⟨hperm, hd, hbase, hnele⟩ := hpcOk
      refine ⟨?_, ?_, hbase, hnele⟩
      · rw [load_congr (fun i hlo hhi => (heq i ⟨hlo, by omega⟩).2)]
        exact hperm
      · apply hd.congr
        · intro i hlo hhi
          exact (heq i ⟨by omega, by omega⟩).1
        · intro i hlo hhi
          exact (heq i ⟨by omega, by omega⟩).2
  | left k =>
      rw [hpc] at hpcOk heq
      dsimp only at heq
      obtain ⟨hk, hleft, hpivot, hright⟩ := hpcOk
      refine ⟨hk, ?_, ?_, ?_⟩
      · exact hleft.congr (fun i hlo hhi => (heq i ⟨hlo, by omega⟩).1)
      · rw [(heq _ ⟨by omega, by omega⟩).1]
        exact hpivot
      · exact hright.congr (fun i hlo hhi => (heq i ⟨by omega, by omega⟩).1)
  | right k =>
      rw [hpc] at hpcOk heq
      dsimp only at heq
      obtain ⟨hk, hright⟩ := hpcOk
      exact ⟨hk, hright.congr (fun i hlo hhi => (heq i ⟨hlo, by omega⟩).1)⟩
  | finished => trivial

/-! ## §3. `tqsort_helper`. -/

/-- `tqsort_helper` has sorted the range, or spawned a task for it. -/
structure HelperOk (t : Cells α) (m : Mem α) (r : Mem α × Option (SortTask α))
    (base nele : ℕ) : Prop where
  task : ∀ y, r.2 = some y → y = newTask base nele base ∧ r.1 = m ∧ 2 < nele
  reached : r.2 = none → ∀ i, base ≤ i → i < base + nele → r.1.base i = t i
  frame : ∀ i, i < base ∨ base + nele ≤ i → r.1.base i = m.base i
  scratch : r.1.scratch = m.scratch

omit [LinearOrder α] in
theorem HelperOk.of_reached {base nele : ℕ} {b : Cells α} (h : Reached m.base b t base nele) :
    HelperOk t m ({ m with base := b }, none) base nele := by
  refine ⟨?_, fun _ => h.1, h.2, rfl⟩
  intro y hy
  exact absurd hy (by simp)

/-- **`tqsort_helper`**, whichever serial sort is chosen. -/
theorem tqsortHelper_spec (hq : QsortSorts c.qsort) {base nele : ℕ} (hle : base + nele ≤ total)
    (ht : SortedOn t base nele) (hperm : Toward m.base t base nele) :
    HelperOk t m (tqsortHelper c total m base nele base) base nele := by
  unfold tqsortHelper
  by_cases hcut : nele ≤ c.neleMaxSortSerial total
  · rw [if_pos hcut]
    by_cases huse : c.useQsortLib ≠ 0
    · rw [if_pos huse]
      exact HelperOk.of_reached (qsortLib_spec hq m.base t base nele ht hperm)
    · rw [if_neg huse]
      exact HelperOk.of_reached (qsortSerial_spec m.base t base nele ht hperm)
  · rw [if_neg hcut]
    -- above the cutover: a task, for a range of at least three elements
    have htwo := two_le_cutover (n := nele) (by omega) (not_le.mp hcut)
    refine ⟨?_, ?_, fun _ _ => rfl, rfl⟩
    · intro y hy
      refine ⟨(Option.some.inj hy).symm, rfl, ?_⟩
      unfold Tuning.neleMaxSortSerial at hcut
      omega
    · intro hnone
      exact absurd hnone (by simp)

/-- The guarded calls of `sort_thread`: a range that is too short for a call is sorted. -/
theorem guardedHelper_spec (hq : QsortSorts c.qsort) {base nele : ℕ} (hle : base + nele ≤ total)
    (ht : SortedOn t base nele) (hperm : Toward m.base t base nele) (guard : Prop)
    [Decidable guard] (hguard : ¬ guard → nele ≤ 1) :
    HelperOk t m (if guard then tqsortHelper c total m base nele base else (m, none)) base nele := by
  by_cases h : guard
  · rw [if_pos h]
    exact tqsortHelper_spec hq hle ht hperm
  · rw [if_neg h]
    exact HelperOk.of_reached ⟨eq_of_le_one (hguard h) hperm, fun _ _ => rfl⟩

/-- A task spawned by `tqsort_helper` starts well. -/
theorem HelperOk.taskOk {r : Mem α × Option (SortTask α)} {base nele : ℕ}
    (h : HelperOk t m r base nele) (hle : base + nele ≤ total)
    (hperm : Toward m.base t base nele) {y : SortTask α} (hy : r.2 = some y) :
    TaskOk t c total r.1 y := by
  obtain ⟨rfl, hm, htwo⟩ := h.task y hy
  rw [hm]
  exact ⟨rfl, hle, htwo, hperm⟩

omit [LinearOrder α] in
/-- It owns the range it was spawned for. -/
theorem HelperOk.owns_iff {r : Mem α × Option (SortTask α)} {base nele : ℕ}
    (h : HelperOk t m r base nele) {y : SortTask α} (hy : r.2 = some y) (i : ℕ) :
    y.owns i ↔ base ≤ i ∧ i < base + nele := by
  obtain ⟨rfl, _, _⟩ := h.task y hy
  exact Iff.rfl

/-! ## §4. One step. -/

/-- What a step of the task `x` to `x'` means to the rest of the program. -/
structure TaskStepOk (t : Cells α) (c : Tuning α) (total : ℕ) (m m' : Mem α) (x x' : SortTask α)
    (child : Option (SortTask α)) : Prop where
  task : TaskOk t c total m' x'
  spawned : ∀ y, child = some y → TaskOk t c total m' y
  frame : ∀ i, ¬ x.owns i → m'.base i = m.base i ∧ m'.scratch i = m.scratch i
  keeps : ∀ i, x'.owns i → x.owns i
  gives : ∀ y, child = some y → ∀ i, y.owns i → x.owns i ∧ ¬ x'.owns i
  released : ∀ i, x.owns i → ¬ x'.owns i → (∀ y, child = some y → ¬ y.owns i) → m'.base i = t i

/-- A step that keeps the whole range: all of `partition`. -/
theorem TaskStepOk.inner (h : TaskOk t c total m x) {pc : SortPc α}
    (hlo : x.lo = x.base) (hlo' : SortTask.lo { x with pc := pc } = x.base)
    (hpc : pc.Ok t x (c.neleMaxPartitionSerial total) m')
    (hframe : ∀ i, i < x.base ∨ x.base + x.nele ≤ i →
      m'.base i = m.base i ∧ m'.scratch i = m.scratch i) :
    TaskStepOk t c total m m' x { x with pc := pc } none := by
  have howns : ∀ i, SortTask.owns { x with pc := pc } i ↔ x.owns i := by
    intro i
    unfold SortTask.owns
    rw [hlo, hlo']
  refine ⟨⟨h.same, h.le, h.two_lt, ?_⟩, ?_, ?_, fun i hi => (howns i).mp hi, ?_, ?_⟩
  · -- what is known at a program counter speaks of the range only
    cases pc <;> exact hpc
  · intro y hy
    exact absurd hy (by simp)
  · intro i hi
    apply hframe
    unfold SortTask.owns at hi
    omega
  · intro y hy
    exact absurd hy (by simp)
  · intro i hi hi'
    exact absurd ((howns i).mpr hi) hi'

/-- A partitioned range: the two sides and the pivot. -/
theorem left_ok_of_split {b : Cells α} {cut k : ℕ} {p : α} (ht : SortedOn t x.base x.nele)
    (hperm : Toward b t x.base x.nele) (hsplit : Split b x.base x.nele k p) :
    (SortPc.left k).Ok t x cut { m with base := b } :=
  ⟨hsplit.lt, hsplit.goal ht hperm⟩

/-- `partition_serial` -/
theorem TaskOk.serial (h : TaskOk t c total m x) (ht : SortedOn t x.base x.nele)
    (hpc : x.pc = .start) :
    TaskStepOk t c total m { m with base := (partitionSerial m.base x.base x.nele).1 } x
      { x with pc := .left (partitionSerial m.base x.base x.nele).2 } none := by
  have hperm := h.pc
  rw [hpc] at hperm
  have htwo := h.two_lt
  obtain ⟨hrearr, hsplit⟩ := partitionSerial_spec m.base x.base x.nele (by omega)
  apply TaskStepOk.inner h (SortTask.lo_of_pc hpc) rfl
  · exact left_ok_of_split ht (hrearr.perm.trans hperm) hsplit
  · intro i hi
    exact ⟨hrearr.frame i hi, rfl⟩

/-- The beginning of `partition_parallel`: the pivot goes to the end of the range. -/
theorem TaskOk.select (h : TaskOk t c total m x) (hmax : total < 2 ^ 31) (hpc : x.pc = .start)
    (hcut : ¬ x.nele ≤ c.neleMaxPartitionSerial total) :
    TaskStepOk t c total m
      { m with base := m.base.swap (pivot x.base x.nele) (x.base + x.nele - 1) } x
      { x with
        pc := .copying (m.base (pivot x.base x.nele))
          (Dcopy.enter x.base x.scratchBase (x.nele - 1) (c.neleMaxPartitionSerial total)) }
      none := by
  have hperm := h.pc
  rw [hpc] at hperm
  have hle := h.le
  -- the block size of both parallel routines
  have hsize : 2 ≤ c.neleMaxPartitionSerial total :=
    two_le_cutover (n := x.nele) (by omega) (not_le.mp hcut)
  have hrearr : Rearranged m.base (m.base.swap (pivot x.base x.nele) (x.base + x.nele - 1))
      x.base x.nele := by
    apply Rearranged.swap
    · unfold pivot
      omega
    · omega
  apply TaskStepOk.inner h (SortTask.lo_of_pc hpc) rfl
  · refine ⟨hrearr.perm.trans hperm, ?_, ?_, rfl, h.same, rfl, rfl⟩
    · show m.base.swap (pivot x.base x.nele) (x.base + x.nele - 1) (x.base + (x.nele - 1)) = _
      rw [show x.base + (x.nele - 1) = x.base + x.nele - 1 by omega, swap_right]
    · exact DcopyOk.enter ⟨by omega, by omega, by omega, by omega⟩ _
  · intro i hi
    exact ⟨hrearr.frame i hi, rfl⟩

/-- A step of the parallel copy. -/
theorem TaskOk.copy (h : TaskOk t c total m x) {pval : α} {d d' : Dcopy}
    (hpc : x.pc = .copying pval d) (hstep : DcopyStep d m d' m') :
    TaskStepOk t c total m m' x { x with pc := .copying pval d' } none := by
  have hok := h.pc
  rw [hpc] at hok
  obtain ⟨hperm, hpval, hd, hsrc, hdest, hnele, hblock⟩ := hok
  obtain ⟨hd', ⟨hsrc', hdest', hnele', hblock'⟩, hbase, hscratch⟩ := hd.step hstep
  apply TaskStepOk.inner h (SortTask.lo_of_pc hpc) rfl
  · refine ⟨?_, ?_, hd', hsrc'.trans hsrc, hdest'.trans hdest, hnele'.trans hnele,
      hblock'.trans hblock⟩
    · rw [hbase]
      exact hperm
    · rw [hbase]
      exact hpval
  · intro i hi
    exact ⟨by rw [hbase], hscratch i (by omega)⟩

/-- The copy is complete. -/
theorem TaskOk.copied (h : TaskOk t c total m x) {pval : α} {d : Dcopy}
    (hpc : x.pc = .copying pval d) (hdone : d.Done) :
    TaskStepOk t c total m m x
      { x with
        pc := .partitioning (Ppar.enter x.base x.nele x.scratchBase pval
          (c.neleMaxPartitionSerial total)) } none := by
  have hok := h.pc
  rw [hpc] at hok
  obtain ⟨hperm, hpval, hd, hsrc, hdest, hnele, hblock⟩ := hok
  have htwo := h.two_lt
  have hcopied := hd.done hdone
  have hsized := hd.sized
  rw [hsrc, hdest, hnele] at hcopied
  rw [hnele, hblock] at hsized
  apply TaskStepOk.inner h (SortTask.lo_of_pc hpc) rfl
  · refine ⟨?_, ?_, rfl, rfl⟩
    · show (pval :: m.scratch.load x.base (x.nele - 1)).Perm (t.load x.base x.nele)
      -- the scratch array holds everything but the pivot
      rw [hcopied, ← hpval]
      exact (cons_last_perm m.base (by omega)).trans hperm
    · rw [h.same]
      exact PparOk.enter hsized hpval
  · intro i hi
    exact ⟨rfl, rfl⟩

/-- A step of the partition tasks. -/
theorem TaskOk.part (h : TaskOk t c total m x) {d d' : Ppar α} (hpc : x.pc = .partitioning d)
    (hstep : PparStep d m d' m') :
    TaskStepOk t c total m m' x { x with pc := .partitioning d' } none := by
  have hok := h.pc
  rw [hpc] at hok
  obtain ⟨hperm, hd, hbase, hnele⟩ := hok
  obtain ⟨hd', hframe⟩ := hd.step hstep
  have hscratch := hframe.scratch
  rw [hbase, hnele] at hscratch
  apply TaskStepOk.inner h (SortTask.lo_of_pc hpc) rfl
  · refine ⟨?_, hd', hframe.base.trans hbase, hframe.nele.trans hnele⟩
    rw [hframe.pval]
    exact (hscratch.perm.cons _).trans hperm
  · intro i hi
    exact ⟨hframe.frame i (by omega), hscratch.frame i (by omega)⟩

/-- The end of `partition_parallel`: the pivot goes between the two sides. -/
theorem TaskOk.parted (h : TaskOk t c total m x) (ht : SortedOn t x.base x.nele) {d : Ppar α}
    (hpc : x.pc = .partitioning d) (hdone : d.Done) :
    TaskStepOk t c total m
      { m with base := m.base.swap (x.base + d.par.nextLeftIndex) (x.base + x.nele - 1) } x
      { x with pc := .left d.par.nextLeftIndex } none := by
  have hok := h.pc
  rw [hpc] at hok
  obtain ⟨hperm, hd, hbase, hnele⟩ := hok
  have htwo := h.two_lt
  have hle := (hd.done hdone).1
  obtain ⟨hsplit, hback⟩ := hd.parted hdone
  rw [hbase, hnele] at hsplit hback
  rw [hnele] at hle
  apply TaskStepOk.inner h (SortTask.lo_of_pc hpc) rfl
  · exact left_ok_of_split ht (hback.trans hperm) hsplit
  · intro i hi
    exact ⟨swap_of_ne m.base (by omega) (by omega), rfl⟩

/-- A step that gives a part of the range to `tqsort_helper`. -/
theorem TaskStepOk.outer (h : TaskOk t c total m x) {pc : SortPc α}
    {r : Mem α × Option (SortTask α)} {off n : ℕ} (hr : HelperOk t m r off n)
    (hperm : Toward m.base t off n) (hin : x.lo ≤ off ∧ off + n ≤ x.base + x.nele)
    (hlo : x.lo ≤ SortTask.lo { x with pc := pc })
    (hoff : off + n ≤ SortTask.lo { x with pc := pc })
    (hpc : pc.Ok t x (c.neleMaxPartitionSerial total) r.1)
    (hgap : ∀ i, x.lo ≤ i → i < SortTask.lo { x with pc := pc } → i < off ∨ off + n ≤ i →
      m.base i = t i) :
    TaskStepOk t c total m r.1 x { x with pc := pc } r.2 := by
  have hle := h.le
  have howns : ∀ i, SortTask.owns { x with pc := pc } i ↔
      SortTask.lo { x with pc := pc } ≤ i ∧ i < x.base + x.nele := fun i => Iff.rfl
  refine ⟨⟨h.same, h.le, h.two_lt, ?_⟩, ?_, ?_, ?_, ?_, ?_⟩
  · cases pc <;> exact hpc
  · intro y hy
    exact hr.taskOk (by omega) hperm hy
  · intro i hi
    unfold SortTask.owns at hi
    exact ⟨hr.frame i (by omega), by rw [hr.scratch]⟩
  · intro i hi
    rw [howns] at hi
    unfold SortTask.owns
    omega
  · intro y hy i hi
    have hyi := (hr.owns_iff hy i).mp hi
    rw [howns]
    unfold SortTask.owns
    omega
  · intro i hi hi' hnone
    rw [howns] at hi'
    unfold SortTask.owns at hi
    by_cases hpart : off ≤ i ∧ i < off + n
    · -- the cell was given away: it is sorted, or the new task owns it
      cases hchild : r.2 with
      | none => exact hr.reached hchild i hpart.1 hpart.2
      | some y =>
          exact absurd ((hr.owns_iff hchild i).mpr hpart) (hnone y hchild)
    · rw [hr.frame i (by omega)]
      exact hgap i (by omega) (by omega) (by omega)

/-- The left side is sorted or spawned; the pivot is where it belongs. -/
theorem TaskOk.left (h : TaskOk t c total m x) (hq : QsortSorts c.qsort)
    (ht : SortedOn t x.base x.nele) {k : ℕ} (hpc : x.pc = .left k) :
    TaskStepOk t c total m (sortLeft c total x m k).1 x { x with pc := .right k }
      (sortLeft c total x m k).2 := by
  have hok := h.pc
  rw [hpc] at hok
  obtain ⟨hk, hleft, hpivot, hright⟩ := hok
  have hle := h.le
  have hhelper : HelperOk t m (sortLeft c total x m k) x.base k := by
    unfold sortLeft
    rw [h.same]
    exact guardedHelper_spec hq (by omega) (ht.mono (by omega) (by omega)) hleft (k > 1) (by omega)
  have hlo : x.lo = x.base := SortTask.lo_of_pc hpc
  have hlo' : SortTask.lo ({ x with pc := .right k } : SortTask α) = x.base + k + 1 := rfl
  apply TaskStepOk.outer h hhelper hleft
  · omega
  · omega
  · omega
  · refine ⟨hk, hright.congr ?_⟩
    intro i hlo hhi
    exact hhelper.frame i (by omega)
  · intro i hlo hhi hout
    -- the only cell given up besides the left side is the pivot's
    rw [show i = x.base + k by omega]
    exact hpivot

/-- The right side is sorted or spawned, and the task ends. -/
theorem TaskOk.right (h : TaskOk t c total m x) (hq : QsortSorts c.qsort)
    (ht : SortedOn t x.base x.nele) {k : ℕ} (hpc : x.pc = .right k) :
    TaskStepOk t c total m (sortRight c total x m k).1 x { x with pc := .finished }
      (sortRight c total x m k).2 := by
  have hok := h.pc
  rw [hpc] at hok
  obtain ⟨hk, hright⟩ := hok
  have hle := h.le
  have hhelper : HelperOk t m (sortRight c total x m k) (x.base + k + 1) (x.nele - k - 1) := by
    unfold sortRight
    rw [h.same]
    exact guardedHelper_spec hq (by omega) (ht.mono (by omega) (by omega)) hright
      (x.nele - 1 > k + 1) (by omega)
  have hlo : x.lo = x.base + k + 1 := SortTask.lo_of_pc hpc
  have hlo' : SortTask.lo ({ x with pc := .finished } : SortTask α) = x.base + x.nele := rfl
  apply TaskStepOk.outer h hhelper hright
  · omega
  · omega
  · omega
  · trivial
  · intro i hlo hhi hout
    -- nothing is given up besides the right side
    exact absurd hout (by omega)

/-- **One step of a sort task**, whatever the others do. -/
theorem TaskOk.step (h : TaskOk t c total m x) (hmax : total < 2 ^ 31)
    (hq : QsortSorts c.qsort) (ht : SortedOn t 0 total) {pc : SortPc α}
    {child : Option (SortTask α)} (hstep : SortStep c total x m pc m' child) :
    TaskStepOk t c total m m' x { x with pc := pc } child := by
  have hle := h.le
  have htx : SortedOn t x.base x.nele := ht.mono (by omega) (by omega)
  cases hstep with
  | serial hpc hcut => exact h.serial htx hpc
  | select hpc hcut => exact h.select hmax hpc hcut
  | copy pval d d' m' hpc hstep => exact h.copy hpc hstep
  | copied pval d hpc hdone => exact h.copied hpc hdone
  | part d d' m' hpc hstep => exact h.part hpc hstep
  | parted d hpc hdone => exact h.parted htx hpc hdone
  | left k hpc => exact h.left hq htx hpc
  | right k hpc => exact h.right hq htx hpc

/-- A task that is not finished can move. -/
theorem TaskOk.progress (h : TaskOk t c total m x) (hfin : ¬ x.Fin) :
    ∃ pc m' child, SortStep c total x m pc m' child := by
  have hok := h.pc
  cases hpc : x.pc with
  | start =>
      by_cases hcut : x.nele ≤ c.neleMaxPartitionSerial total
      · exact ⟨_, _, _, .serial hpc hcut⟩
      · exact ⟨_, _, _, .select hpc hcut⟩
  | copying pval d =>
      rw [hpc] at hok
      rcases hok.2.2.1.progress with hdone | ⟨d', m', hstep⟩
      · exact ⟨_, _, _, .copied pval d hpc hdone⟩
      · exact ⟨_, _, _, .copy pval d d' m' hpc hstep⟩
  | partitioning d =>
      rw [hpc] at hok
      rcases hok.2.1.progress with hdone | ⟨d', m', hstep⟩
      · exact ⟨_, _, _, .parted d hpc hdone⟩
      · exact ⟨_, _, _, .part d d' m' hpc hstep⟩
  | left k => exact ⟨_, _, _, .left k hpc⟩
  | right k => exact ⟨_, _, _, .right k hpc⟩
  | finished => exact absurd hpc hfin

/-! ## §5. What is left to do. -/

/-- A bound on the steps of a new task for `n` elements, with all it spawns. -/
def newCost (n : ℕ) : ℕ := 10 * (n * n)

theorem newCost_succ (n : ℕ) : newCost (n + 1) = newCost n + 20 * n + 10 := by
  unfold newCost
  ring

/-- The two sides together are cheaper than what they came from. -/
theorem newCost_split {n k : ℕ} (hk : k < n) :
    newCost k + newCost (n - k - 1) ≤ newCost (n - 1) := by
  obtain ⟨b, rfl⟩ : ∃ b, n = k + b + 1 := ⟨n - k - 1, by omega⟩
  rw [show k + b + 1 - k - 1 = b by omega, show k + b + 1 - 1 = k + b by omega]
  unfold newCost
  nlinarith [Nat.zero_le (k * b)]

/-- A bound on the steps of a task, with all it spawns. -/
def SortTask.cost (x : SortTask α) : ℕ :=
  match x.pc with
  | .start => newCost x.nele
  | .copying _ d => newCost (x.nele - 1) + 6 * (x.nele - 1) + 8 + d.cost
  | .partitioning d => newCost (x.nele - 1) + 7 + d.cost
  | .left k => newCost k + newCost (x.nele - k - 1) + 6
  | .right k => newCost (x.nele - k - 1) + 3
  | .finished => 0

omit [LinearOrder α] in
theorem SortTask.cost_of_pc {x : SortTask α} {pc : SortPc α} (h : x.pc = pc) :
    x.cost = SortTask.cost { x with pc := pc } := by
  rw [← h]

/-- The steps of a spawned task, and two to join it. -/
def childCost : Option (SortTask α) → ℕ
  | none => 0
  | some y => y.cost + 2

/-- The steps of what a call of `tqsort_helper` spawns. -/
theorem childCost_helper (c : Tuning α) (total : ℕ) (m : Mem α) (base nele scratchBase : ℕ) :
    childCost (tqsortHelper c total m base nele scratchBase).2 ≤ newCost nele + 2 := by
  unfold tqsortHelper
  split
  · split
    · exact Nat.zero_le _
    · exact Nat.zero_le _
  · exact Nat.le_refl _

/-- The same behind a test. -/
theorem childCost_guarded (c : Tuning α) (total : ℕ) (m : Mem α) (base nele scratchBase : ℕ)
    (guard : Prop) [Decidable guard] :
    childCost (if guard then tqsortHelper c total m base nele scratchBase else (m, none)).2 ≤
      newCost nele + 2 := by
  split
  · exact childCost_helper c total m base nele scratchBase
  · exact Nat.zero_le _

/-- **Every step of a sort task counts**, the spawned task included. -/
theorem TaskOk.cost_step (h : TaskOk t c total m x) {pc : SortPc α}
    {child : Option (SortTask α)} (hstep : SortStep c total x m pc m' child) :
    SortTask.cost { x with pc := pc } + childCost child < x.cost := by
  have htwo := h.two_lt
  have hle := h.le
  have hok := h.pc
  have hwhole : newCost x.nele = newCost (x.nele - 1) + 20 * (x.nele - 1) + 10 := by
    rw [← newCost_succ, Nat.sub_add_cancel (by omega)]
  cases hstep with
  | serial hpc hcut =>
      have hk := (partitionSerial_spec m.base x.base x.nele (by omega)).2.lt
      have hsplit := newCost_split hk
      have hx : x.cost = newCost x.nele :=
        SortTask.cost_of_pc hpc
      rw [hx]
      show newCost _ + newCost (x.nele - _ - 1) + 6 + 0 < _
      omega
  | select hpc hcut =>
      have hsize : 2 ≤ c.neleMaxPartitionSerial total :=
        two_le_cutover (n := x.nele) (by omega) (not_le.mp hcut)
      have hcount : blockCount (x.nele - 1) (c.neleMaxPartitionSerial total) ≤ x.nele - 1 :=
        blockCount_le (by omega) (by omega)
      have hx : x.cost = newCost x.nele :=
        SortTask.cost_of_pc hpc
      rw [hx]
      show newCost (x.nele - 1) + 6 * (x.nele - 1) + 8 +
        (4 * (blockCount (x.nele - 1) (c.neleMaxPartitionSerial total) - 0) + 0) + 0 < _
      omega
  | copy pval d d' m' hpc hstep =>
      rw [hpc] at hok
      have hcost := hok.2.2.1.cost_step hstep
      have hx : x.cost = newCost (x.nele - 1) + 6 * (x.nele - 1) + 8 + d.cost :=
        SortTask.cost_of_pc hpc
      rw [hx]
      show newCost (x.nele - 1) + 6 * (x.nele - 1) + 8 + d'.cost + 0 < _
      omega
  | copied pval d hpc hdone =>
      rw [hpc] at hok
      obtain ⟨_, _, hd, _, _, hnele, hblock⟩ := hok
      have hsized := hd.sized
      rw [hnele, hblock] at hsized
      have hcount := blockCount_le hsized.block_pos hsized.pos
      have hx : x.cost = newCost (x.nele - 1) + 6 * (x.nele - 1) + 8 + d.cost :=
        SortTask.cost_of_pc hpc
      rw [hx]
      show newCost (x.nele - 1) + 7 +
        (6 * (blockCount (x.nele - 1) (c.neleMaxPartitionSerial total) - 0) + 0) + 0 < _
      omega
  | part d d' m' hpc hstep =>
      rw [hpc] at hok
      have hcost := hok.2.1.cost_step hstep
      have hx : x.cost = newCost (x.nele - 1) + 7 + d.cost :=
        SortTask.cost_of_pc hpc
      rw [hx]
      show newCost (x.nele - 1) + 7 + d'.cost + 0 < _
      omega
  | parted d hpc hdone =>
      rw [hpc] at hok
      obtain ⟨_, hd, _, hnele⟩ := hok
      have hk := (hd.done hdone).1
      rw [hnele] at hk
      have hsplit := newCost_split (n := x.nele) (k := d.par.nextLeftIndex) (by omega)
      have hx : x.cost = newCost (x.nele - 1) + 7 + d.cost :=
        SortTask.cost_of_pc hpc
      rw [hx]
      show newCost _ + newCost (x.nele - _ - 1) + 6 + 0 < _
      omega
  | left k hpc =>
      have hx : x.cost = newCost k + newCost (x.nele - k - 1) + 6 :=
        SortTask.cost_of_pc hpc
      have hchild : childCost (sortLeft c total x m k).2 ≤ newCost k + 2 :=
        childCost_guarded c total m _ _ _ (k > 1)
      rw [hx]
      show newCost (x.nele - k - 1) + 3 + childCost (sortLeft c total x m k).2 < _
      omega
  | right k hpc =>
      have hx : x.cost = newCost (x.nele - k - 1) + 3 :=
        SortTask.cost_of_pc hpc
      have hchild : childCost (sortRight c total x m k).2 ≤ newCost (x.nele - k - 1) + 2 :=
        childCost_guarded c total m _ _ _ (x.nele - 1 > k + 1)
      rw [hx]
      show 0 + childCost (sortRight c total x m k).2 < _
      omega

end ComputerScience.Pqsort
