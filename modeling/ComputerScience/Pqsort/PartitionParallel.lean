/-
  ComputerScience.Pqsort.PartitionParallel
  ────────────────────────────────────────
  **THE PARTITION TASKS OF** `partition_parallel` (`26-parallelism/pqsort/pqsort.c`).

  After the copy to the scratch array, one task per block sweeps its block there, reserves
  its destinations under a mutex and copies the two parts back: the left parts pile up
  from the left end, the right parts from the right end.  Each of the three pieces of a
  task is one step, and the tasks interleave in any way.

  The invariant `PparOk` holds at every interleaving (`PparOk.step`): every block has room
  between the two piles (`PparOk.room`), and when all tasks have finished the piles have
  met, with everything up to the pivot on the left (`PparOk.done`).
-/
import ComputerScience.Pqsort.Layout
import ComputerScience.Pqsort.Partition

namespace ComputerScience.Pqsort

open ComputerScience.Lib
open ComputerScience.Lib.Cells

variable {α : Type*}

/-! ## §1. The tasks. -/

/-- `partition_t`; `base` and `scratchBase` are offsets into the two arrays. -/
structure PartitionT (α : Type*) where
  base : ℕ
  scratchBase : ℕ
  nextLeftIndex : ℕ
  nextRightIndex : ℕ
  pval : α

/-- `init_partition` -/
def initPartition (base nele scratchBase : ℕ) (pval : α) : PartitionT α :=
  ⟨base, scratchBase, 0, nele, pval⟩

/-- Where a `partition_thread` is, with its local variables. -/
inductive PartPc where
  | start
  /-- swept, before the mutex -/
  | swept (nleft : ℕ)
  /-- after the mutex, before the two `bcopy` calls -/
  | placed (nleft leftIndex rightIndex : ℕ)
  | finished (nleft leftIndex rightIndex : ℕ)
  deriving DecidableEq, Repr

/-- `partition_task_t`, with the state of its thread. -/
structure PartTask where
  nele : ℕ
  srcIndex : ℕ
  pc : PartPc
  deriving DecidableEq, Repr

def PartPc.isFinished : PartPc → Bool
  | .finished _ _ _ => true
  | _ => false

def PartTask.Fin (t : PartTask) : Prop := t.pc.isFinished = true

/-- A call of `partition_parallel` after its copy: the loop counter, the shared record and
the task queue. -/
structure Ppar (α : Type*) where
  nele : ℕ
  blockSize : ℕ
  b : ℕ
  par : PartitionT α
  tq : Group PartTask

/-- `new_partition_task(bnele, src_index, &partition)` for the block of the loop counter. -/
def Ppar.newTask (d : Ppar α) : PartTask where
  nele := partBnele d.nele d.blockSize d.b
  srcIndex := partSrcIndex d.nele d.blockSize d.b
  pc := .start

/-- The critical section of `partition_thread`. -/
def PartitionT.reserve (par : PartitionT α) (nleft nright : ℕ) : PartitionT α :=
  { par with
    nextLeftIndex := sizeT (par.nextLeftIndex + nleft)
    nextRightIndex := sizeT (par.nextRightIndex - nright) }

/-- The two `bcopy` calls of `partition_thread`. -/
def moveParts (m : Mem α) (par : PartitionT α) (t : PartTask) (nleft leftIndex rightIndex : ℕ) :
    Mem α :=
  { m with
    base := (m.base.store (par.base + leftIndex)
        (m.scratch.load (par.scratchBase + t.srcIndex) nleft)).store (par.base + rightIndex)
      (m.scratch.load (par.scratchBase + t.srcIndex + nleft) (t.nele - nleft)) }

/-- The two copies land on the two destinations. -/
theorem moveParts_moved {m : Mem α} {par : PartitionT α} {t : PartTask} {nleft li ri : ℕ}
    (hsame : par.scratchBase = par.base) (hdis : li + nleft ≤ ri) :
    (⟨t.srcIndex, nleft, t.nele - nleft, li, ri⟩ : Place).Moved
      (moveParts m par t nleft li ri) par.base := by
  have hl : ∀ off n, (m.scratch.load off n).length = n := length_load m.scratch
  unfold Place.Moved Place.left Place.right moveParts
  rw [hsame]
  constructor
  · show ((m.base.store _ _).store _ _).load (par.base + li) nleft =
      m.scratch.load (par.base + t.srcIndex) nleft
    rw [load_store_of_disjoint _ (by omega)]
    have := load_store_self m.base (par.base + li) (m.scratch.load (par.base + t.srcIndex) nleft)
    rwa [hl] at this
  · have := load_store_self (m.base.store (par.base + li)
        (m.scratch.load (par.base + t.srcIndex) nleft)) (par.base + ri)
      (m.scratch.load (par.base + t.srcIndex + nleft) (t.nele - nleft))
    rwa [hl] at this

/-- The two copies write the destinations only. -/
theorem moveParts_frame {m : Mem α} {par : PartitionT α} {t : PartTask} {nleft li ri : ℕ} {i : ℕ}
    (hleft : i < par.base + li ∨ par.base + li + nleft ≤ i)
    (hright : i < par.base + ri ∨ par.base + ri + (t.nele - nleft) ≤ i) :
    (moveParts m par t nleft li ri).base i = m.base i := by
  unfold moveParts
  show ((m.base.store _ _).store _ _) i = m.base i
  rw [store_apply_of_not_mem _ (by rw [length_load]; exact hright),
    store_apply_of_not_mem _ (by rw [length_load]; exact hleft)]

/-- One step of the call or of one of its tasks. -/
inductive PparStep [LinearOrder α] (d : Ppar α) (m : Mem α) : Ppar α → Mem α → Prop where
  -- an iteration of the `for` loop of `partition_parallel`
  | spawn (hb : (d.b : ℤ) < partNblock d.nele d.blockSize) :
      PparStep d m { d with b := d.b + 1, tq := d.tq.spawn d.newTask } m
  -- `partition_sweep(par->scratch_base + src_index, nele, par->pval)`
  | sweep (i : ℕ) (t : PartTask) (hi : d.tq.tasks[i]? = some t) (hpc : t.pc = .start) :
      PparStep d m
        { d with
          tq := d.tq.setTask i
            { t with
              pc := .swept (partitionSweep m.scratch (d.par.scratchBase + t.srcIndex) t.nele
                d.par.pval).2 } }
        { m with
          scratch := (partitionSweep m.scratch (d.par.scratchBase + t.srcIndex) t.nele
            d.par.pval).1 }
  -- between `pthread_mutex_lock` and `pthread_mutex_unlock`
  | reserve (i nleft : ℕ) (t : PartTask) (hi : d.tq.tasks[i]? = some t) (hpc : t.pc = .swept nleft) :
      PparStep d m
        { d with
          par := d.par.reserve nleft (t.nele - nleft)
          tq := d.tq.setTask i
            { t with
              pc := .placed nleft d.par.nextLeftIndex
                (d.par.reserve nleft (t.nele - nleft)).nextRightIndex } } m
  -- the two `bcopy` calls; then the thread returns
  | move (i nleft leftIndex rightIndex : ℕ) (t : PartTask) (hi : d.tq.tasks[i]? = some t)
      (hpc : t.pc = .placed nleft leftIndex rightIndex) :
      PparStep d m
        { d with
          tq := d.tq.setTask i { t with pc := .finished nleft leftIndex rightIndex } }
        (moveParts m d.par t nleft leftIndex rightIndex)
  -- `join_tasks`, after the loop
  | join (tq : Group PartTask) (hb : partNblock d.nele d.blockSize ≤ d.b)
      (hjoin : JoinStep PartTask.Fin d.tq tq) :
      PparStep d m { d with tq := tq } m

/-- `join_tasks` is about to return. -/
def Ppar.Done (d : Ppar α) : Prop := partNblock d.nele d.blockSize ≤ d.b ∧ d.tq.Empty

/-! ## §2. The invariant. -/

/-- The size of the left part, once the task has swept. -/
def PartPc.nleft? : PartPc → Option ℕ
  | .start => none
  | .swept nleft | .placed nleft _ _ | .finished nleft _ _ => some nleft

/-- The reservation of the task, once it has one. -/
def PartTask.place? (t : PartTask) : Option Place :=
  match t.pc with
  | .placed nleft leftIndex rightIndex | .finished nleft leftIndex rightIndex =>
      some ⟨t.srcIndex, nleft, t.nele - nleft, leftIndex, rightIndex⟩
  | _ => none

/-- The elements the task has reserved room for. -/
def PartTask.placedLen (t : PartTask) : ℕ := if t.place?.isSome then t.nele else 0

/-- The number of blocks of the call. -/
def Ppar.count (d : Ppar α) : ℕ := blockCount (d.nele - 1) d.blockSize

theorem Ppar.nblock_eq {d : Ppar α} (h : Sized (d.nele - 1) d.blockSize) :
    partNblock d.nele d.blockSize = d.count := by
  have hpos := h.pos
  have hnb := partNblock_eq h.pos h.lt h.block_pos h.block_le
  rw [Nat.sub_add_cancel (by omega)] at hnb
  exact hnb

/-- The task for the loop counter gets the block of that number. -/
theorem Ppar.newTask_block {d : Ppar α} (h : Sized (d.nele - 1) d.blockSize)
    (hb : d.b < d.count) :
    d.newTask.srcIndex = tileStart (d.nele - 1) d.count d.b ∧
      d.newTask.nele = tileLen (d.nele - 1) d.count d.b := by
  have hpos := h.pos
  have hsrc : partSrcIndex (d.nele - 1 + 1) d.blockSize d.b =
      tileStart (d.nele - 1) d.count d.b :=
    partSrcIndex_eq h.pos h.lt h.block_pos h.block_le hb
  have hlen : partBnele (d.nele - 1 + 1) d.blockSize d.b = tileLen (d.nele - 1) d.count d.b :=
    partBnele_eq h.pos h.lt h.block_pos h.block_le hb
  rw [Nat.sub_add_cancel (by omega)] at hsrc hlen
  unfold Ppar.newTask
  simp only [hsrc, hlen, and_self]

variable [LinearOrder α]

/-- The invariant of the partition tasks. -/
structure PparOk (d : Ppar α) (m : Mem α) : Prop where
  sized : Sized (d.nele - 1) d.blockSize
  same : d.par.scratchBase = d.par.base
  b_le : d.b ≤ d.count
  length : d.tq.tasks.length = d.b
  /-- The tasks are the blocks so far. -/
  block : ∀ (i : ℕ) (t : PartTask), d.tq.tasks[i]? = some t →
    t.srcIndex = tileStart (d.nele - 1) d.count i ∧ t.nele = tileLen (d.nele - 1) d.count i
  /-- A swept block is in two parts. -/
  swept : ∀ (i : ℕ) (t : PartTask) (nleft : ℕ), d.tq.tasks[i]? = some t →
    t.pc.nleft? = some nleft → nleft ≤ t.nele ∧
      (∀ x ∈ m.scratch.load (d.par.base + t.srcIndex) nleft, x ≤ d.par.pval) ∧
      (∀ x ∈ m.scratch.load (d.par.base + t.srcIndex + nleft) (t.nele - nleft), d.par.pval ≤ x)
  /-- The reservations, in some order, are a layout. -/
  layout : ∃ ps, Layout (d.nele - 1) ps d.par.nextLeftIndex d.par.nextRightIndex ∧
    ps.Perm (d.tq.tasks.filterMap PartTask.place?)
  total : d.par.nextLeftIndex + (d.nele - 1) =
    d.par.nextRightIndex + weight PartTask.placedLen d.tq.tasks
  moved : ∀ (i : ℕ) (t : PartTask) (p : Place), d.tq.tasks[i]? = some t → t.Fin →
    t.place? = some p → p.Moved m d.par.base
  /-- The pivot waits behind the array. -/
  pivot : m.base (d.par.base + (d.nele - 1)) = d.par.pval
  wf : d.tq.Wf PartTask.Fin

variable {d d' : Ppar α} {m m' : Mem α}

/-- A task belongs to one of the blocks. -/
theorem PparOk.index_lt (h : PparOk d m) {i : ℕ} {t : PartTask}
    (hi : d.tq.tasks[i]? = some t) : i < d.count := by
  have hlt := (List.getElem?_eq_some_iff.mp hi).1
  rw [h.length] at hlt
  exact Nat.lt_of_lt_of_le hlt h.b_le

/-- A block lies in the array. -/
theorem PparOk.block_in (h : PparOk d m) {i : ℕ} {t : PartTask}
    (hi : d.tq.tasks[i]? = some t) : t.srcIndex + t.nele ≤ d.nele - 1 := by
  obtain ⟨hsrc, hnele⟩ := h.block i t hi
  have hend := tile_end_le (n := d.nele - 1) (h.index_lt hi)
  omega

/-- Two tasks have different blocks. -/
theorem PparOk.block_disjoint (h : PparOk d m) {i j : ℕ} {t u : PartTask} (hne : i ≠ j)
    (hi : d.tq.tasks[i]? = some t) (hj : d.tq.tasks[j]? = some u) :
    t.srcIndex + t.nele ≤ u.srcIndex ∨ u.srcIndex + u.nele ≤ t.srcIndex := by
  obtain ⟨ht, htn⟩ := h.block i t hi
  obtain ⟨hu, hun⟩ := h.block j u hj
  have hapart := tile_apart (n := d.nele - 1) hne (h.index_lt hi) (h.index_lt hj)
  omega

/-! ## §3. Room for every reservation. -/

theorem PparOk.map_nele (h : PparOk d m) :
    d.tq.tasks.map PartTask.nele = (List.range d.b).map (tileLen (d.nele - 1) d.count) := by
  apply List.ext_getElem
  · rw [List.length_map, List.length_map, List.length_range, h.length]
  · intro i hi _
    rw [List.length_map] at hi
    rw [List.getElem_map, List.getElem_map, List.getElem_range]
    exact (h.block i _ (List.getElem?_eq_getElem hi)).2

/-- The blocks have no more elements than the array. -/
theorem PparOk.weight_le (h : PparOk d m) : weight PartTask.nele d.tq.tasks ≤ d.nele - 1 := by
  unfold weight
  rw [h.map_nele]
  exact sum_tileLen_le h.b_le

theorem PartTask.placedLen_le (t : PartTask) : t.placedLen ≤ t.nele := by
  unfold PartTask.placedLen
  split
  · exact Nat.le_refl _
  · exact Nat.zero_le _

theorem PartTask.placedLen_of_none {t : PartTask} (h : t.place? = none) : t.placedLen = 0 := by
  unfold PartTask.placedLen
  rw [h]
  rfl

theorem PartTask.placedLen_of_some {t : PartTask} {p : Place} (h : t.place? = some p) :
    t.placedLen = t.nele := by
  unfold PartTask.placedLen
  rw [h]
  rfl

/-- The two piles do not meet. -/
theorem PparOk.left_le_right (h : PparOk d m) :
    d.par.nextLeftIndex ≤ d.par.nextRightIndex := by
  have hle := weight_mono PartTask.placedLen_le d.tq.tasks
  have hsum := h.weight_le
  have htotal := h.total
  omega

/-- **A block that is not placed yet fits between the two piles.** -/
theorem PparOk.room (h : PparOk d m) {i : ℕ} {t : PartTask} (hi : d.tq.tasks[i]? = some t)
    (hplace : t.place? = none) :
    d.par.nextLeftIndex + t.nele ≤ d.par.nextRightIndex := by
  -- compare with the state in which the task is placed
  let u : PartTask := { t with pc := .placed 0 0 0 }
  have hplaced := weight_set PartTask.placedLen u hi
  have hall := weight_set PartTask.nele u hi
  have hle := weight_mono PartTask.placedLen_le (d.tq.tasks.set i u)
  have ht := PartTask.placedLen_of_none hplace
  have hu : u.placedLen = t.nele := rfl
  have hun : u.nele = t.nele := rfl
  have hsum := h.weight_le
  have htotal := h.total
  omega

/-- A reservation lies in the two piles. -/
theorem PparOk.place_bounds (h : PparOk d m) {i : ℕ} {t : PartTask} {p : Place}
    (hi : d.tq.tasks[i]? = some t) (hp : t.place? = some p) :
    p.leftIndex + p.nleft ≤ d.par.nextLeftIndex ∧ d.par.nextRightIndex ≤ p.rightIndex ∧
      p.rightIndex + p.nright ≤ d.nele - 1 := by
  obtain ⟨ps, hlayout, hperm⟩ := h.layout
  apply hlayout.bounds
  rw [hperm.mem_iff, List.mem_filterMap]
  exact ⟨t, List.mem_of_getElem? hi, hp⟩

/-- Two reservations do not meet. -/
theorem PparOk.apart (h : PparOk d m) {i j : ℕ} {t u : PartTask} {p q : Place} (hne : i ≠ j)
    (hi : d.tq.tasks[i]? = some t) (hj : d.tq.tasks[j]? = some u) (hp : t.place? = some p)
    (hq : u.place? = some q) : p.Apart q := by
  obtain ⟨ps, hlayout, hperm⟩ := h.layout
  have hpair := (hperm.pairwise_iff (fun hab => Place.Apart.symm hab)).mp hlayout.apart
  -- from the layout's order back to the tasks' numbers
  rw [List.pairwise_filterMap, List.pairwise_iff_getElem] at hpair
  obtain ⟨hilt, rfl⟩ := List.getElem?_eq_some_iff.mp hi
  obtain ⟨hjlt, rfl⟩ := List.getElem?_eq_some_iff.mp hj
  rcases Nat.lt_or_gt_of_ne hne with hlt | hlt
  · exact hpair i j hilt hjlt hlt p hp q hq
  · exact (hpair j i hjlt hilt hlt q hq p hp).symm

/-! ## §4. One step. -/

/-- What a step leaves alone: the arguments and everything outside the array; the scratch
array is only rearranged. -/
structure PparFrame (d d' : Ppar α) (m m' : Mem α) : Prop where
  nele : d'.nele = d.nele
  blockSize : d'.blockSize = d.blockSize
  base : d'.par.base = d.par.base
  pval : d'.par.pval = d.par.pval
  scratch : Rearranged m.scratch m'.scratch d.par.base (d.nele - 1)
  frame : ∀ i, i < d.par.base ∨ d.par.base + (d.nele - 1) ≤ i → m'.base i = m.base i

/-- A loop iteration of `partition_parallel`. -/
theorem PparOk.spawn (h : PparOk d m) (hb : (d.b : ℤ) < partNblock d.nele d.blockSize) :
    PparOk { d with b := d.b + 1, tq := d.tq.spawn d.newTask } m := by
  rw [Ppar.nblock_eq h.sized] at hb
  have hblt : d.b < d.count := by omega
  have hnew := Ppar.newTask_block h.sized hblt
  have hfilter : (d.tq.tasks ++ [d.newTask]).filterMap PartTask.place? =
      d.tq.tasks.filterMap PartTask.place? := by
    rw [List.filterMap_append]
    exact List.append_nil _
  refine ⟨h.sized, h.same, hblt, ?_, ?_, ?_, ?_, ?_, ?_, h.pivot, h.wf.spawn _⟩
  · show (d.tq.tasks ++ [d.newTask]).length = d.b + 1
    rw [List.length_append, h.length]
    rfl
  · intro i t hi
    rcases getElem?_concat_cases hi with hold | ⟨rfl, rfl⟩
    · exact h.block i t hold
    · rw [h.length]
      exact hnew
  · intro i t nleft hi hleft
    rcases getElem?_concat_cases hi with hold | ⟨rfl, rfl⟩
    · exact h.swept i t nleft hold hleft
    · exact absurd hleft (by simp [Ppar.newTask, PartPc.nleft?])
  · obtain ⟨ps, hlayout, hperm⟩ := h.layout
    refine ⟨ps, hlayout, ?_⟩
    show ps.Perm ((d.tq.tasks ++ [d.newTask]).filterMap PartTask.place?)
    rw [hfilter]
    exact hperm
  · show _ = _ + weight PartTask.placedLen (d.tq.tasks ++ [d.newTask])
    rw [weight_concat]
    exact h.total
  · intro i t p hi hfin hp
    rcases getElem?_concat_cases hi with hold | ⟨rfl, rfl⟩
    · exact h.moved i t p hold hfin hp
    · exact absurd hp (by simp [Ppar.newTask, PartTask.place?])

/-- The reservation of a task is that of its block. -/
theorem PparOk.place_block (h : PparOk d m) {i : ℕ} {t : PartTask} {p : Place}
    (hi : d.tq.tasks[i]? = some t) (hp : t.place? = some p) :
    t.pc.nleft? = some p.nleft ∧ p.src = t.srcIndex ∧ p.nleft + p.nright = t.nele := by
  have key : ∀ nleft li ri, t.pc.nleft? = some nleft →
      some (⟨t.srcIndex, nleft, t.nele - nleft, li, ri⟩ : Place) = some p →
      t.pc.nleft? = some p.nleft ∧ p.src = t.srcIndex ∧ p.nleft + p.nright = t.nele := by
    intro nleft li ri hleft heq
    obtain rfl := Option.some.inj heq
    have := (h.swept i t nleft hi hleft).1
    refine ⟨hleft, rfl, ?_⟩
    show nleft + (t.nele - nleft) = t.nele
    omega
  -- only `placed` and `finished` have a reservation
  cases hpc : t.pc with
  | start => exact absurd hp (by simp [PartTask.place?, hpc])
  | swept nleft => exact absurd hp (by simp [PartTask.place?, hpc])
  | placed nleft li ri =>
      rw [← hpc]
      exact key nleft li ri (by rw [hpc]; rfl) (by rw [← hp]; simp [PartTask.place?, hpc])
  | finished nleft li ri =>
      rw [← hpc]
      exact key nleft li ri (by rw [hpc]; rfl) (by rw [← hp]; simp [PartTask.place?, hpc])

/-- A task goes on with its block. -/
theorem PparOk.block_set (h : PparOk d m) {i : ℕ} {t u : PartTask}
    (hi : d.tq.tasks[i]? = some t) (hu : u.srcIndex = t.srcIndex ∧ u.nele = t.nele) :
    (d.tq.tasks.set i u).length = d.b ∧
      ∀ (j : ℕ) (v : PartTask), (d.tq.tasks.set i u)[j]? = some v →
        v.srcIndex = tileStart (d.nele - 1) d.count j ∧
          v.nele = tileLen (d.nele - 1) d.count j := by
  constructor
  · rw [List.length_set]
    exact h.length
  · intro j v hj
    rcases getElem?_set_cases hj with ⟨rfl, rfl⟩ | ⟨_, hold⟩
    · rw [hu.1, hu.2]
      exact h.block j t hi
    · exact h.block j v hold

/-- A task goes on with its reservation, or without one. -/
theorem PparOk.places_set (h : PparOk d m) {i : ℕ} {t u : PartTask}
    (hi : d.tq.tasks[i]? = some t) (hnele : u.nele = t.nele) (hplace : u.place? = t.place?) :
    (∃ ps, Layout (d.nele - 1) ps d.par.nextLeftIndex d.par.nextRightIndex ∧
      ps.Perm ((d.tq.tasks.set i u).filterMap PartTask.place?)) ∧
    d.par.nextLeftIndex + (d.nele - 1) =
      d.par.nextRightIndex + weight PartTask.placedLen (d.tq.tasks.set i u) := by
  constructor
  · obtain ⟨ps, hlayout, hperm⟩ := h.layout
    refine ⟨ps, hlayout, ?_⟩
    rw [filterMap_set_eq hi hplace]
    exact hperm
  · have hset := weight_set PartTask.placedLen u hi
    have hlen : u.placedLen = t.placedLen := by
      unfold PartTask.placedLen
      rw [hplace, hnele]
    have htotal := h.total
    omega

/-- A task sweeps its block of the scratch array. -/
theorem PparOk.sweep (h : PparOk d m) {i : ℕ} {t : PartTask} (hi : d.tq.tasks[i]? = some t)
    (hpc : t.pc = .start) {scratch : Cells α} {nleft : ℕ}
    (hswept : Swept m.scratch scratch (d.par.base + t.srcIndex)
      (d.par.base + t.srcIndex + t.nele) (d.par.base + t.srcIndex + nleft) d.par.pval) :
    PparOk { d with tq := d.tq.setTask i { t with pc := .swept nleft } }
      { m with scratch := scratch } := by
  obtain ⟨hrearr, hborder, hleft, hright⟩ := hswept
  have hplace : t.place? = none := by
    unfold PartTask.place?
    rw [hpc]
  -- the blocks of the other tasks are not touched
  have hother : ∀ (j : ℕ) (u : PartTask), j ≠ i → d.tq.tasks[j]? = some u →
      ∀ k, d.par.base + u.srcIndex ≤ k → k < d.par.base + u.srcIndex + u.nele →
        scratch k = m.scratch k := by
    intro j u hne hj k hlo hhi
    have := h.block_disjoint hne hj hi
    exact hrearr.frame k (by omega)
  obtain ⟨hlength, hblock⟩ := h.block_set (u := { t with pc := .swept nleft }) hi ⟨rfl, rfl⟩
  obtain ⟨hlayout, htotal⟩ :=
    h.places_set (u := { t with pc := .swept nleft }) hi rfl hplace.symm
  refine ⟨h.sized, h.same, h.b_le, hlength, hblock, ?_, hlayout, htotal, ?_, h.pivot, ?_⟩
  · intro j u k hj hk
    rcases getElem?_set_cases hj with ⟨rfl, rfl⟩ | ⟨hne, hold⟩
    · -- the block just swept
      obtain rfl : nleft = k := Option.some.inj hk
      show nleft ≤ t.nele ∧
        (∀ x ∈ scratch.load (d.par.base + t.srcIndex) nleft, x ≤ d.par.pval) ∧
        ∀ x ∈ scratch.load (d.par.base + t.srcIndex + nleft) (t.nele - nleft), d.par.pval ≤ x
      refine ⟨by omega, ?_, ?_⟩
      · intro x hx
        obtain ⟨a, hlo, hhi, rfl⟩ := (mem_load scratch).mp hx
        exact hleft a hlo hhi
      · intro x hx
        obtain ⟨a, hlo, hhi, rfl⟩ := (mem_load scratch).mp hx
        exact hright a hlo (by omega)
    · -- a block swept before
      have hsame := hother j u hne hold
      have hsweptj := h.swept j u k hold hk
      show k ≤ u.nele ∧ (∀ x ∈ scratch.load (d.par.base + u.srcIndex) k, x ≤ d.par.pval) ∧
        ∀ x ∈ scratch.load (d.par.base + u.srcIndex + k) (u.nele - k), d.par.pval ≤ x
      rw [load_congr (fun a hlo hhi => hsame a hlo (by omega)),
        load_congr (fun a hlo hhi => hsame a (by omega) (by omega))]
      exact hsweptj
  · intro j u p hj hfin hp
    rcases getElem?_set_cases hj with ⟨rfl, rfl⟩ | ⟨hne, hold⟩
    · exact absurd hp (by simp [PartTask.place?])
    · obtain ⟨_, hsrc, hlen⟩ := h.place_block hold hp
      apply (h.moved j u p hold hfin hp).congr
      · intro _ _
        rfl
      · intro k hlo hhi
        exact hother j u hne hold k (by omega) (by omega)
  · apply h.wf.setTask _ hi
    intro hfin
    exact absurd hfin (by simp [PartTask.Fin, PartPc.isFinished, hpc])

/-- The critical section: below `2^31` elements nothing wraps. -/
theorem PparOk.reserve_eq (h : PparOk d m) {i nleft : ℕ} {t : PartTask}
    (hi : d.tq.tasks[i]? = some t) (hpc : t.pc = .swept nleft) :
    d.par.reserve nleft (t.nele - nleft) =
      { d.par with
        nextLeftIndex := d.par.nextLeftIndex + nleft
        nextRightIndex := d.par.nextRightIndex - (t.nele - nleft) } := by
  obtain ⟨ps, hlayout, _⟩ := h.layout
  have hle := hlayout.nextRight_le
  have hsize := h.sized.lt
  have hnleft := (h.swept i t nleft hi (by rw [hpc]; rfl)).1
  -- the two piles stay apart, so neither sum nor difference wraps
  have hroom := h.room hi (by simp [PartTask.place?, hpc])
  unfold PartitionT.reserve
  congr 1
  · rw [← Int.natCast_add, sizeT_natCast (by omega)]
  · rw [← Int.ofNat_sub (by omega), sizeT_natCast (by omega)]

/-- A task reserves its destinations under the mutex. -/
theorem PparOk.reserve (h : PparOk d m) {i nleft : ℕ} {t : PartTask}
    (hi : d.tq.tasks[i]? = some t) (hpc : t.pc = .swept nleft) :
    PparOk
      { d with
        par := { d.par with
          nextLeftIndex := d.par.nextLeftIndex + nleft
          nextRightIndex := d.par.nextRightIndex - (t.nele - nleft) }
        tq := d.tq.setTask i
          { t with
            pc := .placed nleft d.par.nextLeftIndex
              (d.par.nextRightIndex - (t.nele - nleft)) } } m := by
  have hplace : t.place? = none := by
    unfold PartTask.place?
    rw [hpc]
  have hleft : t.pc.nleft? = some nleft := by
    rw [hpc]
    rfl
  have hnleft := (h.swept i t nleft hi hleft).1
  have hroom := h.room hi hplace
  generalize hu : ({ t with
    pc := .placed nleft d.par.nextLeftIndex (d.par.nextRightIndex - (t.nele - nleft)) } :
      PartTask) = u
  have huplace : u.place? = some ⟨t.srcIndex, nleft, t.nele - nleft, d.par.nextLeftIndex,
      d.par.nextRightIndex - (t.nele - nleft)⟩ := by
    rw [← hu]
    rfl
  obtain ⟨hlength, hblock⟩ := h.block_set (u := u) hi (by rw [← hu]; exact ⟨rfl, rfl⟩)
  refine ⟨h.sized, h.same, h.b_le, hlength, hblock, ?_, ?_, ?_, ?_, h.pivot, ?_⟩
  · intro j v k hj hk
    rcases getElem?_set_cases hj with ⟨rfl, rfl⟩ | ⟨hne, hold⟩
    · rw [← hu] at hk ⊢
      obtain rfl : nleft = k := Option.some.inj hk
      exact h.swept j t nleft hi hleft
    · exact h.swept j v k hold hk
  · -- the new reservation goes on top of the layout
    obtain ⟨ps, hlayout, hperm⟩ := h.layout
    refine ⟨_ :: ps, Layout.cons ⟨t.srcIndex, nleft, t.nele - nleft, d.par.nextLeftIndex,
      d.par.nextRightIndex - (t.nele - nleft)⟩ hlayout rfl ?_, ?_⟩
    · show d.par.nextRightIndex - (t.nele - nleft) + (t.nele - nleft) = d.par.nextRightIndex
      omega
    · exact (hperm.cons _).trans (filterMap_set_perm hi hplace huplace).symm
  · have hset := weight_set PartTask.placedLen u hi
    have ht := PartTask.placedLen_of_none hplace
    have hul : u.placedLen = t.nele := by
      rw [← hu]
      rfl
    have htotal := h.total
    show d.par.nextLeftIndex + nleft + (d.nele - 1) =
      d.par.nextRightIndex - (t.nele - nleft) + weight PartTask.placedLen (d.tq.tasks.set i u)
    omega
  · intro j v p hj hfin hp
    rcases getElem?_set_cases hj with ⟨rfl, rfl⟩ | ⟨hne, hold⟩
    · rw [← hu] at hfin
      exact absurd hfin (by simp [PartTask.Fin, PartPc.isFinished])
    · exact h.moved j v p hold hfin hp
  · apply h.wf.setTask _ hi
    intro hfin
    exact absurd hfin (by simp [PartTask.Fin, PartPc.isFinished, hpc])

/-- A task moves its parts and ends. -/
theorem PparOk.move (h : PparOk d m) {i nleft li ri : ℕ} {t : PartTask}
    (hi : d.tq.tasks[i]? = some t) (hpc : t.pc = .placed nleft li ri) :
    PparOk { d with tq := d.tq.setTask i { t with pc := .finished nleft li ri } }
      (moveParts m d.par t nleft li ri) := by
  have hplace : t.place? = some ⟨t.srcIndex, nleft, t.nele - nleft, li, ri⟩ := by
    unfold PartTask.place?
    rw [hpc]
  have hleft : t.pc.nleft? = some nleft := by
    rw [hpc]
    rfl
  -- both destinations are inside the array, left and right of the gap
  obtain ⟨hbl, hbr, hbn⟩ := h.place_bounds hi hplace
  dsimp only at hbl hbr hbn
  have hmeet := h.left_le_right
  obtain ⟨hlength, hblock⟩ := h.block_set (u := { t with pc := .finished nleft li ri }) hi ⟨rfl, rfl⟩
  obtain ⟨hlayout, htotal⟩ :=
    h.places_set (u := { t with pc := .finished nleft li ri }) hi rfl hplace.symm
  refine ⟨h.sized, h.same, h.b_le, hlength, hblock, ?_, hlayout, htotal, ?_, ?_, ?_⟩
  · intro j u k hj hk
    rcases getElem?_set_cases hj with ⟨rfl, rfl⟩ | ⟨hne, hold⟩
    · obtain rfl : nleft = k := Option.some.inj hk
      exact h.swept j t nleft hi hleft
    · exact h.swept j u k hold hk
  · intro j u p hj hfin hp
    rcases getElem?_set_cases hj with ⟨rfl, rfl⟩ | ⟨hne, hold⟩
    · obtain rfl := Option.some.inj hp
      exact moveParts_moved h.same (by omega)
    · -- the destinations of another task are not touched
      have hapart := h.apart hne hold hi hp hplace
      obtain ⟨hpl, hpr, hpn⟩ := h.place_bounds hold hp
      unfold Place.Apart at hapart
      dsimp only at hapart
      apply (h.moved j u p hold hfin hp).congr
      · intro k hk
        exact moveParts_frame (by omega) (by omega)
      · intro k _ _
        rfl
  · show (moveParts m d.par t nleft li ri).base (d.par.base + (d.nele - 1)) = d.par.pval
    rw [moveParts_frame (by omega) (by omega)]
    exact h.pivot
  · exact h.wf.setTask _ hi (fun _ => rfl)

theorem PparOk.join (h : PparOk d m) {tq : Group PartTask}
    (hjoin : JoinStep PartTask.Fin d.tq tq) : PparOk { d with tq := tq } m := by
  have htasks := hjoin.tasks_eq
  have hwf := h.wf.step hjoin
  obtain ⟨tasks, taken, joining⟩ := tq
  dsimp only at htasks
  subst htasks
  exact ⟨h.sized, h.same, h.b_le, h.length, h.block, h.swept, h.layout, h.total, h.moved,
    h.pivot, hwf⟩

/-- **One step of the partition tasks** keeps the invariant and stays inside the array. -/
theorem PparOk.step (h : PparOk d m) (hstep : PparStep d m d' m') :
    PparOk d' m' ∧ PparFrame d d' m m' := by
  have hframe : PparFrame d d m m :=
    ⟨rfl, rfl, rfl, rfl, Rearranged.refl _ _ _, fun _ _ => rfl⟩
  cases hstep with
  | spawn hb => exact ⟨h.spawn hb, { hframe with }⟩
  | sweep i t hi hpc =>
      have hswept := partitionSweep_spec m.scratch (d.par.scratchBase + t.srcIndex) t.nele
        d.par.pval
      rw [h.same] at hswept ⊢
      have hin := h.block_in hi
      refine ⟨h.sweep hi hpc hswept, { hframe with scratch := ?_ }⟩
      exact hswept.rearranged.widen (by omega) (by omega)
  | reserve i nleft t hi hpc =>
      rw [h.reserve_eq hi hpc]
      exact ⟨h.reserve hi hpc, { hframe with }⟩
  | move i nleft li ri t hi hpc =>
      have hplace : t.place? = some ⟨t.srcIndex, nleft, t.nele - nleft, li, ri⟩ := by
        unfold PartTask.place?
        rw [hpc]
      obtain ⟨hbl, hbr, hbn⟩ := h.place_bounds hi hplace
      dsimp only at hbl hbr hbn
      have hmeet := h.left_le_right
      refine ⟨h.move hi hpc, { hframe with frame := ?_ }⟩
      intro j hj
      exact moveParts_frame (by omega) (by omega)
  | join tq hb hjoin => exact ⟨h.join hjoin, { hframe with }⟩

/-- The invariant speaks of the array, its pivot and the scratch array only. -/
theorem PparOk.congr (h : PparOk d m)
    (hbase : ∀ i, d.par.base ≤ i → i ≤ d.par.base + (d.nele - 1) → m'.base i = m.base i)
    (hscratch : ∀ i, d.par.base ≤ i → i < d.par.base + (d.nele - 1) →
      m'.scratch i = m.scratch i) : PparOk d m' := by
  refine ⟨h.sized, h.same, h.b_le, h.length, h.block, ?_, h.layout, h.total, ?_, ?_, h.wf⟩
  · intro i t nleft hi hleft
    have hin := h.block_in hi
    have hswept := h.swept i t nleft hi hleft
    rw [load_congr (fun k hlo hhi => hscratch k (by omega) (by omega)),
      load_congr (fun k hlo hhi => hscratch k (by omega) (by omega))]
    exact hswept
  · intro i t p hi hfin hp
    have hin := h.block_in hi
    have hbounds := h.place_bounds hi hp
    have hmeet := h.left_le_right
    obtain ⟨_, hsrc, hlen⟩ := h.place_block hi hp
    apply (h.moved i t p hi hfin hp).congr
    · intro k hk
      exact hbase k (by omega) (by omega)
    · intro k hlo hhi
      exact hscratch k (by omega) (by omega)
  · rw [hbase _ (by omega) (by omega)]
    exact h.pivot

/-! ## §5. The end of the call. -/

/-- `partition_parallel` after its copy: the loop has not begun. -/
def Ppar.enter (base nele scratchBase : ℕ) (pval : α) (blockSize : ℕ) : Ppar α :=
  ⟨nele, blockSize, 0, initPartition base (nele - 1) scratchBase pval, Group.new⟩

theorem PparOk.enter {base nele blockSize : ℕ} {pval : α} (h : Sized (nele - 1) blockSize)
    (hpivot : m.base (base + (nele - 1)) = pval) :
    PparOk (Ppar.enter base nele base pval blockSize) m := by
  refine ⟨h, rfl, Nat.zero_le _, rfl, ?_, ?_, ⟨[], Layout.nil, List.Perm.refl _⟩, ?_, ?_, hpivot,
    Group.Wf.new⟩
  · intro i t hi
    exact absurd hi (by simp [Ppar.enter, Group.new])
  · intro i t nleft hi
    exact absurd hi (by simp [Ppar.enter, Group.new])
  · show 0 + (nele - 1) = nele - 1 + 0
    omega
  · intro i t p hi
    exact absurd hi (by simp [Ppar.enter, Group.new])

/-- A finished task has a reservation. -/
theorem PartTask.Fin.place {t : PartTask} (h : t.Fin) : ∃ p, t.place? = some p := by
  unfold PartTask.Fin PartPc.isFinished at h
  unfold PartTask.place?
  cases hpc : t.pc with
  | finished nleft li ri => exact ⟨_, rfl⟩
  | start => simp [hpc] at h
  | swept nleft => simp [hpc] at h
  | placed nleft li ri => simp [hpc] at h

/-- When `join_tasks` returns the loop has spawned all blocks, and all have ended. -/
theorem PparOk.all_finished (h : PparOk d m) (hdone : d.Done) :
    d.b = d.count ∧ ∀ t ∈ d.tq.tasks, t.Fin := by
  obtain ⟨hb, hempty⟩ := hdone
  rw [Ppar.nblock_eq h.sized] at hb
  have hle := h.b_le
  refine ⟨by omega, ?_⟩
  intro t ht
  obtain ⟨i, hi⟩ := List.getElem?_of_mem ht
  exact h.wf.all_finished hempty hi

/-- Once every block has its room, the two piles have met. -/
theorem PparOk.met_of_placed (h : PparOk d m) (hcount : d.b = d.count)
    (hplaced : ∀ t ∈ d.tq.tasks, ∃ p, t.place? = some p) :
    d.par.nextLeftIndex = d.par.nextRightIndex := by
  have hpos : 0 < d.count := blockCount_pos h.sized.block_pos h.sized.pos
  have hweight : weight PartTask.placedLen d.tq.tasks = d.nele - 1 := by
    -- every task has placed its whole block
    have heq : d.tq.tasks.map PartTask.placedLen = d.tq.tasks.map PartTask.nele := by
      apply List.map_congr_left
      intro t ht
      obtain ⟨p, hp⟩ := hplaced t ht
      exact PartTask.placedLen_of_some hp
    unfold weight
    rw [heq, h.map_nele, hcount]
    exact sum_tileLen hpos
  have htotal := h.total
  omega

/-- The two piles have met. -/
theorem PparOk.met (h : PparOk d m) (hdone : d.Done) :
    d.par.nextLeftIndex = d.par.nextRightIndex := by
  obtain ⟨hcount, hfin⟩ := h.all_finished hdone
  exact h.met_of_placed hcount (fun t ht => (hfin t ht).place)

/-- The reservations are the blocks. -/
theorem PparOk.places_perm (h : PparOk d m) (hdone : d.Done) {ps : List Place}
    (hperm : ps.Perm (d.tq.tasks.filterMap PartTask.place?)) :
    (ps.map fun p => m.scratch.load (d.par.base + p.src) (p.nleft + p.nright)).flatten.Perm
      (m.scratch.load d.par.base (d.nele - 1)) := by
  obtain ⟨hcount, hfin⟩ := h.all_finished hdone
  have hpos : 0 < d.count := blockCount_pos h.sized.block_pos h.sized.pos
  refine List.Perm.trans (hperm.map _).flatten ?_
  rw [load_tiles m.scratch d.par.base (d.nele - 1) d.count hpos, List.map_filterMap]
  apply List.Perm.of_eq
  congr 1
  -- task by task: each has a reservation, and it is for its block
  have hsome : d.tq.tasks.filterMap (fun t => t.place?.map
        fun p => m.scratch.load (d.par.base + p.src) (p.nleft + p.nright)) =
      d.tq.tasks.filterMap (fun t => some (m.scratch.load (d.par.base + t.srcIndex) t.nele)) := by
    apply List.filterMap_congr
    intro t ht
    obtain ⟨i, hi⟩ := List.getElem?_of_mem ht
    obtain ⟨p, hp⟩ := (hfin t ht).place
    obtain ⟨_, hsrc, hlen⟩ := h.place_block hi hp
    rw [hp, Option.map_some, hsrc, hlen]
  rw [hsome, List.filterMap_eq_map', ← hcount, ← h.length]
  apply List.ext_getElem
  · rw [List.length_map, List.length_map, List.length_range]
  · intro i hi _
    rw [List.length_map] at hi
    obtain ⟨hsrc, hlen⟩ := h.block i _ (List.getElem?_eq_getElem hi)
    rw [List.getElem_map, List.getElem_map, List.getElem_range, hsrc, hlen, h.length, hcount]

/-- **When the partition tasks are joined, the array is partitioned**: it holds the
elements of the scratch array, those left of `next_left_index` at most the pivot and the
others at least. -/
theorem PparOk.done (h : PparOk d m) (hdone : d.Done) :
    d.par.nextLeftIndex ≤ d.nele - 1 ∧
    (m.base.load d.par.base (d.nele - 1)).Perm (m.scratch.load d.par.base (d.nele - 1)) ∧
    (∀ i, d.par.base ≤ i → i < d.par.base + d.par.nextLeftIndex → m.base i ≤ d.par.pval) ∧
    ∀ i, d.par.base + d.par.nextLeftIndex ≤ i → i < d.par.base + (d.nele - 1) →
      d.par.pval ≤ m.base i := by
  obtain ⟨ps, hlayout, hperm⟩ := h.layout
  have hle := hlayout.nextRight_le
  have hmet := h.met hdone
  -- a reservation in the layout is that of a finished task
  have htask : ∀ p ∈ ps, ∃ (i : ℕ) (t : PartTask), d.tq.tasks[i]? = some t ∧
      t.place? = some p ∧ t.Fin := by
    intro p hp
    obtain ⟨t, ht, htp⟩ := List.mem_filterMap.mp (hperm.mem_iff.mp hp)
    obtain ⟨i, hi⟩ := List.getElem?_of_mem ht
    exact ⟨i, t, hi, htp, (h.all_finished hdone).2 t ht⟩
  have hmoved : ∀ p ∈ ps, p.Moved m d.par.base := by
    intro p hp
    obtain ⟨i, t, hi, htp, hfin⟩ := htask p hp
    exact h.moved i t p hi hfin htp
  have hparts : ∀ p ∈ ps, (∀ x ∈ p.left m.scratch d.par.base, x ≤ d.par.pval) ∧
      ∀ x ∈ p.right m.scratch d.par.base, d.par.pval ≤ x := by
    intro p hp
    obtain ⟨i, t, hi, htp, hfin⟩ := htask p hp
    obtain ⟨hnleft, hsrc, hlen⟩ := h.place_block hi htp
    have hswept := (h.swept i t p.nleft hi hnleft).2
    rw [show t.nele - p.nleft = p.nright by omega, ← hsrc] at hswept
    exact hswept
  have hleft := hlayout.left_forall hmoved (fun p hp => (hparts p hp).1)
  have hright := hlayout.right_forall hmoved (fun p hp => (hparts p hp).2)
  refine ⟨by omega, ?_, ?_, ?_⟩
  · -- the piles have met: the two parts of the layout are the whole array
    have hall := (hlayout.perm hmoved).trans (h.places_perm hdone hperm)
    rw [hmet, ← load_add] at hall
    rwa [show d.par.nextRightIndex + (d.nele - 1 - d.par.nextRightIndex) = d.nele - 1 by omega]
      at hall
  · intro i hlo hhi
    exact hleft _ ((mem_load m.base).mpr ⟨i, hlo, hhi, rfl⟩)
  · intro i hlo hhi
    exact hright _ ((mem_load m.base).mpr ⟨i, by omega, by omega, rfl⟩)

/-- **The pivot goes between the two sides**: the array is then split around it, and it
holds the pivot and the elements of the scratch array. -/
theorem PparOk.parted (h : PparOk d m) (hdone : d.Done) :
    Split (m.base.swap (d.par.base + d.par.nextLeftIndex) (d.par.base + d.nele - 1))
      d.par.base d.nele d.par.nextLeftIndex d.par.pval ∧
    ((m.base.swap (d.par.base + d.par.nextLeftIndex) (d.par.base + d.nele - 1)).load d.par.base
      d.nele).Perm (d.par.pval :: m.scratch.load d.par.base (d.nele - 1)) := by
  obtain ⟨hle, hparts, hleft, hright⟩ := h.done hdone
  have hpos := h.sized.pos
  have hpivot := h.pivot
  constructor
  · apply split_of_swap (by omega)
    · rw [show d.par.base + d.nele - 1 = d.par.base + (d.nele - 1) by omega]
      exact hpivot
    · exact hleft
    · intro i hlo hhi
      exact hright i hlo (by omega)
  · -- the pieces came back from the scratch array, and the pivot never left
    have hlast : (m.base (d.par.base + (d.nele - 1)) :: m.base.load d.par.base (d.nele - 1)).Perm
        (m.base.load d.par.base d.nele) := cons_last_perm m.base (by omega)
    rw [hpivot] at hlast
    have hswap : Rearranged m.base
        (m.base.swap (d.par.base + d.par.nextLeftIndex) (d.par.base + d.nele - 1))
        d.par.base d.nele := Rearranged.swap m.base (by omega) (by omega)
    exact (hswap.perm.trans hlast.symm).trans (hparts.cons _)

/-- A call that cannot return can move. -/
theorem PparOk.progress (h : PparOk d m) : d.Done ∨ ∃ d' m', PparStep d m d' m' := by
  by_cases hb : (d.b : ℤ) < partNblock d.nele d.blockSize
  · exact Or.inr ⟨_, _, .spawn hb⟩
  · rcases h.wf.progress with hempty | ⟨tq, hjoin⟩ | ⟨i, t, hi, hfin⟩
    · exact Or.inl ⟨not_lt.mp hb, hempty⟩
    · exact Or.inr ⟨_, _, .join tq (not_lt.mp hb) hjoin⟩
    · cases hpc : t.pc with
      | start => exact Or.inr ⟨_, _, .sweep i t hi hpc⟩
      | swept nleft => exact Or.inr ⟨_, _, .reserve i nleft t hi hpc⟩
      | placed nleft li ri => exact Or.inr ⟨_, _, .move i nleft li ri t hi hpc⟩
      | finished nleft li ri => exact absurd (by unfold PartTask.Fin; rw [hpc]; rfl) hfin

/-- The steps left to a task. -/
def PartTask.cost (t : PartTask) : ℕ :=
  match t.pc with
  | .start => 3
  | .swept _ => 2
  | .placed _ _ _ => 1
  | .finished _ _ _ => 0

/-- The steps left: six for each block still to spawn. -/
def Ppar.cost (d : Ppar α) : ℕ := 6 * (d.count - d.b) + d.tq.cost PartTask.cost

theorem PparOk.cost_step (h : PparOk d m) (hstep : PparStep d m d' m') : d'.cost + 1 = d.cost := by
  -- a task moves on to a program counter that is one step nearer to the end
  have htask : ∀ {i : ℕ} {t u : PartTask}, d.tq.tasks[i]? = some t → u.cost + 1 = t.cost →
      6 * (d.count - d.b) + (d.tq.setTask i u).cost PartTask.cost + 1 = d.cost := by
    intro i t u hi hcost
    have hset := Group.cost_setTask (w := PartTask.cost) u hi
    unfold Ppar.cost
    omega
  cases hstep with
  | spawn hb =>
      rw [Ppar.nblock_eq h.sized] at hb
      have hspawn := h.wf.cost_spawn (w := PartTask.cost) d.newTask
      have hw : d.newTask.cost = 3 := rfl
      unfold Ppar.cost
      show 6 * (d.count - (d.b + 1)) + (d.tq.spawn d.newTask).cost _ + 1 = _
      rw [hspawn]
      omega
  | sweep i t hi hpc => exact htask hi (by unfold PartTask.cost; rw [hpc])
  | reserve i nleft t hi hpc => exact htask hi (by unfold PartTask.cost; rw [hpc])
  | move i nleft li ri t hi hpc => exact htask hi (by unfold PartTask.cost; rw [hpc])
  | join tq hb hjoin =>
      have hcost := hjoin.cost (w := PartTask.cost)
      unfold Ppar.cost
      show 6 * (d.count - d.b) + tq.cost _ + 1 = _
      omega

end ComputerScience.Pqsort
