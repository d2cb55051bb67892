/-
  ComputerScience.Pqsort.Dcopy
  ────────────────────────────
  **THE PARALLEL COPY** `dcopy_parallel` (`26-parallelism/pqsort/pqsort.c`).

  One call spawns a copy task per block and joins them; a task's `bcopy` is one step, and
  the tasks run in any order.  When `join_tasks` returns the destination holds the source
  (`DcopyOk.copied`).
-/
import ComputerScience.Pqsort.Blocks
import ComputerScience.Pqsort.Group

namespace ComputerScience.Pqsort

open ComputerScience.Lib
open ComputerScience.Lib.Cells

variable {α : Type*}

/-! ## §1. The two arrays and the call. -/

/-- The array to sort and the scratch array. -/
structure Mem (α : Type*) where
  base : Cells α
  scratch : Cells α

/-- `copy_task_t`, with the state of its thread. -/
structure CopyTask where
  src : ℕ
  dest : ℕ
  nele : ℕ
  finished : Bool
  deriving DecidableEq, Repr

def CopyTask.Fin (c : CopyTask) : Prop := c.finished = true

/-- A call `dcopy_parallel(src, dest, nele, block_size)`: its arguments, the loop counter
and its task queue. -/
structure Dcopy where
  src : ℕ
  dest : ℕ
  nele : ℕ
  blockSize : ℕ
  b : ℕ
  tq : Group CopyTask

/-- The call begins. -/
def Dcopy.enter (src dest nele blockSize : ℕ) : Dcopy := ⟨src, dest, nele, blockSize, 0, Group.new⟩

/-- `new_copy_task(bsrc, bdest, bnele)` for the block of the loop counter. -/
def Dcopy.newTask (d : Dcopy) : CopyTask where
  src := (d.src + dcopyOffset d.nele d.blockSize d.b).toNat
  dest := (d.dest + dcopyOffset d.nele d.blockSize d.b).toNat
  nele := dcopyBnele d.nele d.blockSize d.b
  finished := false

/-- One step of the call or of one of its tasks. -/
inductive DcopyStep (d : Dcopy) (m : Mem α) : Dcopy → Mem α → Prop where
  -- an iteration of the `for` loop
  | spawn (hb : (d.b : ℤ) < dcopyNblock d.nele d.blockSize) :
      DcopyStep d m { d with b := d.b + 1, tq := d.tq.spawn d.newTask } m
  -- `bcopy` of one task
  | copy (i : ℕ) (c : CopyTask) (hi : d.tq.tasks[i]? = some c) (hrun : c.finished = false) :
      DcopyStep d m { d with tq := d.tq.setTask i { c with finished := true } }
        { m with scratch := m.scratch.store c.dest (m.base.load c.src c.nele) }
  -- `join_tasks`, after the loop
  | join (tq : Group CopyTask) (hb : dcopyNblock d.nele d.blockSize ≤ d.b)
      (hjoin : JoinStep CopyTask.Fin d.tq tq) :
      DcopyStep d m { d with tq := tq } m

/-- `join_tasks` is about to return. -/
def Dcopy.Done (d : Dcopy) : Prop := dcopyNblock d.nele d.blockSize ≤ d.b ∧ d.tq.Empty

/-! ## §2. The invariant. -/

/-- The number of blocks of the call. -/
def Dcopy.count (d : Dcopy) : ℕ := blockCount d.nele d.blockSize

/-- The sizes `partition_parallel` calls with. -/
structure Sized (nele blockSize : ℕ) : Prop where
  pos : 0 < nele
  lt : nele < 2 ^ 31
  block_pos : 0 < blockSize
  block_le : blockSize ≤ nele

/-- The task for the loop counter gets the block of that number. -/
theorem Dcopy.newTask_block (d : Dcopy) (h : Sized d.nele d.blockSize) (hb : d.b < d.count) :
    d.newTask.src = d.src + tileStart d.nele d.count d.b ∧
      d.newTask.dest = d.dest + tileStart d.nele d.count d.b ∧
      d.newTask.nele = tileLen d.nele d.count d.b := by
  have hoff : dcopyOffset d.nele d.blockSize d.b = (tileStart d.nele d.count d.b : ℕ) :=
    dcopyOffset_eq h.pos h.lt h.block_pos h.block_le hb
  have hlen : dcopyBnele d.nele d.blockSize d.b = tileLen d.nele d.count d.b :=
    dcopyBnele_eq h.pos h.lt h.block_pos h.block_le hb
  unfold Dcopy.newTask
  simp only [hoff, hlen, and_true]
  exact ⟨Int.toNat_natCast _, Int.toNat_natCast _⟩

/-- The tasks are the blocks so far, and a finished one has copied its block. -/
structure DcopyOk (d : Dcopy) (m : Mem α) : Prop where
  sized : Sized d.nele d.blockSize
  b_le : d.b ≤ d.count
  length : d.tq.tasks.length = d.b
  block : ∀ (i : ℕ) (c : CopyTask), d.tq.tasks[i]? = some c →
    c.src = d.src + tileStart d.nele d.count i ∧ c.dest = d.dest + tileStart d.nele d.count i ∧
      c.nele = tileLen d.nele d.count i
  copied : ∀ (i : ℕ) (c : CopyTask), d.tq.tasks[i]? = some c → c.finished = true →
    m.scratch.load c.dest c.nele = m.base.load c.src c.nele
  wf : d.tq.Wf CopyTask.Fin

variable {d d' : Dcopy} {m m' : Mem α}

theorem Sized.nblock_eq (h : Sized d.nele d.blockSize) :
    dcopyNblock d.nele d.blockSize = d.count :=
  dcopyNblock_eq h.pos h.lt h.block_pos h.block_le

theorem DcopyOk.enter {src dest nele blockSize : ℕ}
    (h : Sized nele blockSize) (m : Mem α) :
    DcopyOk (Dcopy.enter src dest nele blockSize) m := by
  refine ⟨h, Nat.zero_le _, rfl, ?_, ?_, Group.Wf.new⟩
  · intro i c hi
    exact absurd hi (by simp [Dcopy.enter, Group.new])
  · intro i c hi
    exact absurd hi (by simp [Dcopy.enter, Group.new])

/-- A task belongs to one of the blocks. -/
theorem DcopyOk.index_lt (h : DcopyOk d m) {i : ℕ} {c : CopyTask}
    (hi : d.tq.tasks[i]? = some c) : i < d.count := by
  have hlt := (List.getElem?_eq_some_iff.mp hi).1
  rw [h.length] at hlt
  exact Nat.lt_of_lt_of_le hlt h.b_le

/-- A block lies in the copied range. -/
theorem DcopyOk.block_in (h : DcopyOk d m) {i : ℕ} {c : CopyTask}
    (hi : d.tq.tasks[i]? = some c) :
    d.dest ≤ c.dest ∧ c.dest + c.nele ≤ d.dest + d.nele ∧
      d.src ≤ c.src ∧ c.src + c.nele ≤ d.src + d.nele := by
  obtain ⟨hsrc, hdest, hnele⟩ := h.block i c hi
  have hend := tile_end_le (n := d.nele) (h.index_lt hi)
  omega

/-- Two tasks have different blocks. -/
theorem DcopyOk.block_disjoint (h : DcopyOk d m) {i j : ℕ} {c e : CopyTask} (hne : i ≠ j)
    (hi : d.tq.tasks[i]? = some c) (hj : d.tq.tasks[j]? = some e) :
    c.dest + c.nele ≤ e.dest ∨ e.dest + e.nele ≤ c.dest := by
  obtain ⟨-, hc, hcn⟩ := h.block i c hi
  obtain ⟨-, he, hen⟩ := h.block j e hj
  have hapart := tile_apart (n := d.nele) hne (h.index_lt hi) (h.index_lt hj)
  omega

/-! ## §3. One step. -/

/-- An iteration of the loop. -/
theorem DcopyOk.spawn (h : DcopyOk d m) (hb : (d.b : ℤ) < dcopyNblock d.nele d.blockSize) :
    DcopyOk { d with b := d.b + 1, tq := d.tq.spawn d.newTask } m := by
  rw [h.sized.nblock_eq] at hb
  have hblt : d.b < d.count := by omega
  have hnew := d.newTask_block h.sized hblt
  refine ⟨h.sized, hblt, ?_, ?_, ?_, h.wf.spawn _⟩
  · show (d.tq.tasks ++ [d.newTask]).length = d.b + 1
    rw [List.length_append, h.length]
    rfl
  · intro i c hi
    rcases getElem?_concat_cases hi with hold | ⟨rfl, rfl⟩
    · exact h.block i c hold
    · rw [h.length]
      exact hnew
  · intro i c hi hfin
    rcases getElem?_concat_cases hi with hold | ⟨rfl, rfl⟩
    · exact h.copied i c hold hfin
    · exact absurd hfin (by simp [Dcopy.newTask])

/-- A task copies its block and ends. -/
theorem DcopyOk.copy (h : DcopyOk d m) {i : ℕ} {c : CopyTask} (hi : d.tq.tasks[i]? = some c) :
    DcopyOk { d with tq := d.tq.setTask i { c with finished := true } }
      { m with scratch := m.scratch.store c.dest (m.base.load c.src c.nele) } := by
  have hlen : (m.base.load c.src c.nele).length = c.nele := length_load _ _ _
  refine ⟨h.sized, h.b_le, ?_, ?_, ?_, ?_⟩
  · show (d.tq.tasks.set i _).length = d.b
    rw [List.length_set]
    exact h.length
  · intro j e hj
    rcases getElem?_set_cases hj with ⟨rfl, rfl⟩ | ⟨_, hold⟩
    · exact h.block j c hi
    · exact h.block j e hold
  · intro j e hj hfin
    show (m.scratch.store c.dest (m.base.load c.src c.nele)).load e.dest e.nele = _
    rcases getElem?_set_cases hj with ⟨rfl, rfl⟩ | ⟨hne, hold⟩
    · have := load_store_self m.scratch c.dest (m.base.load c.src c.nele)
      rwa [hlen] at this
    · -- the block of another task is not touched
      have hdis := h.block_disjoint hne hold hi
      rw [load_store_of_disjoint _ (by omega)]
      exact h.copied j e hold hfin
  · exact h.wf.setTask _ hi (fun _ => rfl)

theorem DcopyOk.join (h : DcopyOk d m) {tq : Group CopyTask}
    (hjoin : JoinStep CopyTask.Fin d.tq tq) : DcopyOk { d with tq := tq } m := by
  have htasks := hjoin.tasks_eq
  refine ⟨h.sized, h.b_le, ?_, ?_, ?_, h.wf.step hjoin⟩
  · show tq.tasks.length = d.b
    rw [htasks]
    exact h.length
  · intro i c hi
    exact h.block i c (htasks ▸ hi)
  · intro i c hi hfin
    exact h.copied i c (htasks ▸ hi) hfin

/-- **One step of a parallel copy** keeps its invariant, its arguments and the array, and
writes the scratch array only at the destination. -/
theorem DcopyOk.step (h : DcopyOk d m) (hstep : DcopyStep d m d' m') :
    DcopyOk d' m' ∧ (d'.src = d.src ∧ d'.dest = d.dest ∧ d'.nele = d.nele ∧
      d'.blockSize = d.blockSize) ∧ m'.base = m.base ∧
      ∀ i, i < d.dest ∨ d.dest + d.nele ≤ i → m'.scratch i = m.scratch i := by
  cases hstep with
  | spawn hb => exact ⟨h.spawn hb, ⟨rfl, rfl, rfl, rfl⟩, rfl, fun _ _ => rfl⟩
  | copy i c hi hrun =>
      refine ⟨h.copy hi, ⟨rfl, rfl, rfl, rfl⟩, rfl, ?_⟩
      intro j hj
      have hin := h.block_in hi
      have hlen : (m.base.load c.src c.nele).length = c.nele := length_load _ _ _
      exact store_apply_of_not_mem _ (by omega)
  | join tq hb hjoin => exact ⟨h.join hjoin, ⟨rfl, rfl, rfl, rfl⟩, rfl, fun _ _ => rfl⟩

/-- The invariant speaks of the two ranges only. -/
theorem DcopyOk.congr (h : DcopyOk d m)
    (hbase : ∀ i, d.src ≤ i → i < d.src + d.nele → m'.base i = m.base i)
    (hscratch : ∀ i, d.dest ≤ i → i < d.dest + d.nele → m'.scratch i = m.scratch i) :
    DcopyOk d m' := by
  refine ⟨h.sized, h.b_le, h.length, h.block, ?_, h.wf⟩
  intro i c hi hfin
  have hin := h.block_in hi
  rw [load_congr (fun j hlo hhi => hscratch j (by omega) (by omega)),
    load_congr (fun j hlo hhi => hbase j (by omega) (by omega))]
  exact h.copied i c hi hfin

/-! ## §4. The end of the call. -/

/-- **When `dcopy_parallel` returns, the destination holds the source.** -/
theorem DcopyOk.done (h : DcopyOk d m) (hdone : d.Done) :
    m.scratch.load d.dest d.nele = m.base.load d.src d.nele := by
  obtain ⟨hb, hempty⟩ := hdone
  rw [h.sized.nblock_eq] at hb
  have hcount : d.b = d.count := by
    have := h.b_le
    omega
  have hpos : 0 < d.count := blockCount_pos h.sized.block_pos h.sized.pos
  rw [load_tiles m.scratch d.dest d.nele d.count hpos, load_tiles m.base d.src d.nele d.count hpos]
  congr 1
  -- block by block: each was copied before its task ended
  apply List.map_congr_left
  intro i hi
  have hlt : i < d.tq.tasks.length := by
    rw [h.length, hcount]
    exact List.mem_range.mp hi
  have hget : d.tq.tasks[i]? = some d.tq.tasks[i] := List.getElem?_eq_getElem hlt
  obtain ⟨hsrc, hdest, hnele⟩ := h.block i _ hget
  have hcopied := h.copied i _ hget (h.wf.all_finished hempty hget)
  rw [hsrc, hdest, hnele] at hcopied
  exact hcopied

/-- A call that cannot return can move. -/
theorem DcopyOk.progress (h : DcopyOk d m) : d.Done ∨ ∃ d' m', DcopyStep d m d' m' := by
  by_cases hb : (d.b : ℤ) < dcopyNblock d.nele d.blockSize
  · exact Or.inr ⟨_, _, .spawn hb⟩
  · rcases h.wf.progress with hempty | ⟨tq, hjoin⟩ | ⟨i, c, hi, hfin⟩
    · exact Or.inl ⟨not_lt.mp hb, hempty⟩
    · exact Or.inr ⟨_, _, .join tq (not_lt.mp hb) hjoin⟩
    · exact Or.inr ⟨_, _, .copy i c hi (by simpa [CopyTask.Fin] using hfin)⟩

/-- The steps left: four for each block still to spawn. -/
def Dcopy.cost (d : Dcopy) : ℕ :=
  4 * (d.count - d.b) + d.tq.cost (fun c => if c.finished then 0 else 1)

theorem DcopyOk.cost_step (h : DcopyOk d m) (hstep : DcopyStep d m d' m') :
    d'.cost + 1 = d.cost := by
  cases hstep with
  | spawn hb =>
      rw [h.sized.nblock_eq] at hb
      have hspawn := h.wf.cost_spawn (w := fun c : CopyTask => if c.finished then 0 else 1)
        d.newTask
      have hw : (if d.newTask.finished then 0 else 1) = 1 := rfl
      unfold Dcopy.cost
      show 4 * (d.count - (d.b + 1)) + (d.tq.spawn d.newTask).cost _ + 1 = _
      rw [hspawn]
      omega
  | copy i c hi hrun =>
      have hset := Group.cost_setTask (w := fun c : CopyTask => if c.finished then 0 else 1)
        { c with finished := true } hi
      rw [hrun] at hset
      unfold Dcopy.cost
      show 4 * (d.count - d.b) + (d.tq.setTask i _).cost _ + 1 = _
      simp only [if_true] at hset
      have hset : (d.tq.setTask i { c with finished := true }).cost
          (fun c => if c.finished = true then 0 else 1) + 1 = _ := hset
      omega
  | join tq hb hjoin =>
      have hcost := hjoin.cost (w := fun c : CopyTask => if c.finished then 0 else 1)
      unfold Dcopy.cost
      show 4 * (d.count - d.b) + tq.cost _ + 1 = _
      omega

end ComputerScience.Pqsort
