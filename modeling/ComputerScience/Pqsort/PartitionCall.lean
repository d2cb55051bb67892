/-
  ComputerScience.Pqsort.PartitionCall
  ────────────────────────────────────
  **ONE CALL OF** `partition_parallel` (`26-parallelism/pqsort/pqsort.c`), from the choice
  of the pivot to the return, with every interleaving of its copy and partition tasks.

  Main results:
    • `PparOk.dests_disjoint`, `PparOk.dests_cover` — the destinations of the partition
      tasks never meet, and once all are reserved they are the whole array but its last
      cell,
    • `PparLeft.step` — the size of a left part is that of the block as it was copied,
      whenever the task runs,
    • `partition_parallel_splits` — the call returns; the array is then partitioned around
      the pivot, at an index that does not depend on the order of the tasks.

  The two arrays are rows of their own.  The call uses the cells from `base` on of each.
-/
import ComputerScience.Lib.TransitionSystem
import ComputerScience.Pqsort.SortTask
import Mathlib.Order.Interval.Finset.Nat

namespace ComputerScience.Pqsort

open ComputerScience.Lib
open ComputerScience.Lib.Cells

variable {α : Type*}

/-! ## §1. The destinations of the tasks. -/

/-- The cells a reservation is for: `[left_index, left_index + nleft)` and
`[right_index, right_index + nright)`. -/
def Place.dests (p : Place) : List (Finset ℕ) :=
  [Finset.Ico p.leftIndex (p.leftIndex + p.nleft), Finset.Ico p.rightIndex (p.rightIndex + p.nright)]

/-- The destinations of a task, once it has been in the critical section. -/
def PartTask.dests (t : PartTask) : List (Finset ℕ) := (t.place?.map Place.dests).getD []

/-- The destinations of all tasks. -/
def Ppar.dests (d : Ppar α) : List (Finset ℕ) := d.tq.tasks.flatMap PartTask.dests

/-- The loop has ended and every task has been in the critical section. -/
def Ppar.AllPlaced (d : Ppar α) : Prop :=
  partNblock d.nele d.blockSize ≤ d.b ∧ ∀ t ∈ d.tq.tasks, t.place?.isSome

theorem PartTask.mem_dests {t : PartTask} {r : Finset ℕ} :
    r ∈ t.dests ↔ ∃ p, t.place? = some p ∧ r ∈ p.dests := by
  unfold PartTask.dests
  cases t.place? with
  | none => simp
  | some p => simp

variable [LinearOrder α] {d d' : Ppar α} {m m' : Mem α}

/-- **The destinations are pairwise disjoint**, at every moment. -/
theorem PparOk.dests_disjoint (h : PparOk d m) : d.dests.Pairwise Disjoint := by
  have hmeet := h.left_le_right
  have hdisj : ∀ a b a' b' : ℕ, b ≤ a' ∨ b' ≤ a →
      Disjoint (Finset.Ico a b) (Finset.Ico a' b') := by
    intro a b a' b' hout
    rw [Finset.disjoint_left]
    intro k hk hk'
    rw [Finset.mem_Ico] at hk hk'
    omega
  unfold Ppar.dests
  rw [List.pairwise_flatMap]
  constructor
  · -- left and right part of one task
    intro t ht
    obtain ⟨i, hi⟩ := List.getElem?_of_mem ht
    unfold PartTask.dests
    cases hp : t.place? with
    | none => exact List.Pairwise.nil
    | some p =>
        obtain ⟨hl, hr, _⟩ := h.place_bounds hi hp
        show [_, _].Pairwise Disjoint
        rw [List.pairwise_pair]
        exact hdisj _ _ _ _ (by omega)
  · -- the parts of two tasks
    rw [List.pairwise_iff_getElem]
    intro i j hi hj hij r hr r' hr'
    obtain ⟨p, hp, hr⟩ := PartTask.mem_dests.mp hr
    obtain ⟨q, hq, hr'⟩ := PartTask.mem_dests.mp hr'
    have hgi := List.getElem?_eq_getElem hi
    have hgj := List.getElem?_eq_getElem hj
    obtain ⟨hpl, hpr, _⟩ := h.place_bounds hgi hp
    obtain ⟨hql, hqr, _⟩ := h.place_bounds hgj hq
    have hapart := h.apart (Nat.ne_of_lt hij) hgi hgj hp hq
    unfold Place.Apart at hapart
    unfold Place.dests at hr hr'
    rw [List.mem_pair] at hr hr'
    rcases hr with rfl | rfl
    · rcases hr' with rfl | rfl
      · exact hdisj _ _ _ _ hapart.1
      · exact hdisj _ _ _ _ (by omega)
    · rcases hr' with rfl | rfl
      · exact hdisj _ _ _ _ (by omega)
      · exact hdisj _ _ _ _ hapart.2

/-- **Together the destinations are the array without its last cell.** -/
theorem PparOk.dests_cover (h : PparOk d m) (hall : d.AllPlaced) (k : ℕ) :
    (∃ r ∈ d.dests, k ∈ r) ↔ k < d.nele - 1 := by
  obtain ⟨ps, hlayout, hperm⟩ := h.layout
  have hmeet := h.left_le_right
  unfold Ppar.dests
  constructor
  · intro ⟨r, hr, hk⟩
    obtain ⟨t, ht, hr⟩ := List.mem_flatMap.mp hr
    obtain ⟨p, hp, hr⟩ := PartTask.mem_dests.mp hr
    obtain ⟨i, hi⟩ := List.getElem?_of_mem ht
    have hbounds := h.place_bounds hi hp
    unfold Place.dests at hr
    rw [List.mem_pair] at hr
    rcases hr with rfl | rfl
    · rw [Finset.mem_Ico] at hk
      omega
    · rw [Finset.mem_Ico] at hk
      omega
  · intro hk
    obtain ⟨hb, hplaced⟩ := hall
    rw [Ppar.nblock_eq h.sized] at hb
    have hcount : d.b = d.count := by
      have := h.b_le
      omega
    -- the piles have met, so there is no gap between them
    have hmet := h.met_of_placed hcount (fun t ht => Option.isSome_iff_exists.mp (hplaced t ht))
    obtain ⟨p, hp, hin⟩ := hlayout.covers hk (by omega)
    obtain ⟨t, ht, htp⟩ := List.mem_filterMap.mp (hperm.mem_iff.mp hp)
    rcases hin with hin | hin
    · refine ⟨Finset.Ico p.leftIndex (p.leftIndex + p.nleft), ?_, Finset.mem_Ico.mpr hin⟩
      exact List.mem_flatMap.mpr ⟨t, ht, PartTask.mem_dests.mpr ⟨p, htp, List.mem_cons_self⟩⟩
    · refine ⟨Finset.Ico p.rightIndex (p.rightIndex + p.nright), ?_, Finset.mem_Ico.mpr hin⟩
      exact List.mem_flatMap.mpr ⟨t, ht, PartTask.mem_dests.mpr
        ⟨p, htp, List.mem_cons_of_mem _ List.mem_cons_self⟩⟩

/-- When `join_tasks` returns, every task has been in the critical section. -/
theorem PparOk.allPlaced (h : PparOk d m) (hdone : d.Done) : d.AllPlaced := by
  refine ⟨hdone.1, ?_⟩
  intro t ht
  exact Option.isSome_iff_exists.mpr ((h.all_finished hdone).2 t ht).place

/-! ## §2. The sizes of the left parts. -/

/-- The size of the left part of block `i` of a row `g`. -/
def leftSize (g : Cells α) (base nele blockSize : ℕ) (pval : α) (i : ℕ) : ℕ :=
  (partitionSweep g (base + tileStart (nele - 1) (blockCount (nele - 1) blockSize) i)
    (tileLen (nele - 1) (blockCount (nele - 1) blockSize) i) pval).2

/-- The sizes of all left parts together. -/
def leftTotal (g : Cells α) (base nele blockSize : ℕ) (pval : α) : ℕ :=
  ((List.range (blockCount (nele - 1) blockSize)).map
    (leftSize g base nele blockSize pval)).sum

/-- The scratch array was a copy of `g`: a cell whose task has not swept yet still is, and
a task that has swept found what is there in `g`. -/
structure PparLeft (g : Cells α) (d : Ppar α) (m : Mem α) : Prop where
  fresh : ∀ k, d.par.base ≤ k → k < d.par.base + (d.nele - 1) →
    (∀ (i : ℕ) (t : PartTask), d.tq.tasks[i]? = some t → d.par.base + t.srcIndex ≤ k →
      k < d.par.base + t.srcIndex + t.nele → t.pc.nleft? = none) → m.scratch k = g k
  size : ∀ (i : ℕ) (t : PartTask) (nleft : ℕ), d.tq.tasks[i]? = some t →
    t.pc.nleft? = some nleft →
      nleft = (partitionSweep g (d.par.base + t.srcIndex) t.nele d.par.pval).2

variable {g : Cells α}

/-- A task goes on with the left part it has. -/
theorem PparLeft.setTask (h : PparLeft g d m) {i : ℕ} {t u : PartTask} {par : PartitionT α}
    (hi : d.tq.tasks[i]? = some t) (hblock : u.srcIndex = t.srcIndex ∧ u.nele = t.nele)
    (hleft : u.pc.nleft? = t.pc.nleft?) (hpar : par.base = d.par.base ∧ par.pval = d.par.pval)
    (hm : m'.scratch = m.scratch) :
    PparLeft g { d with par := par, tq := d.tq.setTask i u } m' := by
  constructor
  · intro k hlo hhi hnone
    dsimp only at hlo hhi hnone
    rw [hpar.1] at hlo hhi
    rw [hm]
    apply h.fresh k hlo hhi
    intro j v hj hvlo hvhi
    rcases getElem?_set_of_some u hi hj with ⟨rfl, rfl, hset⟩ | ⟨_, hset⟩
    · rw [← hleft]
      exact hnone j u hset (by omega) (by omega)
    · exact hnone j v hset (by omega) (by omega)
  · intro j v nleft hj hv
    show nleft = (partitionSweep g (par.base + v.srcIndex) v.nele par.pval).2
    rw [hpar.1, hpar.2]
    rcases getElem?_set_cases hj with ⟨rfl, rfl⟩ | ⟨_, hold⟩
    · rw [hblock.1, hblock.2]
      exact h.size j t nleft hi (hleft ▸ hv)
    · exact h.size j v nleft hold hv

/-- A task sweeps: it finds its block as it was copied. -/
theorem PparLeft.sweep (h : PparLeft g d m) (hok : PparOk d m) {i : ℕ} {t : PartTask}
    (hi : d.tq.tasks[i]? = some t) (hpc : t.pc = .start) :
    PparLeft g
      { d with
        tq := d.tq.setTask i
          { t with
            pc := .swept (partitionSweep m.scratch (d.par.base + t.srcIndex) t.nele
              d.par.pval).2 } }
      { m with
        scratch := (partitionSweep m.scratch (d.par.base + t.srcIndex) t.nele d.par.pval).1 } := by
  have hin := hok.block_in hi
  have hswept := partitionSweep_spec m.scratch (d.par.base + t.srcIndex) t.nele d.par.pval
  -- no other task has the block, and this one has not swept
  have hfresh : ∀ k, d.par.base + t.srcIndex ≤ k → k < d.par.base + t.srcIndex + t.nele →
      m.scratch k = g k := by
    intro k hlo hhi
    apply h.fresh k (by omega) (by omega)
    intro j v hj hvlo hvhi
    by_cases hji : j = i
    · subst hji
      obtain rfl : t = v := Option.some.inj (hi.symm.trans hj)
      rw [hpc]
      rfl
    · have := hok.block_disjoint hji hj hi
      omega
  constructor
  · intro k hlo hhi hnone
    -- the cell is not in the block just swept
    have hout : k < d.par.base + t.srcIndex ∨ d.par.base + t.srcIndex + t.nele ≤ k := by
      by_contra hc
      have hself := hnone i _ (List.getElem?_set_self (List.getElem?_eq_some_iff.mp hi).1)
        (by dsimp only; omega) (by dsimp only; omega)
      exact absurd hself (by simp [PartPc.nleft?])
    show (partitionSweep m.scratch (d.par.base + t.srcIndex) t.nele d.par.pval).1 k = g k
    rw [hswept.rearranged.frame k (by omega)]
    apply h.fresh k hlo hhi
    intro j v hj hvlo hvhi
    by_cases hji : j = i
    · subst hji
      obtain rfl : t = v := Option.some.inj (hi.symm.trans hj)
      omega
    · refine hnone j v ?_ hvlo hvhi
      show (d.tq.tasks.set i _)[j]? = some v
      rw [List.getElem?_set_ne (Ne.symm hji)]
      exact hj
  · intro j v nleft hj hv
    rcases getElem?_set_cases hj with ⟨rfl, rfl⟩ | ⟨_, hold⟩
    · obtain rfl := Option.some.inj hv
      exact partitionSweep_congr hfresh
    · exact h.size j v nleft hold hv

/-- **One step of the tasks**: every left part has the size it has in the copy. -/
theorem PparLeft.step (h : PparLeft g d m) (hok : PparOk d m) (hstep : PparStep d m d' m') :
    PparLeft g d' m' := by
  cases hstep with
  | spawn hb =>
      constructor
      · intro k hlo hhi hnone
        apply h.fresh k hlo hhi
        intro i t hi
        refine hnone i t ?_
        show (d.tq.tasks ++ [d.newTask])[i]? = some t
        rw [List.getElem?_append_left (List.getElem?_eq_some_iff.mp hi).1]
        exact hi
      · intro i t nleft hi hleft
        rcases getElem?_concat_cases hi with hold | ⟨_, rfl⟩
        · exact h.size i t nleft hold hleft
        · exact absurd hleft (by simp [Ppar.newTask, PartPc.nleft?])
  | sweep i t hi hpc =>
      rw [hok.same]
      exact h.sweep hok hi hpc
  | reserve i nleft t hi hpc =>
      exact h.setTask hi ⟨rfl, rfl⟩ (by rw [hpc]; rfl) ⟨rfl, rfl⟩ rfl
  | move i nleft li ri t hi hpc =>
      exact h.setTask hi ⟨rfl, rfl⟩ (by rw [hpc]; rfl) ⟨rfl, rfl⟩ rfl
  | join tq hb hjoin =>
      have htasks := hjoin.tasks_eq
      constructor
      · intro k hlo hhi hnone
        apply h.fresh k hlo hhi
        intro i t hi
        exact hnone i t (htasks.symm ▸ hi)
      · intro i t nleft hi
        exact h.size i t nleft (htasks ▸ hi)

/-- **Where the piles meet** is decided by the copy alone. -/
theorem PparLeft.total (h : PparLeft g d m) (hok : PparOk d m) (hdone : d.Done) :
    d.par.nextLeftIndex = leftTotal g d.par.base d.nele d.blockSize d.par.pval := by
  obtain ⟨hcount, hfin⟩ := hok.all_finished hdone
  obtain ⟨ps, hlayout, hperm⟩ := hok.layout
  rw [hlayout.nextLeft_eq, (hperm.map Place.nleft).sum_eq, List.map_filterMap]
  unfold leftTotal
  congr 1
  -- task by task: its left part is the one its block has in the copy
  have hsome : d.tq.tasks.filterMap (fun t => t.place?.map Place.nleft) =
      d.tq.tasks.filterMap (fun t =>
        some (partitionSweep g (d.par.base + t.srcIndex) t.nele d.par.pval).2) := by
    apply List.filterMap_congr
    intro t ht
    obtain ⟨i, hi⟩ := List.getElem?_of_mem ht
    obtain ⟨p, hp⟩ := (hfin t ht).place
    have hleft := (hok.place_block hi hp).1
    rw [hp, Option.map_some, ← h.size i t p.nleft hi hleft]
  rw [hsome, List.filterMap_eq_map']
  apply List.ext_getElem
  · rw [List.length_map, List.length_map, List.length_range, hok.length, hcount]
    rfl
  · intro i hi _
    rw [List.length_map] at hi
    obtain ⟨hsrc, hlen⟩ := hok.block i _ (List.getElem?_eq_getElem hi)
    rw [List.getElem_map, List.getElem_map, List.getElem_range, hsrc, hlen]
    rfl

/-! ## §3. The call. -/

/-- Where `partition_parallel(base, nele, scratch_base, block_size)` is. -/
inductive CallPc (α : Type*) where
  | start
  /-- in `dcopy_parallel` -/
  | copying (pval : α) (d : Dcopy)
  /-- from `init_partition` to `join_tasks` -/
  | partitioning (d : Ppar α)
  | returned (m : ℕ)

/-- The call and the two arrays. -/
structure Call (α : Type*) where
  pc : CallPc α
  mem : Mem α

/-- One step of the call or of one of its tasks. -/
inductive CallStep (base nele scratchBase blockSize : ℕ) : Call α → Call α → Prop where
  -- pivot aside, then `dcopy_parallel`
  | select (m : Mem α) :
      CallStep base nele scratchBase blockSize ⟨.start, m⟩
        ⟨.copying (m.base (pivot base nele)) (Dcopy.enter base scratchBase (nele - 1) blockSize),
          { m with base := m.base.swap (pivot base nele) (base + nele - 1) }⟩
  | copy (pval : α) (d d' : Dcopy) (m m' : Mem α) (hstep : DcopyStep d m d' m') :
      CallStep base nele scratchBase blockSize ⟨.copying pval d, m⟩ ⟨.copying pval d', m'⟩
  -- `dcopy_parallel` returns; `init_partition`
  | copied (pval : α) (d : Dcopy) (m : Mem α) (hdone : d.Done) :
      CallStep base nele scratchBase blockSize ⟨.copying pval d, m⟩
        ⟨.partitioning (Ppar.enter base nele scratchBase pval blockSize), m⟩
  | part (d d' : Ppar α) (m m' : Mem α) (hstep : PparStep d m d' m') :
      CallStep base nele scratchBase blockSize ⟨.partitioning d, m⟩ ⟨.partitioning d', m'⟩
  -- `join_tasks` returns; "Swap pivot back"
  | parted (d : Ppar α) (m : Mem α) (hdone : d.Done) :
      CallStep base nele scratchBase blockSize ⟨.partitioning d, m⟩
        ⟨.returned d.par.nextLeftIndex,
          { m with base := m.base.swap (base + d.par.nextLeftIndex) (base + nele - 1) }⟩

/-- The runs of one call on given arrays, both used from offset `base` on. -/
def partitionParallel (base nele blockSize : ℕ) (m₀ : Mem α) : System (Call α) where
  init s := s = ⟨.start, m₀⟩
  step := CallStep base nele base blockSize

/-- The program counter of the sort task that makes the call. -/
def CallPc.inSort : CallPc α → SortPc α
  | .start => .start
  | .copying pval d => .copying pval d
  | .partitioning d => .partitioning d
  | .returned m => .left m

/-- The calls of a sort task above the cutover are calls as here. -/
theorem CallStep.sortStep {c : Tuning α} {total base nele scratchBase : ℕ} {s s' : Call α}
    (hcut : ¬ nele ≤ c.neleMaxPartitionSerial total)
    (h : CallStep base nele scratchBase (c.neleMaxPartitionSerial total) s s') :
    SortStep c total ⟨base, nele, scratchBase, s.pc.inSort⟩ s.mem s'.pc.inSort s'.mem none := by
  cases h with
  | select m => exact .select rfl hcut
  | copy pval d d' m m' hstep => exact .copy pval d d' m' rfl hstep
  | copied pval d m hdone => exact .copied pval d rfl hdone
  | part d d' m m' hstep => exact .part d d' m' rfl hstep
  | parted d m hdone => exact .parted d rfl hdone

/-! ## §4. The invariant of the call. -/

section Invariant

variable {base nele blockSize : ℕ} {m₀ : Mem α}

/-- The array with the pivot at its end. -/
def aside (base nele : ℕ) (m₀ : Mem α) : Cells α :=
  m₀.base.swap (pivot base nele) (base + nele - 1)

/-- What is known of the call by its program counter. -/
def Call.Ok (base nele blockSize : ℕ) (m₀ : Mem α) (s : Call α) : Prop :=
  match s.pc with
  | .start => s.mem = m₀
  | .copying pval d =>
      pval = m₀.base (pivot base nele) ∧ s.mem.base = aside base nele m₀ ∧ DcopyOk d s.mem ∧
        d.src = base ∧ d.dest = base ∧ d.nele = nele - 1 ∧ d.blockSize = blockSize
  | .partitioning d =>
      PparOk d s.mem ∧ PparLeft (aside base nele m₀) d s.mem ∧
        (d.par.base = base ∧ d.par.pval = m₀.base (pivot base nele)) ∧
        (d.nele = nele ∧ d.blockSize = blockSize) ∧
        (d.par.pval :: s.mem.scratch.load base (nele - 1)).Perm (m₀.base.load base nele) ∧
        ∀ i, i < base ∨ base + nele ≤ i → s.mem.base i = m₀.base i
  | .returned k =>
      Rearranged m₀.base s.mem.base base nele ∧
        Split s.mem.base base nele k (m₀.base (pivot base nele)) ∧
        k = leftTotal (aside base nele m₀) base nele blockSize (m₀.base (pivot base nele))

omit [LinearOrder α] in
theorem aside_rearranged (hnele : 0 < nele) : Rearranged m₀.base (aside base nele m₀) base nele := by
  apply Rearranged.swap
  · unfold pivot
    omega
  · omega

omit [LinearOrder α] in
theorem aside_last (hnele : 0 < nele) :
    aside base nele m₀ (base + (nele - 1)) = m₀.base (pivot base nele) := by
  unfold aside
  rw [show base + (nele - 1) = base + nele - 1 by omega, swap_right]

/-- The copy is complete: no block is swept, and every cell is as it was copied. -/
theorem PparLeft.enter {pval : α} (hcopied : m.scratch.load base (nele - 1) = g.load base (nele - 1)) :
    PparLeft g (Ppar.enter base nele base pval blockSize) m := by
  constructor
  · intro k hlo hhi _
    exact eq_of_load_eq hcopied k hlo hhi
  · intro i t nleft hi
    exact absurd hi (by simp [Ppar.enter, Group.new])

/-- `dcopy_parallel` returns. -/
theorem Call.Ok.copied (hnele : 0 < nele) {pval : α} {d : Dcopy}
    (h : Call.Ok base nele blockSize m₀ ⟨.copying pval d, m⟩) (hdone : d.Done) :
    Call.Ok base nele blockSize m₀
      ⟨.partitioning (Ppar.enter base nele base pval blockSize), m⟩ := by
  obtain ⟨hpval, hbase, hd, hsrc, hdest, hn, hblock⟩ := h
  dsimp only at hbase hd
  have hcopied := hd.done hdone
  rw [hsrc, hdest, hn, hbase] at hcopied
  have hsized := hd.sized
  rw [hn, hblock] at hsized
  refine ⟨?_, PparLeft.enter hcopied, ⟨rfl, hpval⟩, ⟨rfl, rfl⟩, ?_, ?_⟩
  · apply PparOk.enter hsized
    rw [hbase, hpval]
    exact aside_last hnele
  · -- the scratch array holds everything but the pivot
    show (pval :: m.scratch.load base (nele - 1)).Perm _
    rw [hcopied, hpval, ← aside_last hnele]
    exact (cons_last_perm _ hnele).trans (aside_rearranged hnele).perm
  · intro i hi
    exact (congrFun hbase i).trans ((aside_rearranged hnele).frame i hi)

/-- A step of the partition tasks. -/
theorem Call.Ok.part {d d' : Ppar α}
    (h : Call.Ok base nele blockSize m₀ ⟨.partitioning d, m⟩) (hstep : PparStep d m d' m') :
    Call.Ok base nele blockSize m₀ ⟨.partitioning d', m'⟩ := by
  obtain ⟨hok, hleft, ⟨hbase, hpval⟩, ⟨hn, hblock⟩, hperm, hframe⟩ := h
  dsimp only at hok hleft hperm hframe
  obtain ⟨hok', hf⟩ := hok.step hstep
  have hscratch := hf.scratch
  have houter := hf.frame
  rw [hbase, hn] at hscratch houter
  refine ⟨hok', hleft.step hok hstep, ⟨hf.base.trans hbase, hf.pval.trans hpval⟩,
    ⟨hf.nele.trans hn, hf.blockSize.trans hblock⟩, ?_, ?_⟩
  · rw [hf.pval]
    exact (hscratch.perm.cons _).trans hperm
  · intro i hi
    exact (houter i (by omega)).trans (hframe i hi)

/-- `join_tasks` returns, and the pivot goes between the two sides. -/
theorem Call.Ok.parted (hnele : 0 < nele) {d : Ppar α}
    (h : Call.Ok base nele blockSize m₀ ⟨.partitioning d, m⟩) (hdone : d.Done) :
    Call.Ok base nele blockSize m₀
      ⟨.returned d.par.nextLeftIndex,
        { m with base := m.base.swap (base + d.par.nextLeftIndex) (base + nele - 1) }⟩ := by
  obtain ⟨hok, hleft, ⟨hbase, hpval⟩, ⟨hn, hblock⟩, hperm, hframe⟩ := h
  dsimp only at hok hleft hperm hframe
  have htotal := hleft.total hok hdone
  have hle := (hok.done hdone).1
  obtain ⟨hsplit, hback⟩ := hok.parted hdone
  rw [hbase, hn] at hsplit hback
  rw [hn] at hle
  refine ⟨⟨hback.trans hperm, ?_⟩, ?_, ?_⟩
  · intro i hi
    exact (swap_of_ne m.base (by omega) (by omega)).trans (hframe i hi)
  · rw [← hpval]
    exact hsplit
  · rw [htotal, hbase, hn, hblock, hpval]

/-- **One step of the call.** -/
theorem Call.Ok.step (hsized : Sized (nele - 1) blockSize) {s s' : Call α}
    (h : Call.Ok base nele blockSize m₀ s) (hstep : CallStep base nele base blockSize s s') :
    Call.Ok base nele blockSize m₀ s' := by
  have hnele : 0 < nele := by
    have := hsized.pos
    omega
  cases hstep with
  | select m =>
      obtain rfl : m = m₀ := h
      exact ⟨rfl, rfl, DcopyOk.enter hsized _, rfl, rfl, rfl, rfl⟩
  | copy pval d d' m m' hstep =>
      obtain ⟨hpval, hbase, hd, hsrc, hdest, hn, hblock⟩ := h
      obtain ⟨hd', ⟨hsrc', hdest', hn', hblock'⟩, hsame, _⟩ := hd.step hstep
      exact ⟨hpval, hsame.trans hbase, hd', hsrc'.trans hsrc, hdest'.trans hdest,
        hn'.trans hn, hblock'.trans hblock⟩
  | copied pval d m hdone => exact h.copied hnele hdone
  | part d d' m m' hstep => exact h.part hstep
  | parted d m hdone => exact h.parted hnele hdone

/-- **Every run of the call.** -/
theorem Call.Ok.reachable (hsized : Sized (nele - 1) blockSize) {s : Call α}
    (h : (partitionParallel base nele blockSize m₀).Reachable s) :
    Call.Ok base nele blockSize m₀ s := by
  refine System.Reachable.invariant ?_ (fun s s' _ hok hstep => hok.step hsized hstep) h
  intro s hs
  obtain rfl : s = ⟨.start, m₀⟩ := hs
  exact rfl

/-! ## §5. The call returns. -/

/-- The steps left to the call. -/
def Call.cost (nele blockSize : ℕ) (s : Call α) : ℕ :=
  match s.pc with
  | .start => 10 * blockCount (nele - 1) blockSize + 3
  | .copying _ d => d.cost + 6 * blockCount (nele - 1) blockSize + 2
  | .partitioning d => d.cost + 1
  | .returned _ => 0

/-- Every step counts. -/
theorem Call.Ok.cost_step {s s' : Call α} (h : Call.Ok base nele blockSize m₀ s)
    (hstep : CallStep base nele base blockSize s s') :
    s'.cost nele blockSize < s.cost nele blockSize := by
  cases hstep with
  | select m =>
      show 4 * (blockCount (nele - 1) blockSize - 0) + 0 + 6 * blockCount (nele - 1) blockSize + 2 <
        10 * blockCount (nele - 1) blockSize + 3
      omega
  | copy pval d d' m m' hstep =>
      obtain ⟨_, _, hd, _⟩ := h
      have hcost := hd.cost_step hstep
      show d'.cost + 6 * blockCount (nele - 1) blockSize + 2 <
        d.cost + 6 * blockCount (nele - 1) blockSize + 2
      omega
  | copied pval d m hdone =>
      show 6 * (blockCount (nele - 1) blockSize - 0) + 0 + 1 <
        d.cost + 6 * blockCount (nele - 1) blockSize + 2
      omega
  | part d d' m m' hstep =>
      have hcost := h.1.cost_step hstep
      show d'.cost + 1 < d.cost + 1
      omega
  | parted d m hdone =>
      show 0 < d.cost + 1
      omega

/-- A call that has not returned can move. -/
theorem Call.Ok.progress {s : Call α} (h : Call.Ok base nele blockSize m₀ s)
    (hstuck : ∀ s', ¬ CallStep base nele base blockSize s s') : ∃ k, s.pc = .returned k := by
  obtain ⟨pc, m⟩ := s
  cases pc with
  | start => exact absurd (.select m) (hstuck _)
  | copying pval d =>
      obtain ⟨_, _, hd, _⟩ := h
      rcases hd.progress with hdone | ⟨d', m', hstep⟩
      · exact absurd (.copied pval d m hdone) (hstuck _)
      · exact absurd (.copy pval d d' m m' hstep) (hstuck _)
  | partitioning d =>
      rcases h.1.progress with hdone | ⟨d', m', hstep⟩
      · exact absurd (.parted d m hdone) (hstuck _)
      · exact absurd (.part d d' m m' hstep) (hstuck _)
  | returned k => exact ⟨k, rfl⟩

end Invariant

/-- **`partition_parallel`, for every order of its tasks.**  The destinations of the
partition tasks are pairwise disjoint in every state, and cover the positions up to
`nele - 2` when all are reserved; that is so when `join_tasks` returns.  On return the
array is a permutation of its first contents, split around the pivot value at the returned
index.  All runs return, and all return the same index. -/
theorem partition_parallel_splits (base nele blockSize : ℕ) (m₀ : Mem α) (hnele : 3 ≤ nele)
    (hlt : nele < 2 ^ 31) (hblock : 2 ≤ blockSize) (hle : blockSize < nele) :
    (∀ (d : Ppar α) (m : Mem α),
      (partitionParallel base nele blockSize m₀).Reachable ⟨.partitioning d, m⟩ →
        d.dests.Pairwise Disjoint ∧
        (d.AllPlaced → ∀ k, (∃ r ∈ d.dests, k ∈ r) ↔ k ≤ nele - 2) ∧ (d.Done → d.AllPlaced)) ∧
    (∀ (k : ℕ) (m : Mem α),
      (partitionParallel base nele blockSize m₀).Reachable ⟨.returned k, m⟩ →
        Rearranged m₀.base m.base base nele ∧
        Split m.base base nele k (m₀.base (pivot base nele))) ∧
    (∀ (k k' : ℕ) (m m' : Mem α),
      (partitionParallel base nele blockSize m₀).Reachable ⟨.returned k, m⟩ →
      (partitionParallel base nele blockSize m₀).Reachable ⟨.returned k', m'⟩ → k = k') ∧
    (partitionParallel base nele blockSize m₀).EndsIn (fun s => ∃ k, s.pc = .returned k) := by
  have hsized : Sized (nele - 1) blockSize := ⟨by omega, by omega, by omega, by omega⟩
  refine ⟨?_, ?_, ?_, ?_⟩
  · intro d m hreach
    obtain ⟨hok, _, _, ⟨hn, _⟩, _⟩ := Call.Ok.reachable hsized hreach
    refine ⟨hok.dests_disjoint, ?_, hok.allPlaced⟩
    intro hall k
    rw [hok.dests_cover hall k, hn]
    omega
  · intro k m hreach
    obtain ⟨hperm, hsplit, _⟩ := Call.Ok.reachable hsized hreach
    exact ⟨hperm, hsplit⟩
  · -- both are where the left parts of the copied blocks end
    intro k k' m m' hreach hreach'
    obtain ⟨_, _, hk⟩ := Call.Ok.reachable hsized hreach
    obtain ⟨_, _, hk'⟩ := Call.Ok.reachable hsized hreach'
    exact hk.trans hk'.symm
  · apply System.ends_of_measure (Call.cost nele blockSize)
    · intro s s' hreach hstep
      exact (Call.Ok.reachable hsized hreach).cost_step hstep
    · intro s hreach hstuck
      exact (Call.Ok.reachable hsized hreach).progress hstuck

/-- A call on `2, 0, 4, 1, 3` with blocks of two, hence with two partition tasks, returns, and
its pivot `4` stands at the returned index. -/
theorem partition_parallel_splits_five :
    ∃ (k : ℕ) (m : Mem ℕ),
      (partitionParallel 0 5 2 ⟨fun i => [2, 0, 4, 1, 3].getD i 0, fun _ => 0⟩).Reachable
        ⟨.returned k, m⟩ ∧ m.base k = 4 := by
  obtain ⟨_, hsplit, _, hends⟩ := partition_parallel_splits 0 5 2
    ⟨fun i => [2, 0, 4, 1, 3].getD i 0, fun _ => 0⟩ (by decide) (by decide) (by decide) (by decide)
  obtain ⟨⟨pc, m⟩, hreach, k, hk⟩ := hends.exists_good rfl
  obtain rfl : pc = .returned k := hk
  have hpivot := (hsplit k m hreach).2.pivot
  rw [Nat.zero_add] at hpivot
  exact ⟨k, m, hreach, hpivot⟩

end ComputerScience.Pqsort
