/-
  ComputerScience.Pqsort.Layout
  ─────────────────────────────
  **WHERE THE PARTITION TASKS PUT THEIR PARTS** (`partition_thread`,
  `26-parallelism/pqsort/pqsort.c`).

  Each partition task reserves room for the two parts of its block under a mutex: the left
  parts pile up from the left end of the array, the right parts from the right end.  The
  order in which the tasks took the mutex is a `Layout`.  The destinations in it are
  disjoint (`Layout.apart`) and leave no hole (`Layout.covers`), and once all parts are
  moved they hold the blocks (`Layout.perm`).
-/
import ComputerScience.Pqsort.Dcopy

namespace ComputerScience.Pqsort

open ComputerScience.Lib
open ComputerScience.Lib.Cells

/-! ## §1. Reservations. -/

/-- What a task reserved: its block and its two destinations. -/
structure Place where
  src : ℕ
  nleft : ℕ
  nright : ℕ
  leftIndex : ℕ
  rightIndex : ℕ
  deriving DecidableEq, Repr

/-- The reservations so far, the latest first, with `next_left_index` and
`next_right_index` after them. -/
inductive Layout (n : ℕ) : List Place → ℕ → ℕ → Prop where
  | nil : Layout n [] 0 n
  | cons {ps : List Place} {nextLeft nextRight : ℕ} (p : Place) (h : Layout n ps nextLeft nextRight)
      (hleft : p.leftIndex = nextLeft) (hright : p.rightIndex + p.nright = nextRight) :
      Layout n (p :: ps) (nextLeft + p.nleft) p.rightIndex

/-- Two reservations do not meet. -/
def Place.Apart (p q : Place) : Prop :=
  (p.leftIndex + p.nleft ≤ q.leftIndex ∨ q.leftIndex + q.nleft ≤ p.leftIndex) ∧
    (p.rightIndex + p.nright ≤ q.rightIndex ∨ q.rightIndex + q.nright ≤ p.rightIndex)

theorem Place.Apart.symm {p q : Place} (h : p.Apart q) : q.Apart p := by
  unfold Place.Apart at *
  omega

variable {n : ℕ} {ps : List Place} {nextLeft nextRight : ℕ}

theorem Layout.nextRight_le (h : Layout n ps nextLeft nextRight) : nextRight ≤ n := by
  induction h with
  | nil => exact Nat.le_refl n
  | cons p _ _ hright ih => omega

/-- A reservation lies left of `next_left_index` and right of `next_right_index`. -/
theorem Layout.bounds (h : Layout n ps nextLeft nextRight) {p : Place} (hp : p ∈ ps) :
    p.leftIndex + p.nleft ≤ nextLeft ∧ nextRight ≤ p.rightIndex ∧
      p.rightIndex + p.nright ≤ n := by
  induction h with
  | nil => exact absurd hp (by simp)
  | cons q h hleft hright ih =>
      rcases List.mem_cons.mp hp with rfl | hp
      · have := h.nextRight_le
        omega
      · have := ih hp
        omega

/-- **The destinations are pairwise disjoint.** -/
theorem Layout.apart (h : Layout n ps nextLeft nextRight) : ps.Pairwise Place.Apart := by
  induction h with
  | nil => exact List.Pairwise.nil
  | cons q h hleft hright ih =>
      refine List.Pairwise.cons ?_ ih
      intro p hp
      have := h.bounds hp
      unfold Place.Apart
      omega

/-- The left parts make up what lies left of `next_left_index`. -/
theorem Layout.nextLeft_eq (h : Layout n ps nextLeft nextRight) :
    nextLeft = (ps.map Place.nleft).sum := by
  induction h with
  | nil => rfl
  | cons p _ _ _ ih =>
      rw [List.map_cons, List.sum_cons, ← ih]
      omega

/-- **The destinations leave no hole**: what lies left of `next_left_index` or right of
`next_right_index` is a destination. -/
theorem Layout.covers (h : Layout n ps nextLeft nextRight) {k : ℕ} (hk : k < n)
    (hout : k < nextLeft ∨ nextRight ≤ k) :
    ∃ p ∈ ps, (p.leftIndex ≤ k ∧ k < p.leftIndex + p.nleft) ∨
      (p.rightIndex ≤ k ∧ k < p.rightIndex + p.nright) := by
  induction h with
  | nil => exact absurd hout (by omega)
  | @cons ps nextLeft nextRight p h hleft hright ih =>
      by_cases hnew : (p.leftIndex ≤ k ∧ k < p.leftIndex + p.nleft) ∨
          (p.rightIndex ≤ k ∧ k < p.rightIndex + p.nright)
      · exact ⟨p, List.mem_cons_self, hnew⟩
      · -- not in the latest reservation, so in the piles as they were before it
        obtain ⟨q, hq, hmem⟩ := ih (by omega)
        exact ⟨q, List.mem_cons_of_mem p hq, hmem⟩

/-! ## §2. The parts and their destinations. -/

variable {α : Type*}

/-- The left part of the block of `p`, in the scratch array. -/
def Place.left (p : Place) (scratch : Cells α) (off : ℕ) : List α :=
  scratch.load (off + p.src) p.nleft

/-- The right part of the block of `p`. -/
def Place.right (p : Place) (scratch : Cells α) (off : ℕ) : List α :=
  scratch.load (off + p.src + p.nleft) p.nright

/-- The task of `p` has copied both parts to their destinations. -/
def Place.Moved (p : Place) (m : Mem α) (off : ℕ) : Prop :=
  m.base.load (off + p.leftIndex) p.nleft = p.left m.scratch off ∧
    m.base.load (off + p.rightIndex) p.nright = p.right m.scratch off

/-- A reservation speaks of its own block and its own destinations. -/
theorem Place.Moved.congr {m m' : Mem α} {p : Place} {off : ℕ} (h : p.Moved m off)
    (hbase : ∀ i, (off + p.leftIndex ≤ i ∧ i < off + p.leftIndex + p.nleft) ∨
      (off + p.rightIndex ≤ i ∧ i < off + p.rightIndex + p.nright) → m'.base i = m.base i)
    (hscratch : ∀ i, off + p.src ≤ i → i < off + p.src + (p.nleft + p.nright) →
      m'.scratch i = m.scratch i) : p.Moved m' off := by
  unfold Place.Moved Place.left Place.right at *
  rw [load_congr (fun i hlo hhi => hbase i (Or.inl ⟨hlo, hhi⟩)),
    load_congr (fun i hlo hhi => hbase i (Or.inr ⟨hlo, hhi⟩)),
    load_congr (fun i hlo hhi => hscratch i hlo (by omega)),
    load_congr (fun i hlo hhi => hscratch i (by omega) (by omega))]
  exact h

/-- **The destinations hold the blocks**: once every task has moved its parts, what lies
left of `next_left_index` and right of `next_right_index` are the blocks, permuted. -/
theorem Layout.perm {m : Mem α} {off : ℕ} (h : Layout n ps nextLeft nextRight)
    (hmoved : ∀ p ∈ ps, p.Moved m off) :
    (m.base.load off nextLeft ++ m.base.load (off + nextRight) (n - nextRight)).Perm
      (ps.map fun p => m.scratch.load (off + p.src) (p.nleft + p.nright)).flatten := by
  induction h with
  | nil =>
      rw [Nat.sub_self]
      exact List.Perm.refl _
  | @cons ps nextLeft nextRight p h hleft hright ih =>
      have ih := ih (fun q hq => hmoved q (List.mem_cons_of_mem p hq))
      obtain ⟨hl, hr⟩ := hmoved p List.mem_cons_self
      have hle := h.nextRight_le
      have hnl : m.base.load off (nextLeft + p.nleft) =
          m.base.load off nextLeft ++ p.left m.scratch off := by
        rw [load_add, ← hl, hleft]
      have hnr : m.base.load (off + p.rightIndex) (n - p.rightIndex) =
          p.right m.scratch off ++ m.base.load (off + nextRight) (n - nextRight) := by
        rw [← hr, show off + nextRight = off + p.rightIndex + p.nright by omega, ← load_add]
        congr 1
        omega
      rw [hnl, hnr, List.map_cons, List.flatten_cons, load_add]
      show (m.base.load off nextLeft ++ p.left m.scratch off ++
        (p.right m.scratch off ++ m.base.load (off + nextRight) (n - nextRight))).Perm
        (p.left m.scratch off ++ p.right m.scratch off ++ _)
      -- bring the block to the front, then use the rest of the layout
      refine List.Perm.trans ?_ (List.Perm.append_left _ ih)
      generalize m.base.load off nextLeft = a
      generalize m.base.load (off + nextRight) (n - nextRight) = d
      generalize p.left m.scratch off = b
      generalize p.right m.scratch off = c
      rw [List.append_assoc, List.append_assoc]
      refine (List.perm_append_comm_assoc a b (c ++ d)).trans (List.Perm.append_left b ?_)
      exact List.perm_append_comm_assoc a c d

/-- What holds of all left parts holds left of `next_left_index`. -/
theorem Layout.left_forall {m : Mem α} {off : ℕ} (h : Layout n ps nextLeft nextRight)
    (hmoved : ∀ p ∈ ps, p.Moved m off) {P : α → Prop}
    (hP : ∀ p ∈ ps, ∀ x ∈ p.left m.scratch off, P x) : ∀ x ∈ m.base.load off nextLeft, P x := by
  induction h with
  | nil =>
      intro x hx
      exact absurd hx (by simp)
  | @cons ps nextLeft nextRight p h hleft hright ih =>
      intro x hx
      rw [load_add, List.mem_append] at hx
      rcases hx with hx | hx
      · exact ih (fun q hq => hmoved q (List.mem_cons_of_mem p hq))
          (fun q hq => hP q (List.mem_cons_of_mem p hq)) x hx
      · rw [← hleft, (hmoved p List.mem_cons_self).1] at hx
        exact hP p List.mem_cons_self x hx

/-- What holds of all right parts holds right of `next_right_index`. -/
theorem Layout.right_forall {m : Mem α} {off : ℕ} (h : Layout n ps nextLeft nextRight)
    (hmoved : ∀ p ∈ ps, p.Moved m off) {P : α → Prop}
    (hP : ∀ p ∈ ps, ∀ x ∈ p.right m.scratch off, P x) :
    ∀ x ∈ m.base.load (off + nextRight) (n - nextRight), P x := by
  induction h with
  | nil =>
      intro x hx
      rw [Nat.sub_self] at hx
      exact absurd hx (by simp)
  | @cons ps nextLeft nextRight p h hleft hright ih =>
      intro x hx
      have hle := h.nextRight_le
      rw [show n - p.rightIndex = p.nright + (n - nextRight) by omega, load_add,
        List.mem_append] at hx
      rcases hx with hx | hx
      · rw [(hmoved p List.mem_cons_self).2] at hx
        exact hP p List.mem_cons_self x hx
      · rw [show off + p.rightIndex + p.nright = off + nextRight by omega] at hx
        exact ih (fun q hq => hmoved q (List.mem_cons_of_mem p hq))
          (fun q hq => hP q (List.mem_cons_of_mem p hq)) x hx

end ComputerScience.Pqsort
