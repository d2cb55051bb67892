/-
  ComputerScience.Lib.Dfs
  ───────────────────────
  **DEPTH-FIRST WALKS WITH A TABLE OF VISITED NODES.**

  `Walk succ V ts new V'` says that a walk through the nodes `ts`, one after the other, that
  marks a node before it goes on to its successors, takes the table from `V` to `V'`, and
  that it marks the nodes `new`, in this order.  A sequence of walks is a walk (`Walk.append`).

    • `Walk.table`, `Walk.nodup` — what is new is new, and marked once,
    • `Walk.expanded` — every successor of a new node is in the table at the end; in the
      middle of a walk this fails, for the nodes that are still open,
    • `Walk.mem_iff` — a walk from the empty table marks what can be reached,
    • `Walk.sum` — a quantity that a walk adds for every node it marks is a sum over the table.
-/
import Mathlib.Algebra.BigOperators.Group.Finset.Basic
import Mathlib.Logic.Relation

namespace ComputerScience.Lib

variable {τ : Type*} [DecidableEq τ]

/-- The walk, by what it does with the first node. -/
inductive Walk (succ : τ → List τ) : Finset τ → List τ → List τ → Finset τ → Prop
  | done (V : Finset τ) : Walk succ V [] [] V
  | seen {V V' : Finset τ} {t : τ} {ts new : List τ} (ht : t ∈ V) (rest : Walk succ V ts new V') :
      Walk succ V (t :: ts) new V'
  | mark {V V₁ V₂ : Finset τ} {t : τ} {ts new₁ new₂ : List τ} (ht : t ∉ V)
      (inner : Walk succ (insert t V) (succ t) new₁ V₁) (rest : Walk succ V₁ ts new₂ V₂) :
      Walk succ V (t :: ts) (t :: (new₁ ++ new₂)) V₂

/-- `b` can be reached from `a` along successors. -/
def Reaches (succ : τ → List τ) : τ → τ → Prop := Relation.ReflTransGen (fun a b => b ∈ succ a)

namespace Walk

variable {succ : τ → List τ} {V V' : Finset τ} {ts new : List τ}

/-- **Walks one after the other** are a walk. -/
theorem append {V'' : Finset τ} {ts' new' : List τ} (h : Walk succ V ts new V')
    (h' : Walk succ V' ts' new' V'') : Walk succ V (ts ++ ts') (new ++ new') V'' := by
  induction h with
  | done V => exact h'
  | seen ht _ ih => exact seen ht (ih h')
  | mark ht inner _ _ ih =>
      have hwalk := mark ht inner (ih h')
      rw [← List.append_assoc, ← List.cons_append] at hwalk
      exact hwalk

/-- The table afterwards. -/
theorem table (h : Walk succ V ts new V') : V' = V ∪ new.toFinset := by
  induction h with
  | done V => simp
  | seen _ _ ih => exact ih
  | mark _ _ _ ih₁ ih₂ =>
      rw [ih₂, ih₁, List.toFinset_cons, List.toFinset_append, Finset.insert_union,
        Finset.union_insert, Finset.insert_union, Finset.union_assoc]

theorem subset (h : Walk succ V ts new V') : V ⊆ V' := by
  rw [h.table]
  exact Finset.subset_union_left

theorem mem_of_new (h : Walk succ V ts new V') {u : τ} (hu : u ∈ new) : u ∈ V' := by
  rw [h.table]
  exact Finset.mem_union_right _ (List.mem_toFinset.mpr hu)

/-- What a walk marks was not in the table. -/
theorem fresh (h : Walk succ V ts new V') : ∀ u ∈ new, u ∉ V := by
  induction h with
  | done V =>
      intro u hu
      exact absurd hu List.not_mem_nil
  | seen _ _ ih => exact ih
  | mark ht inner _ ih₁ ih₂ =>
      intro u hu huV
      rw [List.mem_cons, List.mem_append] at hu
      rcases hu with rfl | hu | hu
      · exact ht huV
      · exact ih₁ u hu (Finset.mem_insert_of_mem huV)
      · exact ih₂ u hu (inner.subset (Finset.mem_insert_of_mem huV))

/-- No node is marked twice. -/
theorem nodup (h : Walk succ V ts new V') : new.Nodup := by
  induction h with
  | done V => exact List.nodup_nil
  | seen _ _ ih => exact ih
  | mark ht inner rest ih₁ ih₂ =>
      rw [List.nodup_cons]
      constructor
      · intro hmem
        rcases List.mem_append.mp hmem with hu | hu
        · exact inner.fresh _ hu (Finset.mem_insert_self _ _)
        · exact rest.fresh _ hu (inner.subset (Finset.mem_insert_self _ _))
      · refine List.Nodup.append ih₁ ih₂ ?_
        intro u hu hu'
        exact rest.fresh u hu' (inner.mem_of_new hu)

/-- The nodes of the list are in the table afterwards. -/
theorem covers (h : Walk succ V ts new V') : ∀ t ∈ ts, t ∈ V' := by
  induction h with
  | done V =>
      intro u hu
      exact absurd hu List.not_mem_nil
  | seen ht rest ih =>
      intro u hu
      rcases List.mem_cons.mp hu with rfl | hu
      · exact rest.subset ht
      · exact ih u hu
  | mark ht inner rest _ ih =>
      intro u hu
      rcases List.mem_cons.mp hu with rfl | hu
      · exact rest.subset (inner.subset (Finset.mem_insert_self _ _))
      · exact ih u hu

/-- **A node that a walk marks has all its successors in the table** when the walk is over. -/
theorem expanded (h : Walk succ V ts new V') : ∀ u ∈ new, ∀ w ∈ succ u, w ∈ V' := by
  induction h with
  | done V =>
      intro u hu
      exact absurd hu List.not_mem_nil
  | seen _ _ ih => exact ih
  | mark _ inner rest ih₁ ih₂ =>
      intro u hu w hw
      rw [List.mem_cons, List.mem_append] at hu
      rcases hu with rfl | hu | hu
      · exact rest.subset (inner.covers w hw)
      · exact rest.subset (ih₁ u hu w hw)
      · exact ih₂ u hu w hw

/-- A walk marks only what can be reached. -/
theorem sound (h : Walk succ V ts new V') : ∀ u ∈ new, ∃ t ∈ ts, Reaches succ t u := by
  induction h with
  | done V =>
      intro u hu
      exact absurd hu List.not_mem_nil
  | seen _ _ ih =>
      intro u hu
      obtain ⟨t', ht', hreach⟩ := ih u hu
      exact ⟨t', List.mem_cons_of_mem _ ht', hreach⟩
  | mark _ _ _ ih₁ ih₂ =>
      intro u hu
      rw [List.mem_cons, List.mem_append] at hu
      rcases hu with rfl | hu | hu
      · exact ⟨u, List.mem_cons_self, Relation.ReflTransGen.refl⟩
      · obtain ⟨w, hw, hreach⟩ := ih₁ u hu
        exact ⟨_, List.mem_cons_self, Relation.ReflTransGen.head hw hreach⟩
      · obtain ⟨t', ht', hreach⟩ := ih₂ u hu
        exact ⟨t', List.mem_cons_of_mem _ ht', hreach⟩

/-- **A walk from the empty table marks exactly what can be reached.** -/
theorem mem_iff (h : Walk succ ∅ ts new V') (u : τ) : u ∈ V' ↔ ∃ t ∈ ts, Reaches succ t u := by
  have hnew : ∀ w, w ∈ V' → w ∈ new := by
    intro w hw
    rw [h.table, Finset.empty_union] at hw
    exact List.mem_toFinset.mp hw
  constructor
  · intro hu
    exact h.sound u (hnew u hu)
  · rintro ⟨t, ht, hreach⟩
    -- the table is closed under successors, and `t` is in it
    induction hreach with
    | refl => exact h.covers t ht
    | tail _ hw ih => exact h.expanded _ (hnew _ ih) _ hw

/-- **A sum over the table** grows by the sum over the new nodes. -/
theorem sum {M : Type*} [AddCommMonoid M] (h : Walk succ V ts new V') (f : τ → M) :
    ∑ u ∈ V', f u = ∑ u ∈ V, f u + (new.map f).sum := by
  have hdisj : Disjoint V new.toFinset := by
    rw [Finset.disjoint_left]
    intro u huV hu
    exact h.fresh u (List.mem_toFinset.mp hu) huV
  rw [h.table, Finset.sum_union hdisj, List.sum_toFinset f h.nodup]

end Walk

end ComputerScience.Lib
