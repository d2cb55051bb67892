/-
  ComputerScience.Lib.Chain
  ─────────────────────────
  **SINGLY LINKED LISTS IN A HEAP.**

  A heap maps addresses to nodes, a node holds a value and the address of the next one
  (`none` is the null pointer).  `Chain heap p l` says that the nodes reached from `p` are
  those of `l`, in order, and that the last one ends the list.
-/
import Mathlib.Data.List.Basic
import Mathlib.Logic.Function.Basic

namespace ComputerScience.Lib

/-- A node of a linked list. -/
structure Node (β : Type*) where
  val : β
  next : Option ℕ
  deriving DecidableEq, Repr

variable {β : Type*}

/-- The nodes reached from `p`, as addresses with values, are `l`. -/
def Chain (heap : ℕ → Option (Node β)) : Option ℕ → List (ℕ × β) → Prop
  | p, [] => p = none
  | p, (a, v) :: l => p = some a ∧ ∃ q, heap a = some ⟨v, q⟩ ∧ Chain heap q l

variable {heap heap' : ℕ → Option (Node β)} {p : Option ℕ} {l : List (ℕ × β)}

theorem chain_nil : Chain heap p [] ↔ p = none := Iff.rfl

/-- A chain that starts at a null pointer is empty, and only such a one. -/
theorem Chain.eq_none_iff (h : Chain heap p l) : p = none ↔ l = [] := by
  cases l with
  | nil => exact ⟨fun _ => rfl, fun _ => h⟩
  | cons x l =>
      obtain ⟨rfl, _⟩ := h
      exact ⟨fun h => absurd h (by simp), fun h => absurd h (by simp)⟩

/-- The chain depends on its own nodes only. -/
theorem Chain.congr (h : Chain heap p l) (heq : ∀ a ∈ l.map Prod.fst, heap' a = heap a) :
    Chain heap' p l := by
  induction l generalizing p with
  | nil => exact h
  | cons x l ih =>
      obtain ⟨a, v⟩ := x
      obtain ⟨hp, q, ha, hq⟩ := h
      refine ⟨hp, q, ?_, ih hq ?_⟩
      · rw [heq a (by simp), ha]
      · intro b hb
        exact heq b (by simp [hb])

/-- The nodes of the chain are allocated. -/
theorem Chain.allocated (h : Chain heap p l) {a : ℕ} (ha : a ∈ l.map Prod.fst) :
    heap a ≠ none := by
  induction l generalizing p with
  | nil => simp at ha
  | cons x l ih =>
      obtain ⟨b, v⟩ := x
      obtain ⟨_, q, hb, hq⟩ := h
      rw [List.map_cons, List.mem_cons] at ha
      rcases ha with rfl | ha
      · simp [hb]
      · exact ih hq ha

/-- The last node ends the list. -/
theorem Chain.last {t : ℕ} {v : β} (h : Chain heap p (l ++ [(t, v)])) :
    heap t = some ⟨v, none⟩ := by
  induction l generalizing p with
  | nil =>
      obtain ⟨_, q, ht, hq⟩ := h
      rw [chain_nil] at hq
      rw [ht, hq]
  | cons x l ih =>
      obtain ⟨a, v⟩ := x
      obtain ⟨_, q, _, hq⟩ := h
      exact ih hq

/-- A one-node list. -/
theorem chain_singleton (a : ℕ) (w : β) :
    Chain (Function.update heap a (some ⟨w, none⟩)) (some a) [(a, w)] :=
  ⟨rfl, none, by rw [Function.update_self], rfl⟩

/-- **Linking a new node behind the last one.** -/
theorem Chain.concat {t a : ℕ} {v w : β} (h : Chain heap p (l ++ [(t, v)]))
    (hnodup : ((l ++ [(t, v)]).map Prod.fst).Nodup) (hfresh : a ∉ (l ++ [(t, v)]).map Prod.fst) :
    Chain (Function.update (Function.update heap a (some ⟨w, none⟩)) t (some ⟨v, some a⟩)) p
      (l ++ [(t, v)] ++ [(a, w)]) := by
  have hat : a ≠ t := by
    intro he
    exact hfresh (by simp [he])
  induction l generalizing p with
  | nil =>
      obtain ⟨hp, q, ht, hq⟩ := h
      refine ⟨hp, some a, by rw [Function.update_self], rfl, none, ?_, rfl⟩
      rw [Function.update_of_ne hat, Function.update_self]
  | cons x l ih =>
      obtain ⟨b, u⟩ := x
      obtain ⟨hp, q, hb, hq⟩ := h
      simp only [List.cons_append, List.map_cons, List.nodup_cons, List.mem_cons, not_or]
        at hnodup hfresh
      have hbt : b ≠ t := by
        intro he
        exact hnodup.1 (by simp [he])
      refine ⟨hp, q, ?_, ih hq hnodup.2 hfresh.2⟩
      rw [Function.update_of_ne hbt, Function.update_of_ne (fun he => hfresh.1 he.symm), hb]

end ComputerScience.Lib
