/-
  ComputerScience.Lib.Dancing
  ───────────────────────────
  **DOUBLY LINKED LISTS IN A HEAP, with nodes that are taken out and put back.**

  A node holds a value and the addresses of its neighbours (`none` is the null pointer);
  following a null pointer fails.  `Segment heap p l q` says that the nodes `l` are linked in
  this order, behind `p` and before `q`.

  A node that is unlinked keeps its own pointers.  They say where it was, so linking it in
  again, with nothing else changed in between, gives back the heap there was:

    • `Linked.unlink` — unlinking a node leaves the list without it, and relinking it restores
      the heap,
    • `Linked.unlinkLast` — the same for a node that may be the last one.
-/
import Mathlib.Data.List.Basic
import Mathlib.Logic.Function.Basic

namespace ComputerScience.Lib

/-- A node of a doubly linked list. -/
structure DNode (β : Type) where
  val : β
  next : Option ℕ
  prev : Option ℕ
  deriving DecidableEq, Repr

/-- Addresses to nodes; an address that was not allocated has none. -/
abbrev DHeap (β : Type) := ℕ → Option (DNode β)

variable {β : Type}

namespace DHeap

/-! ## §1. Reading and writing a node. -/

/-- `p->next` -/
def next (h : DHeap β) (p : ℕ) : Option (Option ℕ) := (h p).map DNode.next

/-- `p->prev` -/
def prev (h : DHeap β) (p : ℕ) : Option (Option ℕ) := (h p).map DNode.prev

/-- `p->next = q`; `p` may be a null pointer. -/
def setNext (h : DHeap β) (p q : Option ℕ) : Option (DHeap β) :=
  p.bind fun a => (h a).map fun n => Function.update h a (some { n with next := q })

/-- `p->prev = q` -/
def setPrev (h : DHeap β) (p q : Option ℕ) : Option (DHeap β) :=
  p.bind fun a => (h a).map fun n => Function.update h a (some { n with prev := q })

/-- `a->prev->next = a->next; a->next->prev = a->prev` -/
def unlink (h : DHeap β) (a : ℕ) : Option (DHeap β) := do
  let h ← h.setNext (← h.prev a) (← h.next a)
  h.setPrev (← h.next a) (← h.prev a)

/-- The same for a node that may be the last one. -/
def unlinkLast (h : DHeap β) (a : ℕ) : Option (DHeap β) := do
  let h ← h.setNext (← h.prev a) (← h.next a)
  if (← h.next a) = none then some h else h.setPrev (← h.next a) (← h.prev a)

/-- `a->prev->next = a; a->next->prev = a` -/
def relink (h : DHeap β) (a : ℕ) : Option (DHeap β) := do
  let h ← h.setNext (← h.prev a) (some a)
  h.setPrev (← h.next a) (some a)

/-- The same for a node that may have been the last one. -/
def relinkLast (h : DHeap β) (a : ℕ) : Option (DHeap β) := do
  let h ← h.setNext (← h.prev a) (some a)
  if (← h.next a) = none then some h else h.setPrev (← h.next a) (some a)

end DHeap

/-! ## §2. Linked nodes. -/

/-- The nodes `l` are linked in this order, behind `p` and before `q`. -/
def Segment (h : DHeap β) : Option ℕ → List ℕ → Option ℕ → Prop
  | _, [], _ => True
  | p, a :: l, q =>
      (∃ v, h a = some ⟨v, l.head?.or q, p⟩) ∧ Segment h (some a) l q

variable {h h' : DHeap β} {p q : Option ℕ} {l : List ℕ}

/-- Segments depend on their own nodes only. -/
theorem Segment.congr (hseg : Segment h p l q) (heq : ∀ a ∈ l, h' a = h a) :
    Segment h' p l q := by
  induction l generalizing p with
  | nil => trivial
  | cons a l ih =>
      obtain ⟨⟨v, hv⟩, hl⟩ := hseg
      refine ⟨⟨v, ?_⟩, ih hl fun b hb => heq b (List.mem_cons_of_mem a hb)⟩
      rw [heq a List.mem_cons_self, hv]

/-- Two segments, one behind the other. -/
theorem segment_append {l₁ l₂ : List ℕ} : Segment h p (l₁ ++ l₂) q ↔
    Segment h p l₁ (l₂.head?.or q) ∧ Segment h (l₁.getLast?.or p) l₂ q := by
  induction l₁ generalizing p with
  | nil => simp [Segment]
  | cons a l₁ ih =>
      have hlast : (a :: l₁).getLast?.or p = l₁.getLast?.or (some a) := by
        cases l₁ with
        | nil => rfl
        | cons b l₁ => simp [List.getLast?_cons]
      have hhead : (l₁ ++ l₂).head?.or q = l₁.head?.or (l₂.head?.or q) := by
        cases l₁ <;> rfl
      rw [List.cons_append, Segment, Segment, ih, hlast, hhead, and_assoc]

/-- The node in the middle. -/
theorem Segment.node {l₁ l₂ : List ℕ} {a : ℕ} (hseg : Segment h p (l₁ ++ a :: l₂) q) :
    ∃ v, h a = some ⟨v, l₂.head?.or q, l₁.getLast?.or p⟩ :=
  (segment_append.mp hseg).2.1

/-- A new end behind the last node. -/
theorem Segment.setNext {b : ℕ} {n : DNode β} (hseg : Segment h p (l ++ [b]) q)
    (hnodup : (l ++ [b]).Nodup) (hb : h b = some n) (q' : Option ℕ) :
    Segment (Function.update h b (some { n with next := q' })) p (l ++ [b]) q' := by
  obtain ⟨hl, ⟨v, hv⟩, -⟩ := segment_append.mp hseg
  rw [hv] at hb
  cases hb
  refine segment_append.mpr ⟨hl.congr ?_, ⟨v, ?_⟩, trivial⟩
  · intro a ha
    refine Function.update_of_ne ?_ _ _
    rintro rfl
    exact (List.nodup_append.mp hnodup).2.2 a ha a List.mem_cons_self rfl
  · rw [Function.update_self]
    rfl

/-- A new node before the first one. -/
theorem Segment.setPrev {b : ℕ} {n : DNode β} (hseg : Segment h p (b :: l) q)
    (hnodup : (b :: l).Nodup) (hb : h b = some n) (p' : Option ℕ) :
    Segment (Function.update h b (some { n with prev := p' })) p' (b :: l) q := by
  obtain ⟨⟨v, hv⟩, hl⟩ := hseg
  rw [hv] at hb
  cases hb
  refine ⟨⟨v, by rw [Function.update_self]⟩, hl.congr ?_⟩
  intro a ha
  refine Function.update_of_ne ?_ _ _
  rintro rfl
  exact (List.nodup_cons.mp hnodup).1 ha

/-! ## §3. Taking a node out and putting it back. -/

/-- The heap with `b` and `c` as neighbours. -/
def DHeap.join (h : DHeap β) (b c : ℕ) (nb nc : DNode β) : DHeap β :=
  Function.update (Function.update h b (some { nb with next := some c })) c
    (some { nc with prev := some b })

section Middle

variable {a b c : ℕ} {v : β} {nb nc : DNode β} (hab : a ≠ b) (hac : a ≠ c) (hbc : b ≠ c)
  (ha : h a = some ⟨v, some c, some b⟩) (hb : h b = some nb) (hc : h c = some nc)
include hab hbc ha hb hc

theorem DHeap.unlink_eq : h.unlink a = some (h.join b c nb nc) := by
  simp [DHeap.unlink, DHeap.join, DHeap.prev, DHeap.next, DHeap.setNext, DHeap.setPrev, ha, hb,
    hc, Function.update_of_ne hab, Function.update_of_ne hbc.symm]

theorem DHeap.unlinkLast_eq : h.unlinkLast a = some (h.join b c nb nc) := by
  simp [DHeap.unlinkLast, DHeap.join, DHeap.prev, DHeap.next, DHeap.setNext, DHeap.setPrev, ha,
    hb, hc, Function.update_of_ne hab, Function.update_of_ne hbc.symm]

include hac in
/-- **Putting the node back** gives the heap there was. -/
theorem DHeap.relink_join (hnext : nb.next = some a) (hprev : nc.prev = some a) :
    (h.join b c nb nc).relink a = some h ∧ (h.join b c nb nc).relinkLast a = some h := by
  have hja : h.join b c nb nc a = some ⟨v, some c, some b⟩ := by
    rw [DHeap.join, Function.update_of_ne hac, Function.update_of_ne hab, ha]
  have hjb : h.join b c nb nc b = some { nb with next := some c } := by
    rw [DHeap.join, Function.update_of_ne hbc, Function.update_self]
  have hjc : h.join b c nb nc c = some { nc with prev := some b } := Function.update_self ..
  have hnb : ({ nb with next := some a } : DNode β) = nb := by rw [← hnext]
  have hnc : ({ nc with prev := some a } : DNode β) = nc := by rw [← hprev]
  have hback : Function.update (Function.update (h.join b c nb nc) b (some nb)) c (some nc) = h := by
    funext x
    by_cases hxc : x = c
    · rw [hxc, Function.update_self, hc]
    · rw [Function.update_of_ne hxc]
      by_cases hxb : x = b
      · rw [hxb, Function.update_self, hb]
      · rw [Function.update_of_ne hxb, DHeap.join, Function.update_of_ne hxc,
          Function.update_of_ne hxb]
  constructor
  · simp [DHeap.relink, DHeap.prev, DHeap.next, DHeap.setNext, DHeap.setPrev, hja, hjb, hjc,
      Function.update_of_ne hab, Function.update_of_ne hbc.symm, hnb, hnc, hback]
  · simp [DHeap.relinkLast, DHeap.prev, DHeap.next, DHeap.setNext, DHeap.setPrev, hja, hjb, hjc,
      Function.update_of_ne hab, Function.update_of_ne hbc.symm, hnb, hnc, hback]

end Middle

section End

variable {a b : ℕ} {v : β} {nb : DNode β} (hab : a ≠ b) (ha : h a = some ⟨v, none, some b⟩)
  (hb : h b = some nb)
include hab ha hb

/-- `b` becomes the last node. -/
theorem DHeap.unlinkLast_end :
    h.unlinkLast a = some (Function.update h b (some { nb with next := none })) := by
  simp [DHeap.unlinkLast, DHeap.prev, DHeap.next, DHeap.setNext, ha, hb,
    Function.update_of_ne hab]

theorem DHeap.relinkLast_end (hnext : nb.next = some a) :
    DHeap.relinkLast (Function.update h b (some { nb with next := none })) a = some h := by
  have hnb : ({ nb with next := some a } : DNode β) = nb := by rw [← hnext]
  simp [DHeap.relinkLast, DHeap.prev, DHeap.next, DHeap.setNext, ha, hnb, ← hb,
    Function.update_of_ne hab]

end End

/-- The list `l` is linked, from its first node to its last. -/
def Linked (h : DHeap β) (l : List ℕ) : Prop := Segment h none l none

/-- The nodes have kept their values. -/
def SameVals (h h' : DHeap β) : Prop := ∀ x, (h' x).map DNode.val = (h x).map DNode.val

theorem SameVals.trans {h₁ h₂ h₃ : DHeap β} (h12 : SameVals h₁ h₂) (h23 : SameVals h₂ h₃) :
    SameVals h₁ h₃ := fun x => (h23 x).trans (h12 x)

theorem SameVals.update {b : ℕ} {n n' : DNode β} (hb : h b = some n) (hval : n'.val = n.val) :
    SameVals h (Function.update h b (some n')) := by
  intro x
  by_cases hx : x = b
  · rw [hx, Function.update_self, hb, Option.map_some, Option.map_some, hval]
  · rw [Function.update_of_ne hx]

/-- The nodes up to `b`. -/
theorem Linked.front {l₁ l₂ : List ℕ} {b : ℕ} (hl : Linked h (l₁ ++ b :: l₂)) :
    Segment h none (l₁ ++ [b]) (l₂.head?.or none) := by
  have hl' : Segment h none ((l₁ ++ [b]) ++ l₂) none := by
    rw [List.append_assoc]
    exact hl
  exact (segment_append.mp hl').1

theorem nodup_front {l₁ l₂ : List ℕ} {b : ℕ} (hnodup : (l₁ ++ b :: l₂).Nodup) :
    (l₁ ++ [b]).Nodup :=
  hnodup.sublist (List.Sublist.append_left (List.Sublist.cons_cons b (List.nil_sublist _)) _)

/-- Unlinking a node between two others, and undoing it. -/
theorem Linked.unlink_between {l₁ l₂ : List ℕ} {a b c : ℕ} (hl : Linked h (l₁ ++ b :: a :: c :: l₂))
    (hnodup : (l₁ ++ b :: a :: c :: l₂).Nodup) :
    ∃ h', (h.unlink a = some h' ∧ h.unlinkLast a = some h') ∧
      (h'.relink a = some h ∧ h'.relinkLast a = some h) ∧
      Linked h' (l₁ ++ b :: c :: l₂) ∧ SameVals h h' := by
  obtain ⟨-, ⟨vb, hvb⟩, ⟨va, hva⟩, hback⟩ := segment_append.mp hl
  obtain ⟨vc, hvc⟩ := hback.1
  have hnd₂ := (List.nodup_append.mp hnodup).2.1
  simp only [List.nodup_cons, List.mem_cons, not_or] at hnd₂
  obtain ⟨⟨hba, hbc, hb₂⟩, ⟨hac, -⟩, hc₂, hnd⟩ := hnd₂
  have hab : a ≠ b := Ne.symm hba
  have hva' : h a = some ⟨va, some c, some b⟩ := hva
  refine ⟨h.join b c ⟨vb, some a, l₁.getLast?.or none⟩ ⟨vc, l₂.head?.or none, some a⟩,
    ⟨DHeap.unlink_eq hab hbc hva' hvb hvc, DHeap.unlinkLast_eq hab hbc hva' hvb hvc⟩,
    DHeap.relink_join hab hac hbc hva' hvb hvc rfl rfl, ?_, ?_⟩
  · have hcf : ∀ x ∈ l₁ ++ [b], x ≠ c := by
      rintro x hx rfl
      rcases List.mem_append.mp hx with hx | hx
      · exact (List.nodup_append.mp hnodup).2.2 x hx x (by simp) rfl
      · exact hbc (List.mem_singleton.mp hx).symm
    have h₁ := hl.front.setNext (nodup_front hnodup) hvb (some c)
    have h₂ : Segment (Function.update h b
        (some ⟨vb, some c, l₁.getLast?.or none⟩)) (some a) (c :: l₂) none := by
      refine hback.congr ?_
      intro x hx
      refine Function.update_of_ne ?_ _ _
      rintro rfl
      rcases List.mem_cons.mp hx with rfl | hx
      · exact hbc rfl
      · exact hb₂ hx
    have h₃ := h₂.setPrev (List.nodup_cons.mpr ⟨hc₂, hnd⟩)
      (by rw [Function.update_of_ne (Ne.symm hbc)]; exact hvc) (some b)
    have hassoc : l₁ ++ b :: c :: l₂ = (l₁ ++ [b]) ++ c :: l₂ := by
      rw [List.append_assoc, List.singleton_append]
    rw [hassoc]
    refine segment_append.mpr ⟨h₁.congr ?_, ?_⟩
    · intro x hx
      exact Function.update_of_ne (hcf x hx) _ _
    · rw [List.getLast?_concat]
      exact h₃
  · have hb' : SameVals h (Function.update h b (some ⟨vb, some c, l₁.getLast?.or none⟩)) :=
      SameVals.update hvb rfl
    refine hb'.trans (SameVals.update (n := ⟨vc, l₂.head?.or none, some a⟩) ?_ rfl)
    rw [Function.update_of_ne (Ne.symm hbc), hvc]

/-- Unlinking a node that may be the last one, and undoing it. -/
theorem Linked.unlinkLast_behind {l₁ l₂ : List ℕ} {a b : ℕ} (hl : Linked h (l₁ ++ b :: a :: l₂))
    (hnodup : (l₁ ++ b :: a :: l₂).Nodup) :
    ∃ h', h.unlinkLast a = some h' ∧ h'.relinkLast a = some h ∧
      Linked h' (l₁ ++ b :: l₂) ∧ SameVals h h' := by
  cases l₂ with
  | cons c l₂ =>
      obtain ⟨h', ⟨-, hun⟩, ⟨-, hre⟩, hl', hval⟩ := hl.unlink_between hnodup
      exact ⟨h', hun, hre, hl', hval⟩
  | nil =>
      obtain ⟨-, ⟨vb, hvb⟩, ⟨va, hva⟩, -⟩ := segment_append.mp hl
      have hab : a ≠ b := by
        rintro rfl
        have := (List.nodup_append.mp hnodup).2.1
        simp at this
      exact ⟨_, DHeap.unlinkLast_end hab hva hvb, DHeap.relinkLast_end hab hva hvb rfl,
        hl.front.setNext (nodup_front hnodup) hvb none, SameVals.update hvb rfl⟩

/-- **Unlinking a node** that is neither the first nor the last one, and undoing it. -/
theorem Linked.unlink (l₁ l₂ : List ℕ) {a : ℕ} (hl : Linked h (l₁ ++ a :: l₂))
    (hnodup : (l₁ ++ a :: l₂).Nodup) (hne₁ : l₁ ≠ []) (hne₂ : l₂ ≠ []) :
    ∃ h', h.unlink a = some h' ∧ h'.relink a = some h ∧ Linked h' (l₁ ++ l₂) ∧ SameVals h h' := by
  obtain rfl | ⟨l, b, rfl⟩ := l₁.eq_nil_or_concat
  · exact absurd rfl hne₁
  · obtain ⟨c, l', rfl⟩ := List.exists_cons_of_ne_nil hne₂
    simp only [List.concat_eq_append, List.append_assoc, List.singleton_append] at hl hnodup ⊢
    obtain ⟨h', ⟨hun, -⟩, ⟨hre, -⟩, hl', hval⟩ := hl.unlink_between hnodup
    exact ⟨h', hun, hre, hl', hval⟩

/-- **Unlinking a node** that is not the first one, and undoing it. -/
theorem Linked.unlinkLast (l₁ l₂ : List ℕ) {a : ℕ} (hl : Linked h (l₁ ++ a :: l₂))
    (hnodup : (l₁ ++ a :: l₂).Nodup) (hne₁ : l₁ ≠ []) :
    ∃ h', h.unlinkLast a = some h' ∧ h'.relinkLast a = some h ∧ Linked h' (l₁ ++ l₂) ∧
      SameVals h h' := by
  obtain rfl | ⟨l, b, rfl⟩ := l₁.eq_nil_or_concat
  · exact absurd rfl hne₁
  · simp only [List.concat_eq_append, List.append_assoc, List.singleton_append] at hl hnodup ⊢
    exact hl.unlinkLast_behind hnodup

end ComputerScience.Lib
