/-
  ComputerScience.Lib.Grouping
  ────────────────────────────
  **GROUPING A LIST THAT IS SORTED BY KEY.**

  `runs key val l` are the runs of equal keys of `l`, each with its values.  Where the
  list is sorted by key, a run holds all values of its key:

    • `sorted_induction` — a sorted list, block by block,
    • `runs_pairwise` — the keys of the runs increase strictly,
    • `runs_values` — a run's values are those of all elements with its key,
    • `runs_eq_sort` — so the runs are determined by the set of keys and, for each key,
      the values that go with it.
-/
import Mathlib.Data.Finset.Sort
import Mathlib.Data.List.Basic

namespace ComputerScience.Lib

variable {α κ ν : Type*} (key : α → κ) (val : α → ν)

/-- One element in front of the runs of the rest. -/
def consRun [DecidableEq κ] (a : α) : List (κ × List ν) → List (κ × List ν)
  | [] => [(key a, [val a])]
  | g :: gs => if key a = g.1 then (g.1, val a :: g.2) :: gs else (key a, [val a]) :: g :: gs

/-- The runs of equal keys, each with its values. -/
def runs [DecidableEq κ] : List α → List (κ × List ν)
  | [] => []
  | a :: l => consRun key val a (runs l)

section

variable [DecidableEq κ]

theorem consRun_same {a : α} {g : κ × List ν} (gs : List (κ × List ν)) (h : key a = g.1) :
    consRun key val a (g :: gs) = (g.1, val a :: g.2) :: gs := if_pos h

theorem consRun_new {a : α} {g : κ × List ν} (gs : List (κ × List ν)) (h : key a ≠ g.1) :
    consRun key val a (g :: gs) = (key a, [val a]) :: g :: gs := if_neg h

/-- The first run begins with the first element. -/
theorem runs_cons_fst (a : α) (l : List α) :
    ∃ vs gs, runs key val (a :: l) = (key a, val a :: vs) :: gs := by
  unfold runs
  cases runs key val l with
  | nil => exact ⟨[], [], rfl⟩
  | cons g gs =>
      by_cases h : key a = g.1
      · exact ⟨g.2, gs, by rw [consRun_same key val gs h, h]⟩
      · exact ⟨[], g :: gs, consRun_new key val gs h⟩

/-- **A run read off the front of the list.** -/
theorem runs_block (a : α) (xs l : List α) (hxs : ∀ x ∈ xs, key x = key a)
    (hl : ∀ b ∈ l.head?, key b ≠ key a) :
    runs key val (a :: (xs ++ l)) = (key a, val a :: xs.map val) :: runs key val l := by
  induction xs generalizing a with
  | nil =>
      cases l with
      | nil => rfl
      | cons b l =>
          obtain ⟨vs, gs, hrest⟩ := runs_cons_fst key val b l
          show consRun key val a (runs key val (b :: l)) = _
          rw [hrest, consRun_new key val gs (fun h => hl b rfl h.symm)]
          rfl
  | cons x xs ih =>
      have hx : key x = key a := hxs x List.mem_cons_self
      have hrest := ih x (fun y hy => (hxs y (List.mem_cons_of_mem x hy)).trans hx.symm)
        (fun b hb => hx ▸ hl b hb)
      show consRun key val a (runs key val (x :: (xs ++ l))) = _
      rw [hrest, consRun_same key val _ hx.symm, hx]
      rfl

/-- The keys of the runs are the keys of the list. -/
theorem mem_runs_keys (l : List α) (k : κ) :
    k ∈ (runs key val l).map Prod.fst ↔ k ∈ l.map key := by
  induction l with
  | nil => exact Iff.rfl
  | cons a l ih =>
      have hcons : k ∈ (consRun key val a (runs key val l)).map Prod.fst ↔
          k = key a ∨ k ∈ (runs key val l).map Prod.fst := by
        cases runs key val l with
        | nil => simp [consRun]
        | cons g gs =>
            by_cases heq : key a = g.1
            · rw [consRun_same key val gs heq]
              simp only [List.map_cons, List.mem_cons]
              rw [heq, ← or_assoc, or_self]
            · rw [consRun_new key val gs heq]
              simp only [List.map_cons, List.mem_cons]
      rw [List.map_cons, List.mem_cons, ← ih]
      exact hcons

end

/-! ## §1. Sorted by key. -/

section

variable [LinearOrder κ] [DecidableEq κ] {key : α → κ} (val : α → ν)

omit [DecidableEq κ] in
/-- The first block of a sorted list: the elements with the first key. -/
theorem sorted_block {a : α} {l : List α} (h : (a :: l).Pairwise (fun a b => key a ≤ key b)) :
    ∃ xs rest, l = xs ++ rest ∧ (∀ x ∈ xs, key x = key a) ∧ ∀ b ∈ rest, key a < key b := by
  induction l with
  | nil => exact ⟨[], [], rfl, by simp, by simp⟩
  | cons b l ih =>
      rw [List.pairwise_cons] at h
      by_cases heq : key b = key a
      · have hskip : (a :: l).Pairwise (fun a b => key a ≤ key b) := by
          rw [List.pairwise_cons]
          exact ⟨fun c hc => h.1 c (List.mem_cons_of_mem b hc), (List.pairwise_cons.mp h.2).2⟩
        obtain ⟨xs, rest, rfl, hxs, hrest⟩ := ih hskip
        refine ⟨b :: xs, rest, rfl, ?_, hrest⟩
        intro x hx
        rcases List.mem_cons.mp hx with rfl | hx
        · exact heq
        · exact hxs x hx
      · have hlt : key a < key b := lt_of_le_of_ne (h.1 b List.mem_cons_self) (Ne.symm heq)
        refine ⟨[], b :: l, rfl, by simp, ?_⟩
        intro c hc
        rcases List.mem_cons.mp hc with rfl | hc
        · exact hlt
        · exact lt_of_lt_of_le hlt ((List.pairwise_cons.mp h.2).1 c hc)

omit [DecidableEq κ] in
/-- **Induction over a sorted list, block by block.** -/
theorem sorted_induction {motive : List α → Prop} (nil : motive [])
    (block : ∀ a xs rest, (∀ x ∈ xs, key x = key a) → (∀ b ∈ rest, key a < key b) →
      motive rest → motive (a :: (xs ++ rest)))
    {l : List α} (h : l.Pairwise (fun a b => key a ≤ key b)) : motive l := by
  induction hn : l.length using Nat.strong_induction_on generalizing l with
  | _ n ih =>
      cases l with
      | nil => exact nil
      | cons a l =>
          obtain ⟨xs, rest, rfl, hxs, hrest⟩ := sorted_block h
          have htail : rest.Pairwise (fun a b => key a ≤ key b) :=
            (List.pairwise_append.mp (List.pairwise_cons.mp h).2).2.1
          refine block a xs rest hxs hrest (ih rest.length ?_ htail rfl)
          rw [← hn, List.length_cons, List.length_append]
          omega

/-- The runs of a block and of what is behind it, where the keys are larger. -/
theorem runs_sorted_block {a : α} {xs rest : List α} (hxs : ∀ x ∈ xs, key x = key a)
    (hrest : ∀ b ∈ rest, key a < key b) :
    runs key val (a :: (xs ++ rest)) = (key a, val a :: xs.map val) :: runs key val rest ∧
      ∀ g ∈ runs key val rest, key a < g.1 := by
  constructor
  · apply runs_block key val a xs rest hxs
    intro b hb
    exact ne_of_gt (hrest b (List.mem_of_mem_head? hb))
  · intro g hg
    have hmem := (mem_runs_keys key val rest g.1).mp (List.mem_map_of_mem hg)
    obtain ⟨b, hb, hkey⟩ := List.mem_map.mp hmem
    rw [← hkey]
    exact hrest b hb

/-- **The keys of the runs increase strictly.** -/
theorem runs_pairwise {l : List α} (h : l.Pairwise (fun a b => key a ≤ key b)) :
    (runs key val l).Pairwise (fun g g' => g.1 < g'.1) := by
  apply sorted_induction (motive := fun l => (runs key val l).Pairwise (fun g g' => g.1 < g'.1))
    _ _ h
  · exact List.Pairwise.nil
  · intro a xs rest hxs hrest ih
    obtain ⟨hruns, hlt⟩ := runs_sorted_block val hxs hrest
    rw [hruns, List.pairwise_cons]
    exact ⟨hlt, ih⟩

/-- **A run's values** are those of all elements with its key. -/
theorem runs_values {l : List α} (h : l.Pairwise (fun a b => key a ≤ key b)) :
    ∀ g ∈ runs key val l, g.2 = (l.filter (fun a => key a = g.1)).map val := by
  apply sorted_induction (motive := fun l => ∀ g ∈ runs key val l,
    g.2 = (l.filter (fun a => key a = g.1)).map val) _ _ h
  · intro g hg
    exact absurd hg List.not_mem_nil
  · intro a xs rest hxs hrest ih g hg
    obtain ⟨hruns, hlt⟩ := runs_sorted_block val hxs hrest
    rw [hruns] at hg
    rcases List.mem_cons.mp hg with rfl | hg
    · -- the whole block, and nothing of the rest
      have hblock : xs.filter (fun b => key b = key a) = xs := by
        rw [List.filter_eq_self]
        intro x hx
        simpa using hxs x hx
      have hnone : rest.filter (fun b => key b = key a) = [] := by
        rw [List.filter_eq_nil_iff]
        intro b hb
        simpa using ne_of_gt (hrest b hb)
      rw [List.filter_cons_of_pos (by simp), List.filter_append, hblock, hnone, List.append_nil]
      rfl
    · have hne : key a ≠ g.1 := ne_of_lt (hlt g hg)
      have hnone : xs.filter (fun b => key b = g.1) = [] := by
        rw [List.filter_eq_nil_iff]
        intro x hx
        simpa [hxs x hx] using hne
      rw [List.filter_cons_of_neg (by simpa using hne), List.filter_append, hnone,
        List.nil_append]
      exact ih g hg

/-- **The runs by key**: the keys in order, each with the values that go with it. -/
theorem runs_eq_sort {l : List α} (h : l.Pairwise (fun a b => key a ≤ key b)) :
    runs key val l = ((l.map key).toFinset.sort).map
      (fun k => (k, (l.filter (fun a => key a = k)).map val)) := by
  have hkeys : (runs key val l).map Prod.fst = (l.map key).toFinset.sort := by
    have hlt : ((runs key val l).map Prod.fst).Pairwise (· < ·) :=
      List.pairwise_map.mpr (runs_pairwise val h)
    have hperm : ((runs key val l).map Prod.fst).Perm (l.map key).toFinset.sort := by
      rw [List.perm_ext_iff_of_nodup (hlt.imp ne_of_lt) (Finset.sort_nodup _ _)]
      intro k
      rw [mem_runs_keys, Finset.mem_sort, List.mem_toFinset]
    exact hperm.eq_of_pairwise' (hlt.imp le_of_lt) (Finset.pairwise_sort _ _)
  rw [← hkeys, List.map_map]
  conv_lhs => rw [← List.map_id (runs key val l)]
  apply List.map_congr_left
  intro g hg
  show g = (g.1, (l.filter (fun a => key a = g.1)).map val)
  rw [← runs_values val h g hg]

end

end ComputerScience.Lib
