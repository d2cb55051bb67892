/-
  ComputerScience.Lib.Fields
  ──────────────────────────
  **FIELDS: the maximal runs between separators.**

  `fields p l` are the maximal runs of elements of `l` that are not separators, in order.

    • `fields_append_sep` — a separator splits the work in two,
    • `fields_join` — fields joined by single separators have the same fields,
    • `Cut p t ws` — a list in which a separator ends every word, taken apart word by
      word as a scanner does; `cut_append_singleton` is how one is found.
-/
import Mathlib.Data.List.Basic
import Mathlib.Data.Nat.Init

namespace ComputerScience.Lib

variable {α : Type*} {p : α → Bool}

/-- The maximal runs of elements that are not separators. -/
def fields (p : α → Bool) (l : List α) : List (List α) :=
  (l.splitOnP p).filter (fun w => !w.isEmpty)

/-! ## §1. Equations. -/

@[simp] theorem fields_nil : fields p [] = [] := rfl

/-- **A separator splits the work in two.** -/
theorem fields_append_sep (xs ys : List α) {c : α} (hc : p c) :
    fields p (xs ++ c :: ys) = fields p xs ++ fields p ys := by
  unfold fields
  rw [List.splitOnP_append_cons xs ys hc, List.filter_append]

theorem fields_sep_cons (l : List α) {c : α} (hc : p c) : fields p (c :: l) = fields p l :=
  fields_append_sep [] l hc

/-- A separator at the end ends nothing new. -/
theorem fields_append_singleton (l : List α) {c : α} (hc : p c) :
    fields p (l ++ [c]) = fields p l := by
  rw [fields_append_sep l [] hc, fields_nil, List.append_nil]

theorem fields_seps_append {sp : List α} (l : List α) (hsp : ∀ c ∈ sp, p c) :
    fields p (sp ++ l) = fields p l := by
  induction sp with
  | nil => rfl
  | cons c sp ih =>
      rw [List.cons_append, fields_sep_cons _ (hsp c List.mem_cons_self)]
      exact ih (fun x hx => hsp x (List.mem_cons_of_mem c hx))

/-- A run alone. -/
theorem fields_word {w : List α} (hne : w ≠ []) (hw : ∀ c ∈ w, p c = false) :
    fields p w = [w] := by
  unfold fields
  rw [List.splitOnP_eq_singleton hw]
  simp [hne]

/-- A run and what follows its end. -/
theorem fields_word_sep {w : List α} (hne : w ≠ []) (hw : ∀ c ∈ w, p c = false) (l : List α)
    {c : α} (hc : p c) : fields p (w ++ c :: l) = w :: fields p l := by
  rw [fields_append_sep w l hc, fields_word hne hw]
  rfl

/-- Every list is one run, or a run, a separator and a rest. -/
theorem run_or_split (p : α → Bool) (l : List α) :
    (∀ c ∈ l, p c = false) ∨
      ∃ w c rest, l = w ++ c :: rest ∧ (∀ x ∈ w, p x = false) ∧ p c = true := by
  induction l with
  | nil => exact .inl (fun c hc => absurd hc List.not_mem_nil)
  | cons a l ih =>
      by_cases ha : p a = true
      · exact .inr ⟨[], a, l, rfl, fun x hx => absurd hx List.not_mem_nil, ha⟩
      · have ha' : p a = false := Bool.not_eq_true _ ▸ ha
        rcases ih with hall | ⟨w, c, rest, rfl, hw, hc⟩
        · refine .inl (fun c hc => ?_)
          rcases List.mem_cons.mp hc with rfl | hc
          · exact ha'
          · exact hall c hc
        · refine .inr ⟨a :: w, c, rest, rfl, fun x hx => ?_, hc⟩
          rcases List.mem_cons.mp hx with rfl | hx
          · exact ha'
          · exact hw x hx

/-- Induction on a list by its runs. -/
theorem runs_induction {motive : List α → Prop} (p : α → Bool)
    (run : ∀ w, (∀ c ∈ w, p c = false) → motive w)
    (split : ∀ w c rest, (∀ x ∈ w, p x = false) → p c = true → motive rest →
      motive (w ++ c :: rest)) (l : List α) : motive l := by
  induction hn : l.length using Nat.strong_induction_on generalizing l with
  | _ n ih =>
      rcases run_or_split p l with hall | ⟨w, c, rest, rfl, hw, hc⟩
      · exact run l hall
      · refine split w c rest hw hc (ih rest.length ?_ rest rfl)
        rw [← hn, List.length_append, List.length_cons]
        omega

/-- The fields of a run and what follows its end, whether or not the run is empty. -/
theorem fields_run_sep {w : List α} (hw : ∀ c ∈ w, p c = false) (l : List α) {c : α} (hc : p c) :
    fields p (w ++ c :: l) = (if w = [] then [] else [w]) ++ fields p l := by
  rw [fields_append_sep w l hc]
  split
  next hnil => rw [hnil, fields_nil]
  next hne => rw [fields_word hne hw]

/-- **A field is a run**: not empty, without separators. -/
theorem mem_fields {l w : List α} (h : w ∈ fields p l) : w ≠ [] ∧ ∀ c ∈ w, p c = false := by
  induction l using runs_induction p with
  | run l hall =>
      by_cases hnil : l = []
      · rw [hnil, fields_nil] at h
        exact absurd h List.not_mem_nil
      · rw [fields_word hnil hall, List.mem_singleton] at h
        rw [h]
        exact ⟨hnil, hall⟩
  | split v c rest hv hc ih =>
      rw [fields_run_sep hv rest hc, List.mem_append] at h
      rcases h with h | h
      · by_cases hnil : v = []
        · rw [if_pos hnil] at h
          exact absurd h List.not_mem_nil
        · rw [if_neg hnil, List.mem_singleton] at h
          rw [h]
          exact ⟨hnil, hv⟩
      · exact ih h

/-! ## §2. Joining. -/

theorem intercalate_cons_cons (sep : α) (w v : List α) (ws : List (List α)) :
    List.intercalate [sep] (w :: v :: ws) = w ++ sep :: List.intercalate [sep] (v :: ws) := by
  simp [List.intercalate]

theorem intercalate_singleton (sep : α) (w : List α) : List.intercalate [sep] [w] = w := by
  simp [List.intercalate]

/-- **Fields joined by single separators have the same fields.** -/
theorem fields_join {sep : α} (hsep : p sep) {ws : List (List α)}
    (hws : ∀ w ∈ ws, w ≠ [] ∧ ∀ c ∈ w, p c = false) :
    fields p (List.intercalate [sep] ws) = ws := by
  induction ws with
  | nil => rfl
  | cons w ws ih =>
      obtain ⟨hne, hw⟩ := hws w List.mem_cons_self
      cases ws with
      | nil =>
          rw [intercalate_singleton]
          exact fields_word hne hw
      | cons v vs =>
          rw [intercalate_cons_cons, fields_word_sep hne hw _ hsep,
            ih (fun x hx => hws x (List.mem_cons_of_mem w hx))]

/-- Joining again what was split does not make it longer. -/
theorem length_join_fields_le (sep : α) (l : List α) :
    (List.intercalate [sep] (fields p l)).length ≤ l.length := by
  induction l using runs_induction p with
  | run l hall =>
      by_cases hnil : l = []
      · rw [hnil, fields_nil]
        exact Nat.zero_le _
      · apply Nat.le_of_eq
        rw [fields_word hnil hall, intercalate_singleton]
  | split v c rest hv hc ih =>
      rw [fields_run_sep hv rest hc, List.length_append, List.length_cons]
      by_cases hnil : v = []
      · rw [if_pos hnil, List.nil_append]
        omega
      · rw [if_neg hnil, List.singleton_append]
        cases hrest : fields p rest with
        | nil =>
            rw [intercalate_singleton]
            omega
        | cons u us =>
            rw [hrest] at ih
            rw [intercalate_cons_cons, List.length_append, List.length_cons]
            omega

/-! ## §3. Word by word. -/

/-- `t` is words, each with the separators that end it; it does not begin with one. -/
inductive Cut (p : α → Bool) : List α → List (List α) → Prop
  | done : Cut p [] []
  | word {w sp rest : List α} {c : α} {ws : List (List α)} (hne : w ≠ [])
      (hw : ∀ x ∈ w, p x = false) (hc : p c = true) (hsp : ∀ x ∈ sp, p x = true)
      (hrest : ∀ x ∈ rest.head?, p x = false) (cut : Cut p rest ws) :
      Cut p (w ++ c :: (sp ++ rest)) (w :: ws)

/-- Leading separators. -/
theorem seps_split (p : α → Bool) (l : List α) :
    ∃ sp rest, l = sp ++ rest ∧ (∀ x ∈ sp, p x = true) ∧ ∀ x ∈ rest.head?, p x = false := by
  induction l with
  | nil => exact ⟨[], [], rfl, by simp, by simp⟩
  | cons a l ih =>
      by_cases ha : p a = true
      · obtain ⟨sp, rest, rfl, hsp, hrest⟩ := ih
        refine ⟨a :: sp, rest, rfl, fun x hx => ?_, hrest⟩
        rcases List.mem_cons.mp hx with rfl | hx
        · exact ha
        · exact hsp x hx
      · exact ⟨[], a :: l, rfl, by simp, by simpa using ha⟩

/-- The end of a list is the end of its second part. -/
theorem terminated_right {xs ys : List α} (h : ∀ x ∈ (xs ++ ys).getLast?, p x = true) :
    ∀ x ∈ ys.getLast?, p x = true := by
  intro x hx
  apply h
  rw [List.getLast?_append, Option.mem_def.mp hx]
  rfl

/-- **Where separators end every word**, the words are the fields. -/
theorem cut_of_terminated (t : List α) (hlast : ∀ x ∈ t.getLast?, p x = true)
    (hhead : ∀ x ∈ t.head?, p x = false) : Cut p t (fields p t) := by
  induction hn : t.length using Nat.strong_induction_on generalizing t with
  | _ n ih =>
      by_cases hnil : t = []
      · rw [hnil]
        exact Cut.done
      rcases run_or_split p t with hall | ⟨w, c, l, rfl, hw, hc⟩
      · -- the last element is a separator
        have hmem : t.getLast hnil ∈ t.getLast? := by rw [List.getLast?_eq_some_getLast hnil]; rfl
        have := hlast _ hmem
        rw [hall _ (List.getLast_mem hnil)] at this
        exact absurd this (by decide)
      · have hne : w ≠ [] := by
          intro hwnil
          rw [hwnil] at hhead
          have := hhead c rfl
          rw [hc] at this
          exact absurd this (by decide)
        obtain ⟨sp, rest, rfl, hsp, hrest⟩ := seps_split p l
        rw [fields_word_sep hne hw _ hc, fields_seps_append rest hsp]
        refine Cut.word hne hw hc hsp hrest (ih rest.length ?_ rest ?_ hrest rfl)
        · rw [← hn]
          simp only [List.length_append, List.length_cons]
          omega
        · have hassoc : w ++ c :: (sp ++ rest) = (w ++ c :: sp) ++ rest := by simp
          rw [hassoc] at hlast
          exact terminated_right hlast

/-- **A line with a separator at its end**: the separators before its first word, and its
fields, word by word. -/
theorem cut_append_singleton (l : List α) {c : α} (hc : p c = true) :
    ∃ sp rest, l ++ [c] = sp ++ rest ∧ (∀ x ∈ sp, p x = true) ∧
      (∀ x ∈ rest.head?, p x = false) ∧ Cut p rest (fields p l) := by
  obtain ⟨sp, rest, hsplit, hsp, hrest⟩ := seps_split p (l ++ [c])
  have hlast : ∀ x ∈ (sp ++ rest).getLast?, p x = true := by
    rw [← hsplit, List.getLast?_append]
    intro x hx
    obtain rfl : c = x := by simpa using hx
    exact hc
  have hfields : fields p rest = fields p l := by
    rw [← fields_seps_append rest hsp, ← hsplit, fields_append_singleton _ hc]
  have hcut := cut_of_terminated rest (terminated_right hlast) hrest
  rw [hfields] at hcut
  exact ⟨sp, rest, hsplit, hsp, hrest, hcut⟩

end ComputerScience.Lib
