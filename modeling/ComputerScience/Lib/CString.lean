/-
  ComputerScience.Lib.CString
  ───────────────────────────
  **C STRINGS IN ARRAYS OF A KNOWN SIZE.**

  An array is a row of cells with a size; an access at or past the size fails, and so does
  a scan that leaves the array.  A function that returns has stayed inside.

    • `scan_eq` — a scan stops at the first cell that satisfies the test,
    • `IsStr m off xs` — at `off` stands the string `xs`, with the NUL that ends it,
    • `strlen_eq`, `strchr_some`, `strchr_none` — the library functions on such a string.
-/
import ComputerScience.Lib.Cells
import Mathlib.Data.List.TakeWhile
import Mathlib.Logic.Function.Basic

namespace ComputerScience.Lib

namespace Cells

variable {α : Type*}

/-! ## §1. Checked access. -/

/-- `m[i]` in an array of `size` cells. -/
def get (m : Cells α) (size i : ℕ) : Option α := if i < size then some (m i) else none

/-- `m[i] = x` in an array of `size` cells. -/
def put (m : Cells α) (size i : ℕ) (x : α) : Option (Cells α) :=
  if i < size then some (Function.update m i x) else none

theorem get_eq (m : Cells α) {size i : ℕ} (h : i < size) : m.get size i = some (m i) := if_pos h

theorem put_eq (m : Cells α) {size i : ℕ} (x : α) (h : i < size) :
    m.put size i x = some (Function.update m i x) := if_pos h

/-- A single write, as a `store`. -/
theorem update_eq_store (m : Cells α) (i : ℕ) (x : α) : Function.update m i x = m.store i [x] := by
  funext j
  by_cases h : j = i
  · subst h
    rw [Function.update_self]
    simp [store]
  · rw [Function.update_of_ne h, store_apply_of_not_mem]
    show j < i ∨ i + 1 ≤ j
    omega

theorem load_update_of_not_mem (m : Cells α) {off n i : ℕ} (x : α) (h : i < off ∨ off + n ≤ i) :
    load (Function.update m i x) off n = m.load off n := by
  apply load_congr
  intro j hlo hhi
  have hne : j ≠ i := by omega
  exact Function.update_of_ne hne x m

/-! ## §2. Scans. -/

/-- The scan over the next `room` cells. -/
def scanFrom (m : Cells α) (p : α → Bool) : ℕ → ℕ → Option ℕ
  | 0, _ => none
  | room + 1, i => if p (m i) then some i else scanFrom m p room (i + 1)

/-- The first place from `i` on whose cell satisfies `p`. -/
def scan (m : Cells α) (size : ℕ) (p : α → Bool) (i : ℕ) : Option ℕ := m.scanFrom p (size - i) i

/-- **A scan stops at the first cell that satisfies the test.** -/
theorem scan_eq (m : Cells α) {size : ℕ} {p : α → Bool} {i j : ℕ} (hij : i ≤ j) (hj : j < size)
    (hskip : ∀ x, i ≤ x → x < j → p (m x) = false) (hstop : p (m j) = true) :
    m.scan size p i = some j := by
  obtain ⟨d, rfl⟩ : ∃ d, j = i + d := ⟨j - i, by omega⟩
  induction d generalizing i with
  | zero =>
      unfold scan
      obtain ⟨room, hroom⟩ : ∃ room, size - i = room + 1 := ⟨size - i - 1, by omega⟩
      rw [Nat.add_zero] at hstop ⊢
      rw [hroom, scanFrom, if_pos hstop]
  | succ d ih =>
      have hnext : m.scan size p (i + 1) = some (i + 1 + d) := by
        apply ih (by omega) (by omega)
        · intro x hlo hhi
          exact hskip x (by omega) (by omega)
        · rw [show i + 1 + d = i + (d + 1) by omega]
          exact hstop
      unfold scan at hnext ⊢
      obtain ⟨room, hroom⟩ : ∃ room, size - i = room + 1 := ⟨size - i - 1, by omega⟩
      rw [show size - (i + 1) = room by omega] at hnext
      rw [hroom, scanFrom, if_neg (by simp [hskip i (by omega) (by omega)]), hnext]
      congr 1
      omega

/-- The scan past cells that are known as a list. -/
theorem scan_load (m : Cells α) {size : ℕ} {p : α → Bool} {i : ℕ} (xs : List α)
    (hload : m.load i xs.length = xs) (hskip : ∀ x ∈ xs, p x = false)
    (hstop : p (m (i + xs.length)) = true) (hsize : i + xs.length < size) :
    m.scan size p i = some (i + xs.length) := by
  apply scan_eq m (by omega) hsize _ hstop
  intro x hlo hhi
  apply hskip
  rw [← hload]
  exact (mem_load m).mpr ⟨x, hlo, hhi, rfl⟩

/-- A scan moves on and stays in the array. -/
theorem scanFrom_range {m : Cells α} {p : α → Bool} {room i j : ℕ}
    (h : m.scanFrom p room i = some j) : i ≤ j ∧ j < i + room := by
  induction room generalizing i with
  | zero => exact absurd h (by simp [scanFrom])
  | succ room ih =>
      unfold scanFrom at h
      split at h
      · obtain rfl := Option.some_inj.mp h
        omega
      · have := ih h
        omega

theorem scan_range {m : Cells α} {size : ℕ} {p : α → Bool} {i j : ℕ}
    (h : m.scan size p i = some j) : i ≤ j ∧ j < size := by
  have := scanFrom_range h
  omega

/-! ## §3. Strings. -/

/-- At `off` stands the string `xs`. -/
structure IsStr (m : Cells UInt8) (off : ℕ) (xs : List UInt8) : Prop where
  load : m.load off (xs.length + 1) = xs ++ [0]
  nonul : (0 : UInt8) ∉ xs

variable {m : Cells UInt8} {off size : ℕ} {xs ys : List UInt8}

theorem IsStr.chars (h : IsStr m off xs) : m.load off xs.length = xs := by
  have hload := h.load
  rw [load_add, load_one] at hload
  exact (List.append_inj hload (length_load m off xs.length)).1

theorem IsStr.nul (h : IsStr m off xs) : m (off + xs.length) = 0 := by
  have hload := h.load
  rw [load_add, load_one] at hload
  have := (List.append_inj hload (length_load m off xs.length)).2
  exact List.singleton_inj.mp this

theorem isStr_of_chars (hchars : m.load off xs.length = xs) (hnul : m (off + xs.length) = 0)
    (hno : (0 : UInt8) ∉ xs) : IsStr m off xs :=
  ⟨by rw [load_add, load_one, hchars, hnul], hno⟩

/-- A string and a suffix of it. -/
theorem IsStr.suffix (h : IsStr m off (xs ++ ys)) : IsStr m (off + xs.length) ys := by
  have hchars := h.chars
  have hnul := h.nul
  have hno := h.nonul
  rw [List.length_append, load_add] at hchars
  rw [List.length_append, ← Nat.add_assoc] at hnul
  rw [List.mem_append, not_or] at hno
  exact isStr_of_chars (List.append_inj hchars (length_load m off xs.length)).2 hnul hno.2

/-- The characters of a prefix. -/
theorem IsStr.left (h : IsStr m off (xs ++ ys)) : m.load off xs.length = xs := by
  have hchars := h.chars
  rw [List.length_append, load_add] at hchars
  exact (List.append_inj hchars (length_load m off xs.length)).1

/-- A NUL in the middle ends the first part; the rest stands behind it. -/
theorem IsStr.cut {c : UInt8} (h : IsStr m off (xs ++ c :: ys)) :
    IsStr (Function.update m (off + xs.length) 0) off xs ∧
      IsStr (Function.update m (off + xs.length) 0) (off + xs.length + 1) ys := by
  have hno := h.nonul
  rw [List.mem_append, List.mem_cons, not_or, not_or] at hno
  have hrest : IsStr m (off + xs.length + 1) ys := by
    have := h
    rw [← List.singleton_append, ← List.append_assoc] at this
    have hsuf := this.suffix
    rwa [List.length_append, List.length_singleton, ← Nat.add_assoc] at hsuf
  constructor
  · apply isStr_of_chars _ _ hno.1
    · rw [load_update_of_not_mem m 0 (by omega)]
      exact h.left
    · exact Function.update_self _ _ _
  · refine ⟨?_, hno.2.2⟩
    rw [load_update_of_not_mem m 0 (by omega)]
    exact hrest.load

/-- Another character in the place of the last one. -/
theorem IsStr.setLast {x c : UInt8} (h : IsStr m off (xs ++ [x])) (hc : c ≠ 0) :
    IsStr (Function.update m (off + xs.length) c) off (xs ++ [c]) := by
  have hnul := h.nul
  have hno := h.nonul
  rw [List.length_append, List.length_singleton] at hnul
  rw [List.mem_append, not_or] at hno
  apply isStr_of_chars
  · rw [List.length_append, List.length_singleton, load_add, load_one, Function.update_self,
      load_update_of_not_mem m c (by omega), h.left]
  · rw [List.length_append, List.length_singleton, Function.update_of_ne (by omega)]
    exact hnul
  · rw [List.mem_append, not_or, List.mem_singleton]
    exact ⟨hno.1, hc.symm⟩

/-- A string is where its cells are. -/
theorem IsStr.congr {m' : Cells UInt8} (h : IsStr m off xs)
    (heq : ∀ i, off ≤ i → i < off + (xs.length + 1) → m' i = m i) : IsStr m' off xs :=
  ⟨(load_congr heq).trans h.load, h.nonul⟩

/-- A string and its NUL, written to memory. -/
theorem isStr_store_self (m : Cells UInt8) (off : ℕ) (hno : (0 : UInt8) ∉ xs) :
    IsStr (m.store off (xs ++ [0])) off xs := by
  refine ⟨?_, hno⟩
  have hload := load_store_self m off (xs ++ [0])
  rwa [List.length_append, List.length_singleton] at hload

/-- The bytes of the string that an array of these bytes holds: those before the first
NUL. -/
def cstr (bs : List UInt8) : List UInt8 := bs.takeWhile (fun c => c != 0)

theorem cstr_nonul (bs : List UInt8) : (0 : UInt8) ∉ cstr bs := by
  intro hmem
  have := List.mem_takeWhile_imp hmem
  exact absurd this (by decide)

theorem cstr_length_le (bs : List UInt8) : (cstr bs).length ≤ bs.length :=
  (List.takeWhile_sublist _).length_le

theorem cstr_eq_self_iff (bytes : List UInt8) : cstr bytes = bytes ↔ 0 ∉ bytes := by
  rw [cstr, List.takeWhile_eq_self_iff]
  constructor
  · intro h hmem
    exact absurd (h 0 hmem) (by decide)
  · intro h c hc
    have hne : c ≠ 0 := by
      rintro rfl
      exact h hc
    exact bne_iff_ne.mpr hne

/-- The bytes and a NUL, written to memory, are a string. -/
theorem isStr_store (m : Cells UInt8) (off : ℕ) (bs : List UInt8) :
    IsStr (m.store off (bs ++ [0])) off (cstr bs) := by
  refine ⟨?_, cstr_nonul bs⟩
  have hsplit : ∃ rest, bs ++ [0] = (cstr bs ++ [0]) ++ rest := by
    unfold cstr
    induction bs with
    | nil => exact ⟨[], rfl⟩
    | cons c bs ih =>
        obtain ⟨rest, hrest⟩ := ih
        by_cases hc : c = 0
        · exact ⟨bs ++ [0], by simp [hc]⟩
        · refine ⟨rest, ?_⟩
          rw [List.takeWhile_cons_of_pos (by simpa using hc)]
          simp only [List.cons_append] at hrest ⊢
          rw [hrest]
  obtain ⟨rest, hrest⟩ := hsplit
  have hload := load_store_self m off (bs ++ [0])
  rw [hrest, List.length_append, load_add] at hload
  have hleft := (List.append_inj hload (length_load _ _ _)).1
  rw [List.length_append, List.length_singleton, ← hrest] at hleft
  exact hleft

/-- `strlen(s)` -/
def strlen (m : Cells UInt8) (size off : ℕ) : Option ℕ := do
  let j ← m.scan size (fun c => c == 0) off
  some (j - off)

theorem strlen_eq (h : IsStr m off xs) (hsize : off + xs.length < size) :
    strlen m size off = some xs.length := by
  have hscan : m.scan size (fun c => c == 0) off = some (off + xs.length) := by
    apply scan_load m xs h.chars _ (by simp [h.nul]) hsize
    intro x hx
    exact beq_eq_false_iff_ne.mpr (fun hzero => h.nonul (hzero ▸ hx))
  unfold strlen
  rw [hscan]
  show some (off + xs.length - off) = _
  congr 1
  omega

/-- `strchr(s, c)` for a character other than NUL: the place, or `NULL`. -/
def strchr (m : Cells UInt8) (size off : ℕ) (c : UInt8) : Option (Option ℕ) := do
  let j ← m.scan size (fun x => x == c || x == 0) off
  if m j = c then some (some j) else some none

theorem strchr_range {i j : ℕ} {c : UInt8} (h : strchr m size i c = some (some j)) :
    i ≤ j ∧ j < size := by
  unfold strchr at h
  obtain ⟨k, hk, hif⟩ := Option.bind_eq_some_iff.mp h
  split at hif
  · obtain rfl : k = j := by simpa using hif
    exact scan_range hk
  · exact absurd hif (by simp)

/-- The character is there. -/
theorem strchr_some {c : UInt8} (h : IsStr m off (xs ++ c :: ys)) (hc : c ∉ xs)
    (hsize : off + (xs ++ c :: ys).length < size) :
    strchr m size off c = some (some (off + xs.length)) := by
  have hat : m (off + xs.length) = c := by
    have := h.suffix.load
    rw [load_succ] at this
    exact (List.cons.inj this).1
  have hscan : m.scan size (fun x => x == c || x == 0) off = some (off + xs.length) := by
    apply scan_load m xs h.left _ (by simp [hat])
    · rw [List.length_append] at hsize
      omega
    · intro x hx
      rw [Bool.or_eq_false_iff, beq_eq_false_iff_ne, beq_eq_false_iff_ne]
      refine ⟨fun heq => hc (heq ▸ hx), fun hzero => h.nonul ?_⟩
      rw [hzero] at hx
      exact List.mem_append_left _ hx
  unfold strchr
  rw [hscan]
  exact if_pos hat

/-- The character is not there. -/
theorem strchr_none {c : UInt8} (h : IsStr m off xs) (hc : c ∉ xs) (h0 : c ≠ 0)
    (hsize : off + xs.length < size) : strchr m size off c = some none := by
  have hscan : m.scan size (fun x => x == c || x == 0) off = some (off + xs.length) := by
    apply scan_load m xs h.chars _ (by simp [h.nul]) hsize
    intro x hx
    rw [Bool.or_eq_false_iff, beq_eq_false_iff_ne, beq_eq_false_iff_ne]
    exact ⟨fun heq => hc (heq ▸ hx), fun hzero => h.nonul (hzero ▸ hx)⟩
  unfold strchr
  rw [hscan]
  exact if_neg (by rw [h.nul]; exact fun h => h0 h.symm)

end Cells

end ComputerScience.Lib
