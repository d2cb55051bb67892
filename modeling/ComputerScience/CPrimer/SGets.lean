/-
  ComputerScience.CPrimer.SGets
  ─────────────────────────────
  **READING ONE LINE** (`s_gets` in `C_Primer_Plus/ADT/films.c`, the same in
  `Data_Representation/films_linkedlist.c`).

  `s_gets(st, n)` reads with `fgets`, looks for the newline with `strchr`, and replaces it by
  a NUL or, if it finds none, discards input up to the next newline.  Both inferences fail:
  `strchr` stops at a NUL that the line contains, and then the *following* line is discarded;
  and a last line without a newline is followed by no newline, so that
  `while (getchar() != '\n')` reads EOF for ever.

  The input is the list of the bytes that are left; read errors are left out.  The array `st`
  has `n` cells.

  Main results:
    • `readLine_line`, `readLine_long`, `readLine_all` — what `fgets` reads,
    • `discardLoop_eq`, `discardLoop_none` — when the discarding loop ends,
    • `sGets_meets_iff` — the inputs on which `s_gets` reads one line.
-/
import ComputerScience.Lib.CString

namespace ComputerScience.CPrimer

open ComputerScience.Lib

/-! ## §1. The code. -/

def newline : UInt8 := 10

/-- The bytes that `fgets` reads if it may read `k`, and what is left of the input. -/
def readLine : ℕ → List UInt8 → List UInt8 × List UInt8
  | 0, input => ([], input)
  | _ + 1, [] => ([], [])
  | k + 1, c :: input =>
      if c = newline then ([c], input) else (c :: (readLine k input).1, (readLine k input).2)

/-- `fgets(st, n, stdin)` for `n ≥ 2`; `none` is NULL, at the end of the input. -/
def fgets (n : ℕ) (st : Cells UInt8) (input : List UInt8) :
    Option (Cells UInt8 × List UInt8) :=
  match readLine (n - 1) input with
  | ([], _) => none
  | (c :: got, rest) => some (st.store 0 (c :: got ++ [0]), rest)

/-- `getchar()`; `none` is EOF, which comes again and again. -/
def getchar : List UInt8 → Option UInt8 × List UInt8
  | [] => (none, [])
  | c :: input => (some c, input)

/-- `while (getchar() != '\n') continue;` -/
def discardLoop : ℕ → List UInt8 → Option (List UInt8)
  | 0, _ => none
  | fuel + 1, input =>
      if (getchar input).1 = some newline then some (getchar input).2
      else discardLoop fuel (getchar input).2

/-- What `s_gets` leaves, and whether it returns `st` (or NULL). -/
structure Got where
  ret : Bool
  st : Cells UInt8
  input : List UInt8

/-- `s_gets(st, n)`; `none` if an access leaves `st` or the loop has used up its `fuel`. -/
def sGets (fuel n : ℕ) (st : Cells UInt8) (input : List UInt8) : Option Got :=
  match fgets n st input with
  | none => some ⟨false, st, input⟩
  | some (st, input) =>
      (Cells.strchr st n 0 newline).bind fun find =>
        match find with
        | some find => (st.put n find 0).map fun st => ⟨true, st, input⟩
        | none => (discardLoop fuel input).map fun input => ⟨true, st, input⟩

/-! ## §2. Lines. -/

/-- The first line of the input, without its newline. -/
def firstLine (input : List UInt8) : List UInt8 := input.takeWhile (· != newline)

/-- The input after its first line. -/
def afterLine (input : List UInt8) : List UInt8 := (input.dropWhile (· != newline)).drop 1

/-- What `s_gets` is for: it ends, and if it does not return NULL it has read one line and
`st` holds the first characters of it. -/
def ReadsOneLine (n : ℕ) (st : Cells UInt8) (input : List UInt8) : Prop :=
  ∃ fuel got, sGets fuel n st input = some got ∧
    (got.ret = true → got.input = afterLine input ∧
      got.st.load 0 (min (n - 1) (firstLine input).length) = (firstLine input).take (n - 1) ∧
      got.st (min (n - 1) (firstLine input).length) = 0)

/-- An input with a newline. -/
theorem split_line {input : List UInt8} (h : newline ∈ input) :
    newline ∉ firstLine input ∧ input = firstLine input ++ newline :: afterLine input := by
  have hno : newline ∉ firstLine input := by
    intro hmem
    simpa using List.mem_takeWhile_imp hmem
  refine ⟨hno, ?_⟩
  have hsplit := (List.takeWhile_append_dropWhile (p := (· != newline)) (l := input)).symm
  cases hrest : input.dropWhile (· != newline) with
  | nil =>
      rw [hrest, List.append_nil] at hsplit
      rw [hsplit] at h
      exact absurd h hno
  | cons c rest =>
      have hc : c = newline := by
        have := List.head_dropWhile_not (p := (· != newline)) (l := input) (by rw [hrest]; simp)
        simpa [hrest] using this
      unfold afterLine
      rw [hrest, hc] at hsplit
      rw [hrest]
      exact hsplit

/-- A line that fits is read with its newline. -/
theorem readLine_line {line : List UInt8} (hno : newline ∉ line) (rest : List UInt8) {k : ℕ}
    (hk : line.length < k) : readLine k (line ++ newline :: rest) = (line ++ [newline], rest) := by
  induction line generalizing k with
  | nil =>
      cases k with
      | zero => cases hk
      | succ k => rw [List.nil_append, readLine, if_pos rfl, List.nil_append]
  | cons c line ih =>
      rw [List.mem_cons, not_or] at hno
      cases k with
      | zero => cases hk
      | succ k =>
          rw [List.length_cons] at hk
          rw [List.cons_append, readLine, if_neg (Ne.symm hno.1), ih hno.2 (by omega)]
          rfl

/-- Of a longer line, as much as may be read. -/
theorem readLine_long {line : List UInt8} (hno : newline ∉ line) (rest : List UInt8) {k : ℕ}
    (hk : k ≤ line.length) :
    readLine k (line ++ rest) = (line.take k, line.drop k ++ rest) := by
  induction line generalizing k with
  | nil =>
      rw [List.length_nil, Nat.le_zero] at hk
      rw [hk]
      rfl
  | cons c line ih =>
      rw [List.mem_cons, not_or] at hno
      cases k with
      | zero => rfl
      | succ k =>
          rw [List.length_cons] at hk
          rw [List.cons_append, readLine, if_neg (Ne.symm hno.1), ih hno.2 (by omega)]
          rfl

/-- A short input without a newline is read to its end. -/
theorem readLine_all {line : List UInt8} (hno : newline ∉ line) {k : ℕ}
    (hk : line.length < k) : readLine k line = (line, []) := by
  induction line generalizing k with
  | nil =>
      cases k with
      | zero => cases hk
      | succ k => rfl
  | cons c line ih =>
      rw [List.mem_cons, not_or] at hno
      cases k with
      | zero => cases hk
      | succ k =>
          rw [List.length_cons] at hk
          rw [readLine, if_neg (Ne.symm hno.1), ih hno.2 (by omega)]

/-- Discarding stops behind the next newline. -/
theorem discardLoop_eq {line : List UInt8} (hno : newline ∉ line) (rest : List UInt8) {fuel : ℕ}
    (hfuel : line.length < fuel) : discardLoop fuel (line ++ newline :: rest) = some rest := by
  induction line generalizing fuel with
  | nil =>
      cases fuel with
      | zero => cases hfuel
      | succ fuel => rfl
  | cons c line ih =>
      rw [List.mem_cons, not_or] at hno
      cases fuel with
      | zero => cases hfuel
      | succ fuel =>
          rw [List.length_cons] at hfuel
          have hc : ¬ (getchar (c :: line ++ newline :: rest)).1 = some newline := by
            intro heq
            exact hno.1 (Option.some.inj heq).symm
          rw [discardLoop, if_neg hc]
          exact ih hno.2 (by omega)

/-- **Without a newline, discarding never stops.** -/
theorem discardLoop_none {input : List UInt8} (hno : newline ∉ input) (fuel : ℕ) :
    discardLoop fuel input = none := by
  induction fuel generalizing input with
  | zero => rfl
  | succ fuel ih =>
      cases input with
      | nil =>
          rw [discardLoop, if_neg (by simp [getchar])]
          exact ih (by simp [getchar])
      | cons c input =>
          rw [List.mem_cons, not_or] at hno
          have hc : ¬ (getchar (c :: input)).1 = some newline := by
            intro heq
            exact hno.1 (Option.some.inj heq).symm
          rw [discardLoop, if_neg hc]
          exact ih hno.2

/-- Discarding consumes something. -/
theorem discardLoop_length {input rest : List UInt8} {fuel : ℕ}
    (h : discardLoop fuel input = some rest) : rest.length < input.length := by
  induction fuel generalizing input with
  | zero => cases h
  | succ fuel ih =>
      cases input with
      | nil =>
          rw [discardLoop_none (by simp)] at h
          cases h
      | cons c input =>
          rw [discardLoop] at h
          split at h
          next =>
            cases h
            simp [getchar]
          next =>
            have := ih h
            rw [List.length_cons]
            exact Nat.lt_succ_of_lt this

/-! ## §3. `s_gets`. -/

variable {n : ℕ} {st : Cells UInt8} {input rest got : List UInt8}

/-- What `fgets` stores. -/
theorem fgets_eq (hread : readLine (n - 1) input = (got, rest)) (hne : got ≠ []) :
    fgets n st input = some (st.store 0 (got ++ [0]), rest) := by
  unfold fgets
  rw [hread]
  cases got with
  | nil => exact absurd rfl hne
  | cons c got => rfl

/-- No newline is seen in what was stored: the next newline is looked for in the input. -/
theorem sGets_discard (hread : readLine (n - 1) input = (got, rest)) (hne : got ≠ [])
    (hlen : got.length < n) (hno : newline ∉ Cells.cstr got) (fuel : ℕ) :
    sGets fuel n st input =
      (discardLoop fuel rest).map fun input => ⟨true, st.store 0 (got ++ [0]), input⟩ := by
  have hchr : Cells.strchr (st.store 0 (got ++ [0])) n 0 newline = some none := by
    refine Cells.strchr_none (Cells.isStr_store st 0 got) hno (by decide) ?_
    have := Cells.cstr_length_le got
    omega
  unfold sGets
  rw [fgets_eq hread hne]
  simp only [hchr, Option.bind_some]

/-- A newline that stands behind no NUL is replaced. -/
theorem sGets_replace {line : List UInt8} (hread : readLine (n - 1) input = (line ++ [newline], rest))
    (hno : newline ∉ line) (hnul : (0 : UInt8) ∉ line) (hlen : line.length + 1 < n) (fuel : ℕ) :
    ∃ st', sGets fuel n st input = some ⟨true, st', rest⟩ ∧ Cells.IsStr st' 0 line := by
  have hstr : Cells.IsStr (st.store 0 (line ++ [newline] ++ [0])) 0 (line ++ [newline]) := by
    refine Cells.isStr_store_self st 0 ?_
    rw [List.mem_append, List.mem_singleton, not_or]
    exact ⟨hnul, by decide⟩
  have hchr : Cells.strchr (st.store 0 (line ++ [newline] ++ [0])) n 0 newline =
      some (some (0 + line.length)) := by
    refine Cells.strchr_some hstr hno ?_
    rw [List.length_append, List.length_singleton]
    omega
  refine ⟨Function.update (st.store 0 (line ++ [newline] ++ [0])) (0 + line.length) 0, ?_,
    hstr.cut.1⟩
  unfold sGets
  rw [fgets_eq hread (by simp)]
  simp only [hchr, Option.bind_some]
  rw [Cells.put_eq _ _ (by omega)]
  rfl

/-- Bytes and a NUL that were stored. -/
theorem load_stored (st : Cells UInt8) (got : List UInt8) :
    (st.store 0 (got ++ [0])).load 0 got.length = got ∧ st.store 0 (got ++ [0]) got.length = 0 := by
  have hload := Cells.load_store_self st 0 (got ++ [0])
  rw [List.length_append, List.length_singleton, Cells.load_add, Cells.load_one,
    Nat.zero_add] at hload
  have hparts := List.append_inj hload (by simp)
  exact ⟨hparts.1, List.singleton_inj.mp hparts.2⟩

/-- A line that is not shorter than the buffer: the rest of it is discarded. -/
theorem readsOneLine_long (hn : 2 ≤ n) (h : newline ∈ input)
    (hlong : n - 1 ≤ (firstLine input).length) : ReadsOneLine n st input := by
  obtain ⟨hno, hsplit⟩ := split_line h
  have hread := readLine_long hno (newline :: afterLine input) hlong
  rw [← hsplit] at hread
  have hlen : ((firstLine input).take (n - 1)).length = n - 1 := by
    rw [List.length_take]
    omega
  have hnone : newline ∉ Cells.cstr ((firstLine input).take (n - 1)) := by
    intro hmem
    exact hno (List.mem_of_mem_take ((List.takeWhile_sublist _).subset hmem))
  have hne : (firstLine input).take (n - 1) ≠ [] := by
    rw [← List.length_pos_iff]
    omega
  refine ⟨(firstLine input).length + 1,
    ⟨true, st.store 0 ((firstLine input).take (n - 1) ++ [0]), afterLine input⟩, ?_, ?_⟩
  · rw [sGets_discard hread hne (by omega) hnone, discardLoop_eq]
    · rfl
    · exact fun hmem => hno (List.mem_of_mem_drop hmem)
    · rw [List.length_drop]
      omega
  · intro _
    have hstored := load_stored st ((firstLine input).take (n - 1))
    rw [hlen] at hstored
    rw [Nat.min_eq_left hlong]
    exact ⟨rfl, hstored⟩

/-- A line that fits and contains no NUL. -/
theorem readsOneLine_short (h : newline ∈ input) (hshort : (firstLine input).length < n - 1)
    (hnul : (0 : UInt8) ∉ firstLine input) : ReadsOneLine n st input := by
  obtain ⟨hno, hsplit⟩ := split_line h
  have hread := readLine_line hno (afterLine input) hshort
  rw [← hsplit] at hread
  obtain ⟨st', hgets, hstr⟩ := @sGets_replace n st input _ _ hread hno hnul (by omega) 0
  refine ⟨0, _, hgets, ?_⟩
  intro _
  rw [Nat.min_eq_right (by omega), List.take_of_length_le (by omega)]
  have hend := hstr.nul
  rw [Nat.zero_add] at hend
  exact ⟨rfl, hstr.chars, hend⟩

/-- What stands behind a NUL is not part of the string. -/
theorem cstr_append_of_mem {xs : List UInt8} (h : (0 : UInt8) ∈ xs) (ys : List UInt8) :
    Cells.cstr (xs ++ ys) = Cells.cstr xs := by
  unfold Cells.cstr
  induction xs with
  | nil => cases h
  | cons c xs ih =>
      by_cases hc : c = 0
      · simp [hc]
      · have hrest : (0 : UInt8) ∈ xs := by
          rcases List.mem_cons.mp h with h0 | h0
          · exact absurd h0.symm hc
          · exact h0
        rw [List.cons_append, List.takeWhile_cons_of_pos (by simpa using hc),
          List.takeWhile_cons_of_pos (by simpa using hc), ih hrest]

/-- A line that fits but contains a NUL: the next line is discarded. -/
theorem not_readsOneLine_nul (h : newline ∈ input) (hshort : (firstLine input).length < n - 1)
    (hnul : (0 : UInt8) ∈ firstLine input) : ¬ ReadsOneLine n st input := by
  obtain ⟨hno, hsplit⟩ := split_line h
  have hread := readLine_line hno (afterLine input) hshort
  rw [← hsplit] at hread
  have hnone : newline ∉ Cells.cstr (firstLine input ++ [newline]) := by
    rw [cstr_append_of_mem hnul]
    exact fun hmem => hno ((List.takeWhile_sublist _).subset hmem)
  rintro ⟨fuel, got, hgets, hgot⟩
  rw [sGets_discard hread (by simp) (by simp; omega) hnone] at hgets
  obtain ⟨rest, hrest, rfl⟩ := Option.map_eq_some_iff.mp hgets
  have hshorter := discardLoop_length hrest
  have hsame : rest = afterLine input := (hgot rfl).1
  rw [hsame] at hshorter
  exact Nat.lt_irrefl _ hshorter

/-- A last line without a newline: `s_gets` does not return. -/
theorem not_readsOneLine_eof (hn : 2 ≤ n) (hne : input ≠ []) (h : newline ∉ input) :
    ¬ ReadsOneLine n st input := by
  -- `fgets` has read a beginning of the input
  obtain ⟨got, rest, hread, happ, hlen, hgot⟩ : ∃ got rest, readLine (n - 1) input = (got, rest) ∧
      got ++ rest = input ∧ got.length < n ∧ got ≠ [] := by
    rcases Nat.lt_or_ge input.length (n - 1) with hlt | hge
    · exact ⟨input, [], readLine_all h hlt, List.append_nil _, by omega, hne⟩
    · have hread := readLine_long h [] hge
      rw [List.append_nil, List.append_nil] at hread
      refine ⟨_, _, hread, List.take_append_drop _ _, ?_, ?_⟩
      · rw [List.length_take]
        omega
      · rw [← List.length_pos_iff, List.length_take]
        omega
  rw [← happ, List.mem_append, not_or] at h
  have hnone : newline ∉ Cells.cstr got := fun hmem => h.1 ((List.takeWhile_sublist _).subset hmem)
  rintro ⟨fuel, res, hgets, -⟩
  rw [sGets_discard hread hgot hlen hnone, discardLoop_none h.2] at hgets
  cases hgets

/-- **When `s_gets` reads one line**: at the end of the input, where it returns NULL, or on a
line that ends with a newline and either contains no NUL or does not fit in the buffer with
its newline. -/
theorem sGets_meets_iff (st : Cells UInt8) (input : List UInt8) {n : ℕ} (hn : 2 ≤ n) :
    ReadsOneLine n st input ↔ input = [] ∨ (newline ∈ input ∧
      ((0 : UInt8) ∉ firstLine input ∨ n - 1 ≤ (firstLine input).length)) := by
  by_cases hne : input = []
  · refine iff_of_true ?_ (Or.inl hne)
    subst hne
    refine ⟨0, ⟨false, st, []⟩, ?_, by simp⟩
    obtain ⟨k, hk⟩ : ∃ k, n - 1 = k + 1 := ⟨n - 2, by omega⟩
    simp [sGets, fgets, hk, readLine]
  by_cases h : newline ∈ input
  · rcases Nat.lt_or_ge (firstLine input).length (n - 1) with hshort | hlong
    · by_cases hnul : (0 : UInt8) ∈ firstLine input
      · refine iff_of_false (not_readsOneLine_nul h hshort hnul) ?_
        rintro (hnil | ⟨-, hno | hlong⟩)
        · exact hne hnil
        · exact hno hnul
        · omega
      · exact iff_of_true (readsOneLine_short h hshort hnul) (Or.inr ⟨h, Or.inl hnul⟩)
    · exact iff_of_true (readsOneLine_long hn h hlong) (Or.inr ⟨h, Or.inr hlong⟩)
  · refine iff_of_false (not_readsOneLine_eof hn hne h) ?_
    rintro (hnil | ⟨hmem, -⟩)
    · exact hne hnil
    · exact h hmem

/-- The line "ab" and its newline, into four cells. -/
theorem sGets_meets_iff_ab : ReadsOneLine 4 (fun _ => 0) [97, 98, 10] :=
  (sGets_meets_iff (fun _ => 0) [97, 98, 10] (by decide)).mpr (.inr ⟨by decide, .inl (by decide)⟩)

/-- The input "ab" without a newline: `s_gets` never returns. -/
theorem sGets_never_returns :
    (¬ ∃ fuel got, sGets fuel 45 (fun _ => 0) [97, 98] = some got) ∧
      ¬ ReadsOneLine 45 (fun _ => 0) [97, 98] := by
  have hread : readLine (45 - 1) [97, 98] = ([97, 98], []) := by decide
  have hloop : ∀ fuel, sGets fuel 45 (fun _ => 0) [97, 98] = none := by
    intro fuel
    rw [sGets_discard hread (by simp) (by decide) (by decide), discardLoop_none (by simp)]
    rfl
  refine ⟨?_, ?_⟩
  · rintro ⟨fuel, got, hgets⟩
    rw [hloop] at hgets
    cases hgets
  · rintro ⟨fuel, got, hgets, -⟩
    rw [hloop] at hgets
    cases hgets

end ComputerScience.CPrimer
