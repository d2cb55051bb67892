/-
  ComputerScience.Tiny.Headers
  ────────────────────────────
  **READING THE REQUEST HEADERS** (`22-netprog2/tiny/tiny.c`, with the `rio` routines of
  its `csapp.c`).

  `read_requesthdrs` reads lines until its buffer holds the blank line.  It does not look
  at what `Rio_readlineb` returns, and at the end of the stream that routine leaves the
  buffer as it is: the loop then sees the last line again, for ever.

    • `hdrsLoop_stuck` — at the end of the stream the loop does not come to an end,
    • `hdrsLoop_iff` — it ends exactly when one of the pieces that the stream is read in
      is the blank line,
    • `hdrsLoop_returned` — it writes nothing.
-/
import ComputerScience.Rio.LineCopy

namespace ComputerScience.Tiny

open ComputerScience.Lib
open ComputerScience.Rio

/-! ## §1. The function. -/

/-- `!strcmp(buf, "\r\n")` -/
def isBlank (buf : Cells UInt8) : Prop := buf 0 = 13 ∧ buf 1 = 10 ∧ buf 2 = 0

instance (buf : Cells UInt8) : Decidable (isBlank buf) := inferInstanceAs (Decidable (_ ∧ _ ∧ _))

/-- The `while` loop, for at most `fuel` tests of its condition. -/
def hdrsLoop : ℕ → RioT → Os → Cells UInt8 → Option Outcome
  | 0, _, _, _ => none
  | fuel + 1, rp, os, buf =>
      if isBlank buf then some (.returned os)
      else
        let r := rioReadlineb rp os buf MAXLINE
        if r.rc < 0 then some (.unixError "Rio_readlineb error" r.os)
        else hdrsLoop fuel r.rp r.os r.buf

/-- `read_requesthdrs(rp)`; `buf` is what the local array happens to hold.  `none` when it
has not come to an end after `fuel` tests. -/
def readRequesthdrs (fuel : ℕ) (rp : RioT) (os : Os) (buf : Cells UInt8) : Option Outcome :=
  let r := rioReadlineb rp os buf MAXLINE
  if r.rc < 0 then some (.unixError "Rio_readlineb error" r.os)
  else hdrsLoop fuel r.rp r.os r.buf

/-- The pieces that a stream is read in: up to a newline, but at most `MAXLINE-1` bytes. -/
def pieces (s : List UInt8) : List (List UInt8) :=
  if s = [] then []
  else takeLine (MAXLINE - 1) s :: pieces (s.drop (takeLine (MAXLINE - 1) s).length)
termination_by s.length
decreasing_by
  rename_i hs
  have hpos := List.length_pos_of_ne_nil hs
  have hline := List.length_pos_of_ne_nil (takeLine_ne_nil (k := MAXLINE - 1) (by decide) hs)
  rw [List.length_drop]
  omega

/-- The blank line. -/
def CRLF : List UInt8 := [13, 10]

/-- A line that fits the buffer is one piece. -/
theorem pieces_line {line : List UInt8} (h10 : (10 : UInt8) ∉ line)
    (hlen : line.length < MAXLINE - 1) (rest : List UInt8) :
    pieces (line ++ 10 :: rest) = (line ++ [10]) :: pieces rest := by
  have hline := takeLine_of_line rest h10 hlen
  have hdrop : (line ++ 10 :: rest).drop (line ++ [10]).length = rest := by
    rw [List.append_cons line 10 rest]
    exact List.drop_left' rfl
  rw [pieces, if_neg (List.append_ne_nil_of_right_ne_nil _ (List.cons_ne_nil _ _)), hline, hdrop]

/-! ## §2. The buffer after a line. -/

/-- A newline ends a line. -/
theorem takeLine_newline {k : ℕ} {s : List UInt8} {i : ℕ} (hi : i < (takeLine k s).length)
    (h : (takeLine k s)[i] = 10) : i + 1 = (takeLine k s).length := by
  by_contra hne
  have hlt : i < (takeLine k s).dropLast.length := by
    rw [List.length_dropLast]
    omega
  have hmem := List.getElem_mem hlt
  rw [List.getElem_dropLast, h] at hmem
  exact not_mem_dropLast_takeLine k s hmem

/-- A line makes the buffer blank exactly when it is the blank line. -/
theorem isBlank_store_iff (buf : Cells UInt8) {k : ℕ} {s : List UInt8} (hne : takeLine k s ≠ []) :
    isBlank (buf.store 0 (takeLine k s ++ [0])) ↔ takeLine k s = CRLF := by
  have hat : ∀ i, (hi : i < (takeLine k s ++ [0]).length) →
      buf.store 0 (takeLine k s ++ [0]) i = (takeLine k s ++ [0])[i] := by
    intro i hi
    have hmem : buf.store 0 (takeLine k s ++ [0]) (0 + i) = (takeLine k s ++ [0])[i] :=
      Cells.store_apply_of_mem buf hi
    rwa [Nat.zero_add] at hmem
  constructor
  · intro ⟨h0, h1, _⟩
    have hlen := List.length_pos_of_ne_nil hne
    have hlen' : (takeLine k s ++ [0]).length = (takeLine k s).length + 1 := by simp
    rw [hat 0 (by omega), List.getElem_append_left hlen] at h0
    rw [hat 1 (by omega)] at h1
    by_cases htwo : 1 < (takeLine k s).length
    · rw [List.getElem_append_left htwo] at h1
      have hend := takeLine_newline htwo h1
      apply List.ext_getElem
      · exact hend.symm
      · intro i hi hi'
        cases i with
        | zero => exact h0
        | succ i =>
            obtain rfl : i = 0 := by omega
            exact h1
    · rw [List.getElem_append_right (by omega)] at h1
      simp at h1
  · intro hline
    rw [hline] at hat ⊢
    exact ⟨hat 0 (by decide), hat 1 (by decide), hat 2 (by decide)⟩

/-! ## §3. The loop. -/

/-- The next line, and what is left of the stream. -/
theorem unread_after_line {rp : RioT} {os : Os} (buf : Cells UInt8) (hinv : rp.Inv)
    (hok : os.ReadsOk) :
    unread (rioReadlineb rp os buf MAXLINE).rp (rioReadlineb rp os buf MAXLINE).os =
      (unread rp os).drop (takeLine (MAXLINE - 1) (unread rp os)).length := by
  have hserved := (rioReadlineb_spec buf (show 2 ≤ MAXLINE by decide) hinv hok).1
  have hdrop := congrArg (List.drop (takeLine (MAXLINE - 1) (unread rp os)).length)
    hserved.unread_eq
  rw [List.drop_left' rfl] at hdrop
  exact hdrop.symm

/-- **At the end of the stream the loop is stuck**: the buffer is not touched again. -/
theorem hdrsLoop_stuck (fuel : ℕ) {rp : RioT} {os : Os} {buf : Cells UInt8} (hinv : rp.Inv)
    (hok : os.ReadsOk) (hend : unread rp os = []) (hblank : ¬ isBlank buf) :
    hdrsLoop fuel rp os buf = none := by
  induction fuel generalizing rp os with
  | zero => rfl
  | succ fuel ih =>
      obtain ⟨hserved, hrc, hbuf⟩ := rioReadlineb_spec buf (show 2 ≤ MAXLINE by decide) hinv hok
      have hrest := unread_after_line buf hinv hok
      rw [hend, List.drop_nil] at hrest
      rw [hend] at hrc
      rw [if_pos hend] at hbuf
      rw [hdrsLoop, if_neg hblank]
      show (if (rioReadlineb rp os buf MAXLINE).rc < 0 then _ else _) = none
      rw [if_neg (by rw [hrc]; omega), hbuf]
      exact ih hserved.inv hserved.readsOk hrest

/-- A turn of the loop while there is data. -/
theorem hdrsLoop_turn (fuel : ℕ) {rp : RioT} {os : Os} {buf : Cells UInt8} (hinv : rp.Inv)
    (hok : os.ReadsOk) (hblank : ¬ isBlank buf) :
    hdrsLoop (fuel + 1) rp os buf =
      hdrsLoop fuel (rioReadlineb rp os buf MAXLINE).rp (rioReadlineb rp os buf MAXLINE).os
        (rioReadlineb rp os buf MAXLINE).buf := by
  have hrc := (rioReadlineb_spec buf (show 2 ≤ MAXLINE by decide) hinv hok).2.1
  rw [hdrsLoop, if_neg hblank]
  exact if_neg (by rw [hrc]; omega)

/-- **The loop ends exactly when the blank line is there**, in the buffer or among the
pieces of the stream. -/
theorem hdrsLoop_iff {rp : RioT} {os : Os} {buf : Cells UInt8} (hinv : rp.Inv)
    (hok : os.ReadsOk) :
    (∃ fuel, hdrsLoop fuel rp os buf ≠ none) ↔
      isBlank buf ∨ CRLF ∈ pieces (unread rp os) := by
  induction hn : (unread rp os).length using Nat.strong_induction_on generalizing rp os buf with
  | _ n ih =>
      by_cases hblank : isBlank buf
      · apply iff_of_true _ (Or.inl hblank)
        exact ⟨1, by rw [hdrsLoop, if_pos hblank]; simp⟩
      by_cases hend : unread rp os = []
      · apply iff_of_false
        · intro ⟨fuel, hfuel⟩
          exact hfuel (hdrsLoop_stuck fuel hinv hok hend hblank)
        · rw [hend, pieces]
          simp [hblank]
      · obtain ⟨hserved, _, hbuf⟩ := rioReadlineb_spec buf (show 2 ≤ MAXLINE by decide) hinv hok
        have hline : takeLine (MAXLINE - 1) (unread rp os) ≠ [] := takeLine_ne_nil (by decide) hend
        have hrest := unread_after_line buf hinv hok
        rw [if_neg hend] at hbuf
        have hless : (unread (rioReadlineb rp os buf MAXLINE).rp
            (rioReadlineb rp os buf MAXLINE).os).length < n := by
          have := List.length_pos_of_ne_nil hend
          have := List.length_pos_of_ne_nil hline
          rw [← hn, hrest, List.length_drop]
          omega
        have hnext := @ih _ hless _ _ (rioReadlineb rp os buf MAXLINE).buf hserved.inv
          hserved.readsOk rfl
        rw [hrest, hbuf, isBlank_store_iff buf hline] at hnext
        have hpieces : (CRLF ∈ pieces (unread rp os)) ↔
            takeLine (MAXLINE - 1) (unread rp os) = CRLF ∨
              CRLF ∈ pieces ((unread rp os).drop
                (takeLine (MAXLINE - 1) (unread rp os)).length) := by
          rw [pieces, if_neg hend, List.mem_cons]
          exact or_congr_left eq_comm
        rw [hpieces, ← hnext]
        constructor
        · intro ⟨fuel, hfuel⟩
          cases fuel with
          | zero => exact absurd rfl hfuel
          | succ fuel =>
              rw [hdrsLoop_turn fuel hinv hok hblank, hbuf] at hfuel
              exact Or.inr ⟨fuel, hfuel⟩
        · intro h
          obtain ⟨fuel, hfuel⟩ := h.resolve_left hblank
          refine ⟨fuel + 1, ?_⟩
          rw [hdrsLoop_turn fuel hinv hok hblank, hbuf]
          exact hfuel

/-- The first `Rio_readlineb` does not fail. -/
theorem readRequesthdrs_eq (fuel : ℕ) {rp : RioT} {os : Os} (buf : Cells UInt8) (hinv : rp.Inv)
    (hok : os.ReadsOk) :
    readRequesthdrs fuel rp os buf =
      hdrsLoop fuel (rioReadlineb rp os buf MAXLINE).rp (rioReadlineb rp os buf MAXLINE).os
        (rioReadlineb rp os buf MAXLINE).buf := by
  have hrc := (rioReadlineb_spec buf (show 2 ≤ MAXLINE by decide) hinv hok).2.1
  exact if_neg (by rw [hrc]; omega)

/-- Where the blank line is behind the first `Rio_readlineb`, and before it. -/
theorem firstLine_iff {rp : RioT} {os : Os} (buf : Cells UInt8) (hinv : rp.Inv)
    (hok : os.ReadsOk) :
    isBlank (rioReadlineb rp os buf MAXLINE).buf ∨
        CRLF ∈ pieces (unread (rioReadlineb rp os buf MAXLINE).rp
          (rioReadlineb rp os buf MAXLINE).os) ↔
      CRLF ∈ pieces (unread rp os) ∨ unread rp os = [] ∧ isBlank buf := by
  have hbuf := (rioReadlineb_spec buf (show 2 ≤ MAXLINE by decide) hinv hok).2.2
  rw [unread_after_line buf hinv hok, hbuf]
  by_cases hend : unread rp os = []
  · have hnil : CRLF ∉ pieces [] := by
      rw [pieces]
      simp
    rw [if_pos hend, hend, List.drop_nil]
    simp [hnil]
  · rw [if_neg hend, isBlank_store_iff buf (takeLine_ne_nil (by decide) hend), pieces.eq_1
      (unread rp os), if_neg hend, List.mem_cons, eq_comm]
    simp [hend]

/-- **`read_requesthdrs` comes to an end exactly** when one of the pieces that the stream
is read in is the blank line, or when the stream is empty and the array on the stack
happens to hold the blank line already. -/
theorem readRequesthdrs_terminates_iff (rp : RioT) (os : Os) (buf : Cells UInt8) (hinv : rp.Inv)
    (hok : os.ReadsOk) :
    (∃ fuel, readRequesthdrs fuel rp os buf ≠ none) ↔
      CRLF ∈ pieces (unread rp os) ∨ unread rp os = [] ∧ isBlank buf := by
  have hserved := (rioReadlineb_spec buf (show 2 ≤ MAXLINE by decide) hinv hok).1
  rw [← firstLine_iff buf hinv hok, ← hdrsLoop_iff hserved.inv hserved.readsOk]
  simp only [readRequesthdrs_eq _ buf hinv hok]

/-- `Host: a`, a blank line, cut after the first four bytes. -/
theorem readRequesthdrs_terminates_host :
    ∃ fuel, readRequesthdrs fuel (rioReadinitb ⟨0, 0, fun _ => 0⟩)
      ⟨[72, 111, 115, 116, 58, 32, 97, 13, 10, 13, 10], [.data 3], [], [], .none⟩
      (fun _ => 0) ≠ none := by
  refine (readRequesthdrs_terminates_iff _ _ _ (rioReadinitb_inv _)
    (by unfold Os.ReadsOk; decide)).mpr (Or.inl ?_)
  show CRLF ∈ pieces ([72, 111, 115, 116, 58, 32, 97, 13] ++ 10 :: ([13] ++ 10 :: []))
  rw [pieces_line (by decide) (by decide), pieces_line (by decide) (by decide)]
  exact List.mem_cons_of_mem _ List.mem_cons_self

/-- The client sends one header and closes: `read_requesthdrs` reads on for ever. -/
theorem readRequesthdrs_cut :
    ¬ ∃ fuel, readRequesthdrs fuel (rioReadinitb ⟨0, 0, fun _ => 0⟩)
      ⟨[72, 58, 97, 13, 10], [], [], [], .none⟩ (fun _ => 0) ≠ none := by
  intro ⟨fuel, hfuel⟩
  have hinv := rioReadinitb_inv ⟨0, 0, fun _ => 0⟩
  have hok : Os.ReadsOk ⟨[72, 58, 97, 13, 10], [], [], [], .none⟩ := by
    unfold Os.ReadsOk
    decide
  have hunread : unread (rioReadinitb ⟨0, 0, fun _ => 0⟩)
      ⟨[72, 58, 97, 13, 10], [], [], [], .none⟩ = [72, 58, 97, 13, 10] := rfl
  obtain ⟨hserved, hrc, hbuf⟩ :=
    rioReadlineb_spec (fun _ => 0) (show 2 ≤ MAXLINE by decide) hinv hok
  have hrest := unread_after_line (fun _ => 0) hinv hok
  have hline : takeLine (MAXLINE - 1) [72, 58, 97, 13, 10] = [72, 58, 97, 13, 10] := by decide
  rw [hunread, hline] at hrc hbuf hrest
  rw [if_neg (by decide)] at hbuf
  apply hfuel
  unfold readRequesthdrs
  simp only
  rw [if_neg (by rw [hrc]; decide), hbuf]
  exact hdrsLoop_stuck fuel hserved.inv hserved.readsOk hrest (by unfold isBlank; decide)

end ComputerScience.Tiny
