/-
  ComputerScience.Rio.Cpfile
  ──────────────────────────
  **`cpfile` WITH THE OLDER `rio_readlineb`** (`16-io/cpfile.c`, `16-io/csapp.c`).

  This directory has its own copy of `rio_readlineb`.  The loop is the one of
  `22-netprog2`, but the copy returns the counter `n` on every exit.  That is the
  number of bytes stored when a newline ended the line, and one more than that when the
  buffer filled up or the input ended: `cpfile` then also writes the terminating NUL.
  The input is copied faithfully iff neither happens (`LinesOk`).
-/
import ComputerScience.Rio.LineCopy

namespace ComputerScience.Rio

open ComputerScience.Lib

/-! ## §1. The copy of `rio_readlineb` and the program. -/

/-- `rio_readlineb` of `16-io/csapp.c`: `break` on a newline, then `*bufp = 0` and
`return n`. -/
def rioReadlineb16io (rp : RioT) (os : Os) (usrbuf : Cells UInt8) (maxlen : ℕ) : IoRet :=
  let r := lineLoop rp os (fun _ => 0) usrbuf 0 1 maxlen
  match r.exit with
  | .newline n => ⟨n, r.buf.store r.bufp [0], r.rp, r.os⟩
  | .full n => ⟨n, r.buf.store r.bufp [0], r.rp, r.os⟩
  | .eofData n => ⟨n, r.buf.store r.bufp [0], r.rp, r.os⟩
  | .eofEmpty => ⟨0, r.buf, r.rp, r.os⟩
  | .error => ⟨-1, r.buf, r.rp, r.os⟩

/-- A line with a positive count has used up input. -/
theorem rioReadlineb16io_count (rp : RioT) (os : Os) (usrbuf : Cells UInt8) (maxlen : ℕ)
    (hmax : 2 ≤ maxlen) (hrc : 0 < (rioReadlineb16io rp os usrbuf maxlen).rc) :
    unreadCount (rioReadlineb16io rp os usrbuf maxlen).rp
        (rioReadlineb16io rp os usrbuf maxlen).os < unreadCount rp os := by
  obtain ⟨hle, hexit⟩ := lineLoop_progress maxlen (maxlen - 1) rp os (fun _ => 0) usrbuf 0 1 rfl rfl
  unfold rioReadlineb16io at hrc ⊢
  simp only at hrc ⊢
  cases he : (lineLoop rp os (fun _ => 0) usrbuf 0 1 maxlen).exit <;>
    simp only [he] at hrc hexit ⊢ <;> omega

def io16Reader : LineReader where
  run rp os buf := rioReadlineb16io rp os buf MAXLINE
  progress rp os buf := rioReadlineb16io_count rp os buf MAXLINE (by decide)

/-- `main` of `cpfile.c`: standard input and standard output are the two directions
of `os`; `rio` and `buf` are uninitialised locals. -/
def cpfile (os : Os) (rio : RioT) (buf : Cells UInt8) : Outcome :=
  copyLoop io16Reader (rioReadinitb rio) os buf

/-! ## §2. What a round writes. -/

/-- The line, with the NUL unless a newline ended it. -/
def cpLine (s : List UInt8) : List UInt8 :=
  if (takeLine (MAXLINE - 1) s).getLast? = some 10 then takeLine (MAXLINE - 1) s
  else takeLine (MAXLINE - 1) s ++ [0]

/-- A list without a newline does not end in one. -/
theorem getLast?_ne_of_not_mem {l : List UInt8} (h : 10 ∉ l) : l.getLast? ≠ some 10 := by
  intro hlast
  exact h (List.mem_of_getLast? hlast)

/-- The counter `n` at the exit is the length of what the round writes. -/
theorem io16Reader_data {rp : RioT} {os : Os} (buf : Cells UInt8) (hinv : rp.Inv)
    (hok : os.ReadsOk) (hs : unread rp os ≠ []) :
    (rioReadlineb16io rp os buf MAXLINE).rc = (cpLine (unread rp os)).length ∧
      (rioReadlineb16io rp os buf MAXLINE).buf
        = buf.store 0 (takeLine (MAXLINE - 1) (unread rp os) ++ [0]) := by
  obtain ⟨rp', os', _, hloop⟩ := lineLoop_spec MAXLINE (MAXLINE - 1) rp os (fun _ => 0)
    buf 0 1 rfl hinv hok
  have hcount := lineExit_count (MAXLINE - 1) 1 (unread rp os) (Nat.le_refl 1)
  have hstore : (buf.store 0 (takeLine (MAXLINE - 1) (unread rp os))).store
      (0 + (takeLine (MAXLINE - 1) (unread rp os)).length) [0] = _ :=
    Cells.store_store_append _ _ _ _
  unfold rioReadlineb16io cpLine
  simp only [hloop]
  cases hexit : lineExit 1 (MAXLINE - 1) (unread rp os) with
  -- no `n++` before the `break`: `n` bytes were stored
  | newline m =>
      rw [hexit] at hcount
      obtain ⟨hm, hlast⟩ := hcount
      refine ⟨?_, hstore⟩
      rw [if_pos hlast]
      show (m : ℤ) = _
      omega
  -- `n` is one past the bytes stored
  | full m =>
      rw [hexit] at hcount
      obtain ⟨hm, _, hnot⟩ := hcount
      refine ⟨?_, hstore⟩
      rw [if_neg (getLast?_ne_of_not_mem hnot), List.length_append]
      show (m : ℤ) = ((_ + 1 : ℕ) : ℤ)
      omega
  | eofData m =>
      rw [hexit] at hcount
      obtain ⟨hm, _, hall, hnot⟩ := hcount
      refine ⟨?_, hstore⟩
      rw [hall, if_neg (getLast?_ne_of_not_mem hnot), List.length_append, ← hall]
      show (m : ℤ) = ((_ + 1 : ℕ) : ℤ)
      omega
  | eofEmpty =>
      rw [hexit] at hcount
      exact absurd hcount.2 hs
  | error =>
      rw [hexit] at hcount
      exact hcount.elim

theorem io16Reader_reads : io16Reader.Reads (takeLine (MAXLINE - 1)) cpLine where
  served rp os buf hinv hok := by
    obtain ⟨rp', os', hserved, hloop⟩ := lineLoop_spec MAXLINE (MAXLINE - 1) rp os (fun _ => 0)
      buf 0 1 rfl hinv hok
    show Served rp os _ (rioReadlineb16io rp os buf MAXLINE).rp
      (rioReadlineb16io rp os buf MAXLINE).os
    unfold rioReadlineb16io
    simp only [hloop]
    split <;> exact hserved
  eof rp os buf hinv hok hs := by
    obtain ⟨rp', os', _, hloop⟩ := lineLoop_spec MAXLINE (MAXLINE - 1) rp os (fun _ => 0)
      buf 0 1 rfl hinv hok
    show (rioReadlineb16io rp os buf MAXLINE).rc = 0
    unfold rioReadlineb16io
    simp only [hloop, hs]
    rfl
  data rp os buf hinv hok hs := by
    obtain ⟨hrc, hbuf⟩ := io16Reader_data buf hinv hok hs
    have hne := takeLine_ne_nil (show 0 < MAXLINE - 1 by decide) hs
    refine ⟨?_, hrc, ?_⟩
    · unfold cpLine
      split <;> simp [hne]
    · show (rioReadlineb16io rp os buf MAXLINE).buf.load 0 _ = _
      rw [hbuf]
      unfold cpLine
      split
      · exact load_store_append _ _ _
      · exact Cells.load_store_self _ _ _

/-! ## §3. When the copy is faithful. -/

/-- The input is a sequence of newline-terminated lines of at most `MAXLINE - 1`
bytes, the newline included. -/
def LinesOk (s : List UInt8) : Prop :=
  ∃ lines : List (List UInt8), s = lines.flatten ∧
    ∀ l ∈ lines, ∃ body, l = body ++ [10] ∧ 10 ∉ body ∧ l.length ≤ MAXLINE - 1

/-- **The input, a line at a time**: the first line that is read ends in a newline, and so
do the others. -/
theorem linesOk_iff {s rest : List UInt8} (hs : s ≠ [])
    (hline : s = takeLine (MAXLINE - 1) s ++ rest) :
    LinesOk s ↔ (takeLine (MAXLINE - 1) s).getLast? = some 10 ∧ LinesOk rest := by
  constructor
  · intro ⟨lines, hl, hall⟩
    cases lines with
    | nil => exact absurd hl hs
    | cons l lines =>
        obtain ⟨body, hbody, hnot, hlen⟩ := hall l List.mem_cons_self
        -- the first line of the input is the line that is read
        have hfirst : takeLine (MAXLINE - 1) s = l := by
          rw [hbody, List.length_append, List.length_singleton] at hlen
          rw [hl, List.flatten_cons, hbody, List.append_assoc]
          exact takeLine_of_line lines.flatten hnot (by omega)
        refine ⟨?_, lines, ?_, fun l' h' => hall l' (List.mem_cons_of_mem l h')⟩
        · rw [hfirst, hbody, List.getLast?_concat]
        · rw [hfirst, hl, List.flatten_cons] at hline
          exact (List.append_cancel_left hline).symm
  · intro ⟨hlast, lines, hl, hall⟩
    have hbody : (takeLine (MAXLINE - 1) s).dropLast ++ [10] = takeLine (MAXLINE - 1) s :=
      List.dropLast_append_getLast? 10 hlast
    refine ⟨takeLine (MAXLINE - 1) s :: lines, ?_, ?_⟩
    · rw [List.flatten_cons, ← hl]
      exact hline
    · intro l hmem
      rcases List.mem_cons.mp hmem with rfl | hmem
      · exact ⟨_, hbody.symm, not_mem_dropLast_takeLine _ s, takeLine_length_le _ s⟩
      · exact hall l hmem

/-- A round never writes less than it reads. -/
theorem rounds_length_le {s written : List UInt8}
    (h : Rounds (takeLine (MAXLINE - 1)) cpLine s written) : s.length ≤ written.length := by
  induction h with
  | done => exact Nat.le_refl _
  | @round s rest written hs hline _ ih =>
      have hlen := congrArg List.length hline
      rw [List.length_append] at hlen ⊢
      have : (takeLine (MAXLINE - 1) s).length ≤ (cpLine s).length := by
        unfold cpLine
        split <;> simp
      omega

/-- **The exact condition**: what is written is what was read iff the input is made
of lines that end in a newline and fit the buffer. -/
theorem rounds_eq_iff {s written : List UInt8}
    (h : Rounds (takeLine (MAXLINE - 1)) cpLine s written) : written = s ↔ LinesOk s := by
  induction h with
  -- nothing read, nothing written
  | done => exact ⟨fun _ => ⟨[], rfl, by simp⟩, fun _ => rfl⟩
  | @round s rest written hs hline hrest ih =>
      rw [linesOk_iff hs hline]
      by_cases hlast : (takeLine (MAXLINE - 1) s).getLast? = some 10
      · -- the round copies its line; both sides are about the rest
        have hcp : cpLine s = takeLine (MAXLINE - 1) s := if_pos hlast
        have hcancel : takeLine (MAXLINE - 1) s ++ written = s ↔ written = rest := by
          constructor
          · intro h
            exact List.append_cancel_left (h.trans hline)
          · intro h
            rw [h]
            exact hline.symm
        rw [hcp, hcancel, ih]
        exact (and_iff_right hlast).symm
      · -- the NUL makes the output longer than the input; no line ends here
        have hcp : cpLine s = takeLine (MAXLINE - 1) s ++ [0] := if_neg hlast
        apply iff_of_false
        · intro h
          have hle := rounds_length_le hrest
          have h1 := congrArg List.length h
          have h2 := congrArg List.length hline
          rw [hcp] at h1
          simp only [List.length_append, List.length_cons, List.length_nil] at h1 h2
          omega
        · intro h
          exact hlast h.1

/-- **`cpfile` copies its input iff every line ends in a newline and has at most
`MAXLINE - 1` bytes.** -/
theorem cpfile_copies_iff (os : Os) (rio : RioT) (buf : Cells UInt8)
    (hreads : os.ReadsOk) (hwrites : os.WritesOk) :
    ∃ os', cpfile os rio buf = .returned os' ∧
      (os'.written = os.written ++ os.stream ↔ LinesOk os.stream) := by
  obtain ⟨os', written, hret, hout, hrounds⟩ := copyLoop_spec io16Reader_reads
    (rioReadinitb rio) os buf (rioReadinitb_inv rio) hreads hwrites
  refine ⟨os', hret, ?_⟩
  rw [hout, List.append_cancel_left_eq]
  exact rounds_eq_iff hrounds

/-- `"hi\n"`: one short line, cut after its first byte. -/
def shortLineOs : Os := ⟨[104, 105, 10], [.data 0], [], [.accept 2], .none⟩

theorem cpfile_shortLineOs :
    shortLineOs.ReadsOk ∧ shortLineOs.WritesOk ∧
    ∃ os', cpfile shortLineOs ⟨0, 0, fun _ => 0⟩ (fun _ => 0) = .returned os' ∧
      os'.written = [104, 105, 10] := by
  have hreads : shortLineOs.ReadsOk := by
    unfold Os.ReadsOk
    decide
  have hwrites : shortLineOs.WritesOk := by
    unfold Os.WritesOk
    decide
  have hlines : LinesOk shortLineOs.stream := by
    refine ⟨[[104, 105, 10]], rfl, ?_⟩
    intro l hl
    rw [List.mem_singleton.mp hl]
    exact ⟨[104, 105], rfl, by decide, by decide⟩
  obtain ⟨os', hret, hcopies⟩ := cpfile_copies_iff shortLineOs ⟨0, 0, fun _ => 0⟩ (fun _ => 0)
    hreads hwrites
  exact ⟨hreads, hwrites, os', hret, hcopies.mpr hlines⟩

/-- `"a"`: a last line without a newline. -/
def missingNewlineOs : Os := ⟨[97], [], [], [], .none⟩

/-- On `"a"` the program writes `"a\0"`. -/
theorem cpfile_missingNewlineOs :
    ∃ os', cpfile missingNewlineOs ⟨0, 0, fun _ => 0⟩ (fun _ => 0) = .returned os' ∧
      os'.written = [97, 0] ∧ os'.written ≠ missingNewlineOs.stream := by
  obtain ⟨os', written, hret, hout, hrounds⟩ := copyLoop_spec io16Reader_reads
    (rioReadinitb ⟨0, 0, fun _ => 0⟩) missingNewlineOs (fun _ => 0) (rioReadinitb_inv _)
    (by unfold Os.ReadsOk; decide) (by unfold Os.WritesOk; decide)
  have hw : written = [97, 0] := by
    have hun : unread (rioReadinitb ⟨0, 0, fun _ => 0⟩) missingNewlineOs = [97] := rfl
    rw [hun] at hrounds
    cases hrounds with
    | @round _ rest written _ hline hrest =>
        have hnil : rest = [] :=
          (List.append_cancel_left (show [97] ++ [] = [97] ++ rest from hline)).symm
        subst hnil
        cases hrest with
        | done => rfl
        | round hs _ _ => exact absurd rfl hs
  have hout' : os'.written = [97, 0] := by
    rw [hout, hw]
    rfl
  exact ⟨os', hret, hout', by rw [hout']; decide⟩

end ComputerScience.Rio
