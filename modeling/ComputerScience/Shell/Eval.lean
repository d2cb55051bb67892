/-
  ComputerScience.Shell.Eval
  ──────────────────────────
  **THE SHELL'S ARRAYS ON EVERY LINE** (`15-ecf-signals/shellex.c`).

  `main` reads a line of at most `MAXLINE-1` bytes with `Fgets`, and `eval` copies it and
  calls `parseline`.  Two lines lead out of the arrays:

    • one that begins with a NUL is an empty string, and `buf[strlen(buf)-1]` is `buf[-1]`,
    • one of `MAXARGS` words or more needs more than `argv[0..MAXARGS-1]`.

  `eval_in_bounds_iff` says that these are all.
-/
import ComputerScience.Rio.Buffered
import ComputerScience.Shell.Parseline

namespace ComputerScience.Shell

open ComputerScience.Lib
open ComputerScience.Rio

/-! ## §1. The functions. -/

/-- `strcpy(dst, src)` between arrays of `size` characters. -/
def strcpy (size : ℕ) (dst src : Cells UInt8) : Option (Cells UInt8) := do
  let n ← src.strlen size 0
  if n < size then some (dst.store 0 (src.load 0 (n + 1))) else none

/-- `!strcmp(s, lit)`: characters are read up to the first difference. -/
def strEq (size : ℕ) (m : Cells UInt8) (off : ℕ) : List UInt8 → Option Bool
  | [] => (m.get size off).map (fun c => c == 0)
  | c :: lit => (m.get size off).bind fun x =>
      if x = c then strEq size m (off + 1) lit else some false

/-- The outcomes of `builtin_command`. -/
inductive Builtin
  | quit
  | singleton
  | no

/-- `builtin_command(argv)` on the word `argv[0]`. -/
def builtinCommand (size : ℕ) (buf : Cells UInt8) (p : ℕ) : Option Builtin := do
  let quit ← strEq size buf p [113, 117, 105, 116]
  if quit then some .quit
  else do
    let amp ← strEq size buf p [38]
    if amp then some .singleton else some .no

/-- What `eval` comes to. -/
inductive Evaluated
  | ignored
  | builtin (b : Builtin)
  | job (r : ParseRet)

/-- `eval(cmdline)` up to the fork, with what `buf` and `argv` happen to hold; `none` is an
index outside an array. -/
def eval (cmdline buf : Cells UInt8) (argv : Argv) : Option Evaluated := do
  let buf ← strcpy MAXLINE buf cmdline
  let r ← parseline MAXLINE MAXARGS buf argv
  let word ← r.argv.get MAXARGS 0
  match word with
  | none => some .ignored
  | some p => do
      let b ← builtinCommand MAXLINE r.buf p
      match b with
      | .no => some (.job r)
      | b => some (.builtin b)

/-! ## §2. The pieces. -/

theorem strcpy_isStr {size : ℕ} (dst : Cells UInt8) {src : Cells UInt8} {s : List UInt8}
    (h : src.IsStr 0 s) (hsize : s.length < size) : ∃ m, strcpy size dst src = some m ∧ m.IsStr 0 s := by
  have hlen : src.strlen size 0 = some s.length := Cells.strlen_eq h (by omega)
  refine ⟨dst.store 0 (s ++ [0]), ?_, Cells.isStr_store_self dst 0 h.nonul⟩
  unfold strcpy
  rw [hlen]
  show (if s.length < size then some (dst.store 0 (src.load 0 (s.length + 1))) else none) = _
  rw [if_pos hsize, h.load]

/-- A comparison with a string stays inside it. -/
theorem strEq_isSome {size : ℕ} {m : Cells UInt8} {off : ℕ} {s : List UInt8} (h : m.IsStr off s)
    (hsize : off + s.length < size) (lit : List UInt8) (hlit : (0 : UInt8) ∉ lit) :
    ∃ b, strEq size m off lit = some b := by
  induction lit generalizing off s with
  | nil => exact ⟨m off == 0, by rw [strEq, Cells.get_eq m (by omega)]; rfl⟩
  | cons c lit ih =>
      rw [List.mem_cons, not_or] at hlit
      rw [strEq, Cells.get_eq m (by omega), Option.bind_some]
      by_cases hc : m off = c
      · rw [if_pos hc]
        cases s with
        | nil => exact absurd (h.nul.symm.trans hc) hlit.1
        | cons x s =>
            have hnext : m.IsStr (off + 1) s := by
              rw [← List.singleton_append] at h
              exact h.suffix
            rw [List.length_cons] at hsize
            exact ih hnext (by omega) hlit.2
      · rw [if_neg hc]
        exact ⟨false, rfl⟩

theorem builtinCommand_isSome {size : ℕ} {buf : Cells UInt8} {p : ℕ} {s : List UInt8}
    (h : buf.IsStr p s) (hsize : p + s.length < size) :
    ∃ b, builtinCommand size buf p = some b := by
  obtain ⟨quit, hquit⟩ := strEq_isSome h hsize [113, 117, 105, 116] (by decide)
  obtain ⟨amp, hamp⟩ := strEq_isSome h hsize [38] (by decide)
  unfold builtinCommand
  rw [hquit]
  show ∃ b, (if quit = true then some Builtin.quit else _) = some b
  cases quit with
  | true => exact ⟨_, rfl⟩
  | false =>
      rw [if_neg (by decide), hamp]
      cases amp with
      | true => exact ⟨_, rfl⟩
      | false => exact ⟨_, rfl⟩

/-! ## §3. Every line. -/

/-- After `parseline` nothing leads out of the arrays. -/
theorem eval_isSome {cmdline buf : Cells UInt8} {argv : Argv} {m : Cells UInt8} {r : ParseRet}
    {args : List (List UInt8)} (hcpy : strcpy MAXLINE buf cmdline = some m)
    (hparse : parseline MAXLINE MAXARGS m argv = some r)
    (hargs : Args MAXLINE r.buf r.argv args) : ∃ e, eval cmdline buf argv = some e := by
  have hget : r.argv.get MAXARGS 0 = some (r.argv 0) := Cells.get_eq _ (by decide)
  unfold eval
  rw [hcpy]
  show ∃ e, (parseline MAXLINE MAXARGS m argv).bind _ = some e
  rw [hparse, Option.bind_some, hget]
  cases args with
  | nil =>
      have hnull : r.argv 0 = none := hargs.null
      rw [hnull]
      exact ⟨Evaluated.ignored, rfl⟩
  | cons w args =>
      obtain ⟨p, hp, hstr, hlt⟩ := hargs.words 0 (by simp)
      obtain ⟨b, hb⟩ := builtinCommand_isSome hstr hlt
      rw [hp]
      show ∃ e, (builtinCommand MAXLINE r.buf p).bind _ = some e
      rw [hb, Option.bind_some]
      cases b with
      | quit => exact ⟨_, rfl⟩
      | singleton => exact ⟨_, rfl⟩
      | no => exact ⟨_, rfl⟩

section

variable {line : List UInt8} (hline : line.length ≤ MAXLINE - 1) (cmdline buf : Cells UInt8)
  (argv : Argv)

include hline

/-- The copy of the line that `parseline` gets. -/
theorem strcpy_line :
    (Cells.cstr line).length < MAXLINE ∧
      ∃ m, strcpy MAXLINE buf (cmdline.store 0 (line ++ [0])) = some m ∧
        m.IsStr 0 (Cells.cstr line) := by
  have hlen : (Cells.cstr line).length < MAXLINE := by
    have := Cells.cstr_length_le line
    have : MAXLINE = 8192 := rfl
    omega
  exact ⟨hlen, strcpy_isStr buf (Cells.isStr_store cmdline 0 line) hlen⟩

/-- `parseline` leads out of an array. -/
theorem eval_eq_none
    (h : ∀ m : Cells UInt8, m.IsStr 0 (Cells.cstr line) → (Cells.cstr line).length < MAXLINE →
      parseline MAXLINE MAXARGS m argv = none) :
    eval (cmdline.store 0 (line ++ [0])) buf argv = none := by
  obtain ⟨hlen, m, hcpy, hm⟩ := strcpy_line hline cmdline buf
  unfold eval
  rw [hcpy]
  show (parseline MAXLINE MAXARGS m argv).bind _ = none
  rw [h m hm hlen]
  rfl

/-- The line begins with a NUL. -/
theorem eval_empty (hempty : Cells.cstr line = []) :
    eval (cmdline.store 0 (line ++ [0])) buf argv = none := by
  apply eval_eq_none hline
  intro m hm _
  rw [hempty] at hm
  exact parseline_empty hm (by decide) argv

/-- The line has too many words. -/
theorem eval_overflow (hne : Cells.cstr line ≠ [])
    (hargs : MAXARGS ≤ (fields isSpace (Cells.cstr line).dropLast).length) :
    eval (cmdline.store 0 (line ++ [0])) buf argv = none := by
  apply eval_eq_none hline
  intro m hm hlen
  exact parseline_overflow hm hne hlen argv hargs

/-- Every other line. -/
theorem eval_fits (hne : Cells.cstr line ≠ [])
    (hargs : (fields isSpace (Cells.cstr line).dropLast).length < MAXARGS) :
    ∃ e, eval (cmdline.store 0 (line ++ [0])) buf argv = some e := by
  obtain ⟨hlen, m, hcpy, hm⟩ := strcpy_line hline cmdline buf
  obtain ⟨r, hparse, _, hres⟩ := parseline_fields hm hne hlen argv hargs
  exact eval_isSome hcpy hparse hres

end

/-- **The arrays hold every line but these**: `eval` on a line of at most `MAXLINE-1` bytes
stays inside `buf` and `argv` exactly when the line is not empty as a string and the
string, without its last character, has at most `MAXARGS-1` words. -/
theorem eval_in_bounds_iff (line : List UInt8) (hline : line.length ≤ MAXLINE - 1)
    (cmdline buf : Cells UInt8) (argv : Argv) :
    (∃ e, eval (cmdline.store 0 (line ++ [0])) buf argv = some e) ↔
      Cells.cstr line ≠ [] ∧
        (fields isSpace (Cells.cstr line).dropLast).length ≤ MAXARGS - 1 := by
  have hmax : MAXARGS = 128 := rfl
  constructor
  · intro ⟨e, he⟩
    have hne : Cells.cstr line ≠ [] := by
      intro hempty
      rw [eval_empty hline cmdline buf argv hempty] at he
      exact absurd he (by simp)
    refine ⟨hne, ?_⟩
    by_contra hmany
    rw [eval_overflow hline cmdline buf argv hne (by omega)] at he
    exact absurd he (by simp)
  · intro ⟨hne, hargs⟩
    exact eval_fits hline cmdline buf argv hne (by omega)

/-- `ls`, with any contents of the arrays before. -/
theorem eval_in_bounds_ls :
    ∃ e, eval (Cells.store (fun _ => 0) 0 ([108, 115, 10] ++ [0])) (fun _ => 0)
      (fun _ => none) = some e :=
  (eval_in_bounds_iff [108, 115, 10] (by decide) (fun _ => 0) (fun _ => 0) (fun _ => none)).mpr
    ⟨by decide, by decide⟩

/-- A line of 128 one-letter words, and a line that begins with a NUL. -/
theorem eval_out_of_bounds :
    eval (Cells.store (fun _ => 0) 0 (((List.replicate 128 [97, 32]).flatten ++ [10]) ++ [0]))
        (fun _ => 0) (fun _ => none) = none ∧
      eval (Cells.store (fun _ => 0) 0 ([0, 10] ++ [0])) (fun _ => 0) (fun _ => none) = none :=
  ⟨eval_overflow (by decide +kernel) _ _ _ (by decide +kernel) (by decide +kernel),
    eval_empty (by decide) _ _ _ rfl⟩

end ComputerScience.Shell
