/-
  ComputerScience.Shell.Parseline
  ───────────────────────────────
  **THE SHELL'S COMMAND LINE PARSER** (`15-ecf-signals/shellex.c`).

  `parseline` cuts the words out of the buffer in place: it puts a space where the last
  character was and then, word by word, a NUL where the space after the word is.  `argv`
  gets pointers into the buffer.  Every access is checked against the sizes of the two
  arrays, so that a run that returns has stayed inside.

    • `wordLoop_turn` — a turn of the loop: one word,
    • `wordLoop_cut` — the loop takes the fields of what is left of the line,
    • `parseline_fields` — what `parseline` leaves in `argv` and returns.
-/
import ComputerScience.Lib.CString
import ComputerScience.Lib.Fields

namespace ComputerScience.Shell

open ComputerScience.Lib

def MAXARGS : ℕ := 128

/-- `argv`: pointers into the buffer, or `NULL`. -/
abbrev Argv := Cells (Option ℕ)

/-- What `parseline` leaves behind and returns. -/
structure ParseRet where
  buf : Cells UInt8
  argv : Argv
  bg : ℕ

/-! ## §1. The function. -/

/-- `while (*buf && (*buf == ' ')) buf++;`: where it stops. -/
def skipSpaces (size : ℕ) (buf : Cells UInt8) (i : ℕ) : Option ℕ :=
  buf.scan size (fun c => !(c != 0 && c == 32)) i

/-- "Build the argv list": the loop from pointer `i` on, with `argc` words so far. -/
def wordLoop (size nargs : ℕ) (buf : Cells UInt8) (argv : Argv) (argc i : ℕ) :
    Option (Cells UInt8 × Argv × ℕ) :=
  match _h : buf.strchr size i 32 with
  | none => none
  | some none => some (buf, argv, argc)
  | some (some delim) =>
      match argv.put nargs argc (some i), buf.put size delim 0 with
      | some argv, some buf =>
          match _h' : skipSpaces size buf (delim + 1) with
          | none => none
          | some j => wordLoop size nargs buf argv (argc + 1) j
      | _, _ => none
termination_by size - i
decreasing_by
  have hdelim := Cells.strchr_range _h
  have hj := Cells.scan_range _h'
  omega

/-- What follows the loop: the `NULL`, the blank line, the `&`. -/
def finishArgv (size nargs : ℕ) (buf : Cells UInt8) (argv : Argv) (argc : ℕ) :
    Option ParseRet := do
  let argv ← argv.put nargs argc none
  if argc = 0 then some { buf := buf, argv := argv, bg := 1 }
  else do
    let word ← argv.get nargs (argc - 1)
    let p ← word
    let c ← buf.get size p
    if c = 38 then do
      let argv ← argv.put nargs (argc - 1) none
      some { buf := buf, argv := argv, bg := 1 }
    else some { buf := buf, argv := argv, bg := 0 }

/-- `parseline(buf, argv)`, for a buffer of `size` characters and `nargs` pointers. -/
def parseline (size nargs : ℕ) (buf : Cells UInt8) (argv : Argv) : Option ParseRet := do
  let n ← buf.strlen size 0
  -- `buf[strlen(buf)-1]` of an empty string is `buf[-1]`
  if n = 0 then none
  else do
    let buf ← buf.put size (n - 1) 32
    let i ← skipSpaces size buf 0
    let r ← wordLoop size nargs buf argv 0 i
    finishArgv size nargs r.1 r.2.1 r.2.2

/-! ## §2. A turn of the loop. -/

/-- The separator of the words. -/
def isSpace (c : UInt8) : Bool := c == 32

theorem isSpace_iff {c : UInt8} : isSpace c = true ↔ c = 32 := beq_iff_eq

theorem not_isSpace {c : UInt8} (h : isSpace c = false) : c ≠ 32 := beq_eq_false_iff_ne.mp h

theorem skipSpaces_eq {size : ℕ} {buf : Cells UInt8} {i : ℕ} {sp rest : List UInt8}
    (h : buf.IsStr i (sp ++ rest)) (hsp : ∀ c ∈ sp, isSpace c = true)
    (hrest : ∀ c ∈ rest.head?, isSpace c = false) (hsize : i + (sp ++ rest).length < size) :
    skipSpaces size buf i = some (i + sp.length) := by
  rw [List.length_append] at hsize
  apply Cells.scan_load buf sp h.left
  · intro c hc
    rw [isSpace_iff.mp (hsp c hc)]
    decide
  · have hload := h.suffix.load
    cases rest with
    | nil =>
        rw [List.length_nil, Cells.load_succ] at hload
        rw [(List.cons.inj hload).1]
        decide
    | cons c rest =>
        rw [Cells.load_succ] at hload
        have hc := hrest c rfl
        unfold isSpace at hc
        rw [(List.cons.inj hload).1, hc]
        simp
  · omega

/-- The loop ends at the end of the string. -/
theorem wordLoop_done {size nargs : ℕ} {buf : Cells UInt8} (argv : Argv) (argc : ℕ) {i : ℕ}
    (h : buf.IsStr i []) (hsize : i < size) :
    wordLoop size nargs buf argv argc i = some (buf, argv, argc) := by
  have hnone : buf.strchr size i 32 = some none :=
    Cells.strchr_none h List.not_mem_nil (by decide) hsize
  rw [wordLoop]
  split
  next hstr => rw [hstr] at hnone; exact absurd hnone (by simp)
  next => rfl
  next hstr => rw [hstr] at hnone; exact absurd hnone (by simp)

/-- **A turn of the loop**: the next word's pointer is stored and the word is ended; the
word stands where it did, and the rest of the line behind the spaces. -/
theorem wordLoop_turn {size nargs : ℕ} {buf : Cells UInt8} (argv : Argv) (argc : ℕ) {i : ℕ}
    {w sp rest : List UInt8} {c : UInt8} (h : buf.IsStr i (w ++ c :: (sp ++ rest)))
    (hw : ∀ x ∈ w, isSpace x = false) (hc : isSpace c = true) (hsp : ∀ x ∈ sp, isSpace x = true)
    (hrest : ∀ x ∈ rest.head?, isSpace x = false)
    (hsize : i + (w ++ c :: (sp ++ rest)).length < size) :
    wordLoop size nargs buf argv argc i =
        (argv.put nargs argc (some i)).bind (fun argv =>
          wordLoop size nargs (Function.update buf (i + w.length) 0) argv (argc + 1)
            (i + w.length + 1 + sp.length)) ∧
      Cells.IsStr (Function.update buf (i + w.length) 0) i w ∧
      Cells.IsStr (Function.update buf (i + w.length) 0) (i + w.length + 1 + sp.length) rest ∧
      i + w.length + 1 + sp.length + rest.length < size := by
  obtain rfl : c = 32 := isSpace_iff.mp hc
  have hspace : (32 : UInt8) ∉ w := fun hmem => not_isSpace (hw _ hmem) rfl
  obtain ⟨hword, htail⟩ := h.cut
  have hlen : (w ++ 32 :: (sp ++ rest)).length = w.length + 1 + (sp ++ rest).length := by
    rw [List.length_append, List.length_cons]
    omega
  have hend : (sp ++ rest).length = sp.length + rest.length := List.length_append
  refine ⟨?_, hword, htail.suffix, by omega⟩
  have hstr : buf.strchr size i 32 = some (some (i + w.length)) :=
    Cells.strchr_some h hspace hsize
  have hput : buf.put size (i + w.length) 0 = some (Function.update buf (i + w.length) 0) :=
    Cells.put_eq buf 0 (by omega)
  have hskip : skipSpaces size (Function.update buf (i + w.length) 0) (i + w.length + 1) =
      some (i + w.length + 1 + sp.length) :=
    skipSpaces_eq htail hsp hrest (by omega)
  rw [wordLoop]
  split
  next hs => rw [hstr] at hs; exact absurd hs (by simp)
  next hs => rw [hstr] at hs; exact absurd hs (by simp)
  next delim hs =>
    rw [hstr] at hs
    obtain rfl : i + w.length = delim := by simpa using hs
    rw [hput]
    cases hargv : argv.put nargs argc (some i) with
    | none => rfl
    | some argv' =>
        simp only [Option.bind_some]
        split
        next hs' => rw [hskip] at hs'; exact absurd hs' (by simp)
        next j hs' =>
          rw [hskip] at hs'
          obtain rfl : i + w.length + 1 + sp.length = j := by simpa using hs'
          rfl

/-! ## §3. The loop. -/

/-- The pointers from `argv[argc]` on are to the words `ws`, inside the buffer. -/
def WordsAt (size : ℕ) (buf : Cells UInt8) (argv : Argv) (argc : ℕ) (ws : List (List UInt8)) :
    Prop :=
  ∀ k, (hk : k < ws.length) →
    ∃ p, argv (argc + k) = some p ∧ buf.IsStr p ws[k] ∧ p + ws[k].length < size

/-- **The loop takes the words of what is left**, where `argv` has room for them; what
stands before them stays. -/
theorem wordLoop_cut {size nargs : ℕ} {buf : Cells UInt8} (argv : Argv) {argc i : ℕ}
    {rest : List UInt8} {ws : List (List UInt8)} (hcut : Cut isSpace rest ws)
    (h : buf.IsStr i rest) (hsize : i + rest.length < size) (hargs : argc + ws.length ≤ nargs) :
    ∃ buf' argv', wordLoop size nargs buf argv argc i = some (buf', argv', argc + ws.length) ∧
      (∀ x, x < i → buf' x = buf x) ∧ (∀ k, k < argc → argv' k = argv k) ∧
      WordsAt size buf' argv' argc ws := by
  induction hcut generalizing buf argv argc i with
  | done =>
      refine ⟨buf, argv, wordLoop_done argv argc h hsize, fun _ _ => rfl, fun _ _ => rfl, ?_⟩
      intro k hk
      exact absurd hk (Nat.not_lt_zero k)
  | @word w sp rest c ws hne hw hc hsp hrest hcut ih =>
      obtain ⟨hturn, hword, htail, hroom⟩ := wordLoop_turn argv argc h hw hc hsp hrest hsize
      rw [List.length_cons] at hargs
      obtain ⟨buf', argv', hloop, hbuf, hargv, hws⟩ :=
        @ih _ (Function.update argv argc (some i)) (argc + 1) _ htail hroom (by omega)
      refine ⟨buf', argv', ?_, ?_, ?_, ?_⟩
      · rw [hturn, Cells.put_eq argv _ (by omega), Option.bind_some, hloop, List.length_cons,
          show argc + 1 + ws.length = argc + (ws.length + 1) by omega]
      · intro x hx
        rw [hbuf x (by omega), Function.update_of_ne (by omega)]
      · intro k hk
        rw [hargv k (by omega), Function.update_of_ne (by omega)]
      · intro k hk
        cases k with
        | zero =>
            refine ⟨i, ?_, ?_, ?_⟩
            · rw [Nat.add_zero, hargv argc (by omega), Function.update_self]
            · exact hword.congr (fun x _ hx => hbuf x (by omega))
            · show i + w.length < size
              omega
        | succ k =>
            obtain ⟨p, hp, hstr, hlt⟩ := hws k (by simpa using hk)
            refine ⟨p, ?_, hstr, hlt⟩
            rw [← hp]
            congr 1
            omega

/-- Where `argv` has no room for the words, the loop leaves it. -/
theorem wordLoop_overflow {size nargs : ℕ} {buf : Cells UInt8} {argv : Argv} {argc i : ℕ}
    {rest : List UInt8} {ws : List (List UInt8)} (hcut : Cut isSpace rest ws)
    (h : buf.IsStr i rest) (hsize : i + rest.length < size) (hargc : argc ≤ nargs)
    (hargs : nargs < argc + ws.length) : wordLoop size nargs buf argv argc i = none := by
  induction hcut generalizing buf argv argc i with
  | done =>
      rw [List.length_nil] at hargs
      omega
  | @word w sp rest c ws hne hw hc hsp hrest hcut ih =>
      obtain ⟨hturn, _, htail, hroom⟩ := wordLoop_turn argv argc h hw hc hsp hrest hsize
      rw [List.length_cons] at hargs
      rw [hturn]
      by_cases hlt : argc < nargs
      · rw [Cells.put_eq argv _ hlt, Option.bind_some]
        exact ih htail hroom (by omega) (by omega)
      · have hput : argv.put nargs argc (some i) = none := if_neg hlt
        rw [hput]
        rfl

/-! ## §4. What follows the loop. -/

/-- The last word starts with `&`. -/
def background (ws : List (List UInt8)) : Bool :=
  ws.getLast?.any (fun w => w.head? == some 38)

/-- The words that stay in `argv`. -/
def argsOf (ws : List (List UInt8)) : List (List UInt8) :=
  if background ws then ws.dropLast else ws

/-- The value returned: a blank line and a background job give `1`. -/
def bgOf (ws : List (List UInt8)) : ℕ := if ws = [] ∨ background ws then 1 else 0

/-- `argv` holds exactly the strings `args`, each inside the buffer of `size` characters,
and a `NULL` after them. -/
structure Args (size : ℕ) (buf : Cells UInt8) (argv : Argv) (args : List (List UInt8)) :
    Prop where
  words : ∀ k, (hk : k < args.length) →
    ∃ p, argv k = some p ∧ buf.IsStr p args[k] ∧ p + args[k].length < size
  null : argv args.length = none

variable {size nargs : ℕ} {buf : Cells UInt8} {argv : Argv} {ws : List (List UInt8)}

/-- No room for the `NULL`. -/
theorem finishArgv_overflow (h : nargs ≤ ws.length) :
    finishArgv size nargs buf argv ws.length = none := by
  have hput : argv.put nargs ws.length none = none := if_neg (by omega)
  unfold finishArgv
  rw [hput]
  rfl

/-- The `NULL` after the words, and the words as they were. -/
theorem args_put (h : WordsAt size buf argv 0 ws) {n : ℕ} (hn : n ≤ ws.length) :
    Args size buf (Function.update argv n none) (ws.take n) := by
  constructor
  · intro k hk
    rw [List.length_take] at hk
    obtain ⟨p, hp, hword⟩ := h k (by omega)
    rw [Nat.zero_add] at hp
    rw [List.getElem_take]
    exact ⟨p, by rw [Function.update_of_ne (by omega)]; exact hp, hword⟩
  · rw [List.length_take, Nat.min_eq_left hn]
    exact Function.update_self _ _ _

theorem WordsAt.null (h : WordsAt size buf argv 0 ws) :
    WordsAt size buf (Function.update argv ws.length none) 0 ws := by
  intro k hk
  obtain ⟨p, hp, hrest⟩ := h k hk
  refine ⟨p, ?_, hrest⟩
  rw [Function.update_of_ne (by omega)]
  exact hp

/-- The first character of the last word, read through `argv`. -/
theorem last_word (h : WordsAt size buf argv 0 ws) (hne : ws ≠ []) (hws : ∀ w ∈ ws, w ≠ []) :
    ∃ p, argv (ws.length - 1) = some p ∧ p < size ∧
      (buf p = 38 ↔ background ws = true) := by
  have hlen : 0 < ws.length := List.length_pos_of_ne_nil hne
  obtain ⟨p, hp, hstr, hlt⟩ := h (ws.length - 1) (by omega)
  rw [Nat.zero_add] at hp
  refine ⟨p, hp, by omega, ?_⟩
  rw [← List.getLast_eq_getElem hne] at hstr
  cases hlast : ws.getLast hne with
  | nil => exact absurd hlast (hws _ (List.getLast_mem hne))
  | cons c w =>
      rw [hlast] at hstr
      have hload := hstr.load
      rw [Cells.load_succ] at hload
      unfold background
      rw [(List.cons.inj hload).1, List.getLast?_eq_some_getLast hne, hlast]
      simp

/-- **What follows the loop**: the words without the `&`, and the return value. -/
theorem finishArgv_args (h : WordsAt size buf argv 0 ws) (hws : ∀ w ∈ ws, w ≠ [])
    (hargs : ws.length < nargs) :
    ∃ argv', finishArgv size nargs buf argv ws.length =
        some { buf := buf, argv := argv', bg := bgOf ws } ∧ Args size buf argv' (argsOf ws) := by
  have hput : argv.put nargs ws.length none = some (Function.update argv ws.length none) :=
    Cells.put_eq argv none hargs
  have hall : Args size buf (Function.update argv ws.length none) ws := by
    have := args_put h (Nat.le_refl ws.length)
    rwa [List.take_length] at this
  unfold finishArgv
  rw [hput]
  show ∃ argv', (if ws.length = 0 then _ else _) = some _ ∧ _
  by_cases hnil : ws = []
  · subst hnil
    exact ⟨_, rfl, hall⟩
  have hlen : 0 < ws.length := List.length_pos_of_ne_nil hnil
  obtain ⟨p, hp, hlt, hbg⟩ := last_word h.null hnil hws
  have hget : Cells.get (Function.update argv ws.length none) nargs (ws.length - 1) =
      some (some p) := by
    rw [Cells.get_eq _ (by omega), hp]
  have hchar : buf.get size p = some (buf p) := Cells.get_eq buf hlt
  rw [if_neg (by omega), hget]
  show ∃ argv', (buf.get size p).bind _ = some _ ∧ _
  rw [hchar]
  show ∃ argv', (if buf p = 38 then _ else _) = some _ ∧ _
  by_cases hamp : buf p = 38
  · have hback : background ws = true := hbg.mp hamp
    have hput' : Cells.put (Function.update argv ws.length none) nargs (ws.length - 1) none =
        some (Function.update (Function.update argv ws.length none) (ws.length - 1) none) :=
      Cells.put_eq _ none (by omega)
    have hdrop := args_put h.null (Nat.sub_le ws.length 1)
    rw [← List.dropLast_eq_take] at hdrop
    unfold bgOf argsOf
    rw [if_pos hamp, hput', if_pos (Or.inr hback), if_pos hback]
    exact ⟨_, rfl, hdrop⟩
  · have hback : ¬ background ws = true := fun hb => hamp (hbg.mpr hb)
    unfold bgOf argsOf
    rw [if_neg hamp, if_neg (by simp [hnil, hback]), if_neg hback]
    exact ⟨_, rfl, hall⟩

/-! ## §5. The whole function. -/

/-- **`parseline` up to its loop**: the line without its last character, and the word
loop on the fields of that. -/
theorem parseline_loop {s : List UInt8} (h : buf.IsStr 0 s) (hne : s ≠ []) (hsize : s.length < size)
    (nargs : ℕ) (argv : Argv) :
    ∃ buf' i rest, Cut isSpace rest (fields isSpace s.dropLast) ∧ buf'.IsStr i rest ∧
      i + rest.length < size ∧
      parseline size nargs buf argv = (wordLoop size nargs buf' argv 0 i).bind
        (fun r => finishArgv size nargs r.1 r.2.1 r.2.2) := by
  have hlen : buf.strlen size 0 = some s.length := Cells.strlen_eq h (by omega)
  have hpos : 0 < s.length := List.length_pos_of_ne_nil hne
  have hput : buf.put size (s.length - 1) 32 =
      some (Function.update buf (s.length - 1) 32) := Cells.put_eq buf 32 (by omega)
  obtain ⟨sp, rest, hsplit, hsp, hrest, hcut⟩ :=
    cut_append_singleton s.dropLast (show isSpace 32 = true by rfl)
  -- the string with a space for its last character
  have hstr : Cells.IsStr (Function.update buf (s.length - 1) 32) 0 (sp ++ rest) := by
    rw [← List.dropLast_append_getLast hne] at h
    have hset := h.setLast (c := 32) (by decide)
    rw [Nat.zero_add, List.length_dropLast, hsplit] at hset
    exact hset
  have hlenline : (sp ++ rest).length = s.length := by
    rw [← hsplit, List.length_append, List.length_dropLast, List.length_singleton]
    omega
  have hskip : skipSpaces size (Function.update buf (s.length - 1) 32) 0 = some (0 + sp.length) :=
    skipSpaces_eq hstr hsp hrest (by omega)
  refine ⟨_, 0 + sp.length, rest, hcut, hstr.suffix, ?_, ?_⟩
  · rw [List.length_append] at hlenline
    omega
  · unfold parseline
    rw [hlen]
    show (if s.length = 0 then none else (buf.put size (s.length - 1) 32).bind _) = _
    rw [if_neg (by omega), hput]
    show (skipSpaces size (Function.update buf (s.length - 1) 32) 0).bind _ = _
    rw [hskip]
    rfl

/-- **`parseline` on a string that is not empty**: the fields of the string without its
last character. -/
theorem parseline_fields {s : List UInt8} (h : buf.IsStr 0 s) (hne : s ≠ [])
    (hsize : s.length < size) (argv : Argv)
    (hargs : (fields isSpace s.dropLast).length < nargs) :
    ∃ r, parseline size nargs buf argv = some r ∧ r.bg = bgOf (fields isSpace s.dropLast) ∧
      Args size r.buf r.argv (argsOf (fields isSpace s.dropLast)) := by
  obtain ⟨buf₁, i, rest, hcut, hstr, hlt, hparse⟩ := parseline_loop h hne hsize nargs argv
  obtain ⟨buf', argv', hloop, _, _, hws⟩ := wordLoop_cut argv hcut hstr hlt
    (show 0 + _ ≤ nargs by omega)
  obtain ⟨argv'', hfin, hres⟩ := finishArgv_args hws (fun w hw => (mem_fields hw).1) hargs
  rw [hparse, hloop, Nat.zero_add]
  exact ⟨_, hfin, rfl, hres⟩

/-- An empty string. -/
theorem parseline_empty (h : buf.IsStr 0 []) (hsize : 0 < size) (argv : Argv) :
    parseline size nargs buf argv = none := by
  have hlen : buf.strlen size 0 = some 0 := Cells.strlen_eq h hsize
  unfold parseline
  rw [hlen]
  rfl

/-- No room for the words and the `NULL`. -/
theorem parseline_overflow {s : List UInt8} (h : buf.IsStr 0 s) (hne : s ≠ [])
    (hsize : s.length < size) (argv : Argv)
    (hargs : nargs ≤ (fields isSpace s.dropLast).length) :
    parseline size nargs buf argv = none := by
  obtain ⟨buf₁, i, rest, hcut, hstr, hlt, hparse⟩ := parseline_loop h hne hsize nargs argv
  rw [hparse]
  by_cases hfull : nargs = (fields isSpace s.dropLast).length
  · obtain ⟨buf', argv', hloop, _⟩ := wordLoop_cut argv hcut hstr hlt
      (show 0 + _ ≤ nargs by omega)
    rw [hloop, Nat.zero_add]
    exact finishArgv_overflow hargs
  · rw [wordLoop_overflow hcut hstr hlt (Nat.zero_le nargs) (by omega)]
    rfl

/-- **`parseline` on a command line**: `argv` gets the words of the line without its
newline, except a last word that starts with `&`; the result is `1` for a blank line and
for a background job, else `0`.  The words joined by single spaces give the same. -/
theorem parseline_words (l : List UInt8) (size : ℕ) (buf : Cells UInt8) (argv : Argv)
    (h : buf.IsStr 0 (l ++ [10])) (hsize : l.length + 1 < size)
    (hargs : (fields isSpace l).length ≤ MAXARGS - 1) :
    (∃ r, parseline size MAXARGS buf argv = some r ∧ r.bg = bgOf (fields isSpace l) ∧
      Args size r.buf r.argv (argsOf (fields isSpace l))) ∧
    ∀ (buf' : Cells UInt8) (argv' : Argv),
      buf'.IsStr 0 (List.intercalate [32] (fields isSpace l) ++ [10]) →
      ∃ r, parseline size MAXARGS buf' argv' = some r ∧ r.bg = bgOf (fields isSpace l) ∧
        Args size r.buf r.argv (argsOf (fields isSpace l)) := by
  have hlt : (fields isSpace l).length < MAXARGS := by
    unfold MAXARGS at hargs ⊢
    omega
  -- every line with these fields, whatever the spaces
  have hline : ∀ (l' : List UInt8) (buf : Cells UInt8) (argv : Argv), buf.IsStr 0 (l' ++ [10]) →
      l'.length ≤ l.length → fields isSpace l' = fields isSpace l →
      ∃ r, parseline size MAXARGS buf argv = some r ∧ r.bg = bgOf (fields isSpace l) ∧
        Args size r.buf r.argv (argsOf (fields isSpace l)) := by
    intro l' buf argv hstr hlen hfields
    have hdrop : (l' ++ [10]).dropLast = l' := List.dropLast_concat
    have hres := parseline_fields hstr (by simp)
      (show (l' ++ [10]).length < size by
        rw [List.length_append, List.length_singleton]
        omega) argv (by rw [hdrop, hfields]; exact hlt)
    rwa [hdrop, hfields] at hres
  constructor
  · exact hline l buf argv h (Nat.le_refl _) rfl
  · intro buf' argv' hjoin
    apply hline _ buf' argv' hjoin (length_join_fields_le 32 l)
    exact fields_join (by rfl) (fun w hw => mem_fields hw)

/-- `ls -a &`: two words stay, and the job runs in the background. -/
theorem parseline_words_ls :
    ∃ r, parseline 16 MAXARGS
        (Cells.store (fun _ => 0) 0 [108, 115, 32, 32, 45, 97, 32, 38, 10, 0]) (fun _ => none) =
          some r ∧ r.bg = 1 ∧ Args 16 r.buf r.argv [[108, 115], [45, 97]] :=
  (parseline_words [108, 115, 32, 32, 45, 97, 32, 38] 16 _ _ ⟨rfl, by decide⟩ (by decide)
    (by decide)).1

end ComputerScience.Shell
