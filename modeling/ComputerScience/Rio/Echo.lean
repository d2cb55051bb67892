/-
  ComputerScience.Rio.Echo
  ────────────────────────
  **THE ECHO LOOP** (`22-netprog2/echo.c`).

  `echo` reads a line, writes it back, and stops when the client closes.  The
  count `rio_readlineb` returns is the number of stream bytes it stored, on each of its
  exits, so the lines written back add up to the stream.
-/
import ComputerScience.Rio.LineCopy

namespace ComputerScience.Rio

open ComputerScience.Lib

/-- `rio_readlineb` of `22-netprog2` with `MAXLINE`. -/
def netprogReader : LineReader where
  run rp os buf := rioReadlineb rp os buf MAXLINE
  progress rp os buf := rioReadlineb_count rp os buf MAXLINE

/-- `echo(connfd)`: `rio` and `buf` are uninitialised locals; both directions of the
connection are `os`. -/
def echo (os : Os) (rio : RioT) (buf : Cells UInt8) : Outcome :=
  copyLoop netprogReader (rioReadinitb rio) os buf

/-- A round takes a line and writes that line. -/
theorem netprogReader_reads :
    netprogReader.Reads (takeLine (MAXLINE - 1)) (takeLine (MAXLINE - 1)) where
  served rp os buf hinv hok := (rioReadlineb_spec buf (by decide) hinv hok).1
  eof rp os buf hinv hok hs := by
    show (rioReadlineb rp os buf MAXLINE).rc = 0
    rw [(rioReadlineb_spec buf (by decide) hinv hok).2.1, hs]
    rfl
  data rp os buf hinv hok hs := by
    obtain ⟨_, hrc, hbuf⟩ := rioReadlineb_spec buf (show 2 ≤ MAXLINE by decide) hinv hok
    refine ⟨takeLine_ne_nil (by decide) hs, hrc, ?_⟩
    show (rioReadlineb rp os buf MAXLINE).buf.load 0 _ = _
    rw [hbuf, if_neg hs]
    exact load_store_append _ _ _

/-- Writing each line in its own place writes the stream. -/
theorem rounds_same {line : List UInt8 → List UInt8} {s written : List UInt8}
    (h : Rounds line line s written) : written = s := by
  induction h with
  | done => rfl
  | round hs hline _ ih => rw [ih, ← hline]

/-- **`echo` writes back exactly the bytes it received**, for every chunking, every
sequence of short writes and every placement of `EINTR`. -/
theorem echo_writes_stream (os : Os) (rio : RioT) (buf : Cells UInt8)
    (hreads : os.ReadsOk) (hwrites : os.WritesOk) :
    ∃ os', echo os rio buf = .returned os' ∧ os'.written = os.written ++ os.stream := by
  obtain ⟨os', written, hret, hout, hrounds⟩ := copyLoop_spec netprogReader_reads
    (rioReadinitb rio) os buf (rioReadinitb_inv rio) hreads hwrites
  rw [rounds_same hrounds] at hout
  exact ⟨os', hret, hout⟩

/-- `"a\0\nb"`, cut after the NUL, written back one byte at a time at first. -/
def nulOs : Os :=
  ⟨[97, 0, 10, 98], [.data 1, .eintr], [], [.accept 1, .eintr, .accept 1], .none⟩

theorem echo_nulOs :
    nulOs.ReadsOk ∧ nulOs.WritesOk ∧
    ∃ os', echo nulOs ⟨0, 0, fun _ => 0⟩ (fun _ => 0) = .returned os' ∧
      os'.written = [97, 0, 10, 98] :=
  ⟨by unfold Os.ReadsOk; decide, by unfold Os.WritesOk; decide,
    echo_writes_stream nulOs _ _ (by unfold Os.ReadsOk; decide) (by unfold Os.WritesOk; decide)⟩

end ComputerScience.Rio
