/-
  ComputerScience.Netprog.EchoSession
  ───────────────────────────────────
  **AN ECHO CLIENT AND ITS SERVER** (`22-netprog2/echoclient.c`, `echo.c`).

  The client sends a line of its standard input and waits for a line from the server; the
  server waits for a line and sends it back.  Each direction of the connection is a queue of
  bytes in the kernel with room for `capacity` of them.  A `write` takes some of the bytes it
  is given while there is room, a `read` some of the bytes that are there, and `rio_readlineb`
  takes one byte at a time out of its own buffer, until a newline or `MAXLINE - 1` bytes.
  System calls that fail are left out: `EINTR` leads to another try, another error ends the
  process.

  The client sends `strlen(buf)` bytes.  So what it sends is a line for the server only if
  it ends in a newline or fills the buffer; if not, both sides wait for the other.

  Main results:
    • `SessionInv.step` — where the bytes of the current line are,
    • `echo_session` — the client prints its input, or the session stops at its first
      piece that is no line for the server.
-/
import ComputerScience.Lib.CString
import ComputerScience.Lib.TransitionSystem
import ComputerScience.Tiny.Headers
import Mathlib.Data.List.TakeWhile

namespace ComputerScience.Netprog

open ComputerScience.Lib
open ComputerScience.Rio (LineDone MAXLINE RIO_BUFSIZE takeLine)
open ComputerScience.Tiny (pieces)

/-! ## §1. The two programs. -/

/-- One direction of the connection. -/
structure Link where
  /-- written and not yet read, in the kernel -/
  flight : List UInt8
  /-- unread bytes of the receiver's `rio_buf` -/
  buffered : List UInt8

inductive ClientPc where
  /-- before `Fgets` -/
  | fgets
  /-- in `Rio_writen`; `buf` is the string in the buffer, `rest` is not written yet -/
  | write (buf rest : List UInt8)
  /-- in `Rio_readlineb`; `got` was stored so far -/
  | read (buf got : List UInt8)
  /-- before `Fputs` -/
  | puts (buf : List UInt8)
  /-- behind `Close` -/
  | closed
  deriving DecidableEq, Repr

inductive ServerPc where
  | read (got : List UInt8)
  | write (rest : List UInt8)
  /-- `echo` has returned, the connection is closed -/
  | closed
  deriving DecidableEq, Repr

structure Session where
  client : ClientPc
  server : ServerPc
  /-- from the client to the server -/
  up : Link
  /-- from the server to the client -/
  down : Link
  stdin : List UInt8
  /-- What `Fputs` was given; some of it may still be in the buffer of `stdout`. -/
  stdout : List UInt8

/-- A `write` of `k` bytes. -/
def Link.send (l : Link) (bytes : List UInt8) : Link := { l with flight := l.flight ++ bytes }

/-- A `read` of `k` bytes into an empty `rio_buf`. -/
def Link.fill (l : Link) (k : ℕ) : Link := ⟨l.flight.drop k, l.flight.take k⟩

/-- One step of the client or of the server. -/
inductive SessionStep (capacity : ℕ) (s : Session) : Session → Prop where
  | fgets (h : s.client = .fgets) (hne : s.stdin ≠ []) :
      SessionStep capacity s { s with
        client := .write (Cells.cstr (takeLine (MAXLINE - 1) s.stdin))
          (Cells.cstr (takeLine (MAXLINE - 1) s.stdin))
        stdin := s.stdin.drop (takeLine (MAXLINE - 1) s.stdin).length }
  /-- `Fgets` returns `NULL`, the client closes and exits. -/
  | fgetsEof (h : s.client = .fgets) (hnil : s.stdin = []) :
      SessionStep capacity s { s with client := .closed }
  | clientWrite (buf rest : List UInt8) (k : ℕ) (h : s.client = .write buf rest) (hk : 0 < k)
      (hlen : k ≤ rest.length) (hroom : s.up.flight.length + k ≤ capacity) :
      SessionStep capacity s { s with
        client := .write buf (rest.drop k), up := s.up.send (rest.take k) }
  | clientWritten (buf : List UInt8) (h : s.client = .write buf []) :
      SessionStep capacity s { s with client := .read buf [] }
  | clientFill (buf got : List UInt8) (k : ℕ) (h : s.client = .read buf got)
      (hempty : s.down.buffered = []) (hk : 0 < k) (hk' : k ≤ RIO_BUFSIZE)
      (hlen : k ≤ s.down.flight.length) :
      SessionStep capacity s { s with down := s.down.fill k }
  | clientByte (buf got : List UInt8) (c : UInt8) (cs : List UInt8)
      (h : s.client = .read buf got) (hbuf : s.down.buffered = c :: cs) :
      SessionStep capacity s { s with
        client := if LineDone (got ++ [c]) then .puts (Cells.cstr (got ++ [c]))
          else .read buf (got ++ [c])
        down := { s.down with buffered := cs } }
  /-- `rio_readlineb` stores nothing when it returns 0. -/
  | clientEof (buf got : List UInt8) (h : s.client = .read buf got) (heof : s.server = .closed)
      (hempty : s.down.buffered = []) (hflight : s.down.flight = []) :
      SessionStep capacity s { s with
        client := .puts (if got = [] then buf else Cells.cstr got) }
  | puts (buf : List UInt8) (h : s.client = .puts buf) :
      SessionStep capacity s { s with client := .fgets, stdout := s.stdout ++ buf }
  -- the server
  | serverFill (got : List UInt8) (k : ℕ) (h : s.server = .read got)
      (hempty : s.up.buffered = []) (hk : 0 < k) (hk' : k ≤ RIO_BUFSIZE)
      (hlen : k ≤ s.up.flight.length) :
      SessionStep capacity s { s with up := s.up.fill k }
  | serverByte (got : List UInt8) (c : UInt8) (cs : List UInt8) (h : s.server = .read got)
      (hbuf : s.up.buffered = c :: cs) :
      SessionStep capacity s { s with
        server := if LineDone (got ++ [c]) then .write (got ++ [c]) else .read (got ++ [c])
        up := { s.up with buffered := cs } }
  | serverEof (got : List UInt8) (h : s.server = .read got) (heof : s.client = .closed)
      (hempty : s.up.buffered = []) (hflight : s.up.flight = []) :
      SessionStep capacity s { s with server := if got = [] then .closed else .write got }
  | serverWrite (rest : List UInt8) (k : ℕ) (h : s.server = .write rest) (hk : 0 < k)
      (hlen : k ≤ rest.length) (hroom : s.down.flight.length + k ≤ capacity) :
      SessionStep capacity s { s with
        server := .write (rest.drop k), down := s.down.send (rest.take k) }
  | serverWritten (h : s.server = .write []) :
      SessionStep capacity s { s with server := .read [] }

/-- A new connection. -/
def Session.start (input : List UInt8) : Session :=
  ⟨.fgets, .read [], ⟨[], []⟩, ⟨[], []⟩, input, []⟩

/-- The client with `input` on its standard input, connected to a server. -/
def echoSession (capacity : ℕ) (input : List UInt8) : System Session where
  init s := s = .start input
  step := SessionStep capacity

/-! ## §2. Every run stops. -/

def ClientPc.rank : ClientPc → ℕ
  | .fgets => 1
  | .write _ rest => 9 * rest.length + 4
  | .read _ _ => 3
  | .puts _ => 2
  | .closed => 0

def ServerPc.rank : ServerPc → ℕ
  | .read got => 6 * got.length + 1
  | .write rest => 4 * rest.length + 2
  | .closed => 0

/-- A bound on the steps that are left. -/
def Session.left (s : Session) : ℕ :=
  s.client.rank + s.server.rank + 13 * s.stdin.length + 8 * s.up.flight.length +
    7 * s.up.buffered.length + 3 * s.down.flight.length + 2 * s.down.buffered.length

section Runs

variable {capacity : ℕ} {s s' : Session}

theorem SessionStep.left_lt (h : SessionStep capacity s s') : s'.left < s.left := by
  cases h with
  | fgets h hne =>
      have hpos := List.length_pos_of_ne_nil
        (Rio.takeLine_ne_nil (k := MAXLINE - 1) (by decide) hne)
      have hle := (Rio.takeLine_isHead (MAXLINE - 1) s.stdin).length_le
      have hstr := Cells.cstr_length_le (takeLine (MAXLINE - 1) s.stdin)
      simp only [Session.left, h, ClientPc.rank, List.length_drop]
      omega
  | fgetsEof h hnil =>
      simp only [Session.left, h, ClientPc.rank]
      omega
  | clientWrite buf rest k h hk hlen hroom =>
      simp only [Session.left, h, ClientPc.rank, Link.send, List.length_append, List.length_take,
        List.length_drop]
      omega
  | clientWritten buf h =>
      simp only [Session.left, h, ClientPc.rank, List.length_nil]
      omega
  | clientFill buf got k h hempty hk hk' hlen =>
      simp only [Session.left, Link.fill, hempty, List.length_take, List.length_drop,
        List.length_nil]
      omega
  | clientByte buf got c cs h hbuf =>
      have hclient : s.client.rank = 3 := by rw [h]; rfl
      have hrank : (if LineDone (got ++ [c]) then ClientPc.puts (Cells.cstr (got ++ [c]))
          else .read buf (got ++ [c])).rank ≤ 3 := by
        split <;> simp [ClientPc.rank]
      simp only [Session.left, hclient, hbuf, List.length_cons]
      omega
  | clientEof buf got h heof hempty hflight =>
      simp only [Session.left, h, ClientPc.rank]
      omega
  | puts buf h =>
      simp only [Session.left, h, ClientPc.rank]
      omega
  | serverFill got k h hempty hk hk' hlen =>
      simp only [Session.left, Link.fill, hempty, List.length_take, List.length_drop,
        List.length_nil]
      omega
  | serverByte got c cs h hbuf =>
      have hserver : s.server.rank = 6 * got.length + 1 := by rw [h]; rfl
      have hrank : (if LineDone (got ++ [c]) then ServerPc.write (got ++ [c])
          else .read (got ++ [c])).rank ≤ 6 * got.length + 7 := by
        split
        · simp only [ServerPc.rank, List.length_append, List.length_singleton]
          omega
        · simp only [ServerPc.rank, List.length_append, List.length_singleton]
          omega
      simp only [Session.left, hserver, hbuf, List.length_cons]
      omega
  | serverEof got h heof hempty hflight =>
      have hserver : s.server.rank = 6 * got.length + 1 := by rw [h]; rfl
      have hrank : (if got = [] then ServerPc.closed else .write got).rank < 6 * got.length + 1 := by
        split
        next hnil => simp [ServerPc.rank, hnil]
        next hne =>
          have := List.length_pos_of_ne_nil hne
          simp only [ServerPc.rank]
          omega
      simp only [Session.left, hserver]
      omega
  | serverWrite rest k h hk hlen hroom =>
      simp only [Session.left, h, ServerPc.rank, Link.send, List.length_append, List.length_take,
        List.length_drop]
      omega
  | serverWritten h =>
      simp only [Session.left, h, ServerPc.rank, List.length_nil]
      omega

end Runs

/-! ## §3. Lines. -/

/-- What one call of `Fgets` can leave in the buffer: a newline is its last byte. -/
structure LineOk (line : List UInt8) : Prop where
  newline : (10 : UInt8) ∉ line.dropLast
  fits : line.length ≤ MAXLINE - 1

theorem not_lineDone_nil : ¬ LineDone [] := by
  rintro (h | h)
  · exact nomatch h
  · exact absurd h (by decide)

/-- A proper head of a line is no line. -/
theorem LineOk.eq_of_done {got line : List UInt8} (hok : LineOk line) (hp : got <+: line)
    (h : LineDone got) : got = line := by
  obtain ⟨rest, rfl⟩ := hp
  rcases List.eq_nil_or_concat rest with rfl | ⟨rest, c, rfl⟩
  · exact (List.append_nil got).symm
  · exfalso
    have hlen := hok.fits
    have hnl := hok.newline
    rw [List.concat_eq_append, ← List.append_assoc] at hlen hnl
    rw [List.dropLast_concat, List.mem_append, not_or] at hnl
    rcases h with h | h
    · exact hnl.1 (List.mem_of_getLast? h)
    · simp only [List.length_append, List.length_singleton, h] at hlen
      omega

theorem LineOk.of_head {got line : List UInt8} (hok : LineOk line) (hp : got <+: line) :
    LineOk got := by
  refine ⟨fun h => ?_, hp.length_le.trans hok.fits⟩
  obtain ⟨rest, rfl⟩ := hp
  by_cases hrest : rest = []
  · subst hrest
    rw [List.append_nil] at hok
    exact hok.newline h
  · have hnl := hok.newline
    rw [List.dropLast_append_of_ne_nil hrest, List.mem_append, not_or] at hnl
    exact hnl.1 (List.dropLast_subset got h)

theorem lineOk_takeLine (s : List UInt8) : LineOk (takeLine (MAXLINE - 1) s) :=
  ⟨Rio.not_mem_dropLast_takeLine _ s, Rio.takeLine_length_le _ s⟩

theorem cstr_isHead (bytes : List UInt8) : Cells.cstr bytes <+: bytes := List.takeWhile_prefix _

/-- What the client sends for a line is a line for the server: then it is the line itself. -/
def Answered (line : List UInt8) : Prop := LineDone (Cells.cstr line)

instance (line : List UInt8) : Decidable (Answered line) := by
  unfold Answered
  infer_instance

theorem Answered.cstr_eq {line : List UInt8} (h : Answered line) (hok : LineOk line) :
    Cells.cstr line = line :=
  hok.eq_of_done (cstr_isHead line) h

theorem cstr_cstr (bytes : List UInt8) : Cells.cstr (Cells.cstr bytes) = Cells.cstr bytes :=
  List.takeWhile_idem

/-! ## §4. Where the bytes of the current line are. -/

/-- The server waits for a line, or is about to. -/
def Session.Ready (s : Session) (got : List UInt8) : Prop :=
  s.server = .read got ∨ (s.server = .write [] ∧ got = [])

/-- No byte is under way. -/
def Session.Quiet (s : Session) : Prop :=
  s.up = ⟨[], []⟩ ∧ s.down = ⟨[], []⟩

/-- The string `buf` is on its way to the server, `rest` not yet written. -/
def Session.Sending (s : Session) (buf rest : List UInt8) : Prop :=
  s.down = ⟨[], []⟩ ∧ ∃ got, s.Ready got ∧ ¬ LineDone got ∧
    got ++ (s.up.buffered ++ (s.up.flight ++ rest)) = buf

/-- The line `buf` is on its way back, `got` was read. -/
def Session.Answering (s : Session) (buf got : List UInt8) : Prop :=
  LineDone buf ∧ s.up = ⟨[], []⟩ ∧ ¬ LineDone got ∧
    ∃ rest, (s.server = .write rest ∨ (s.server = .read [] ∧ rest = [])) ∧
      got ++ (s.down.buffered ++ (s.down.flight ++ rest)) = buf

/-- The string in the client's buffer is that of the last line it read. -/
def Session.Current (s : Session) (todo : List (List UInt8)) (buf : List UInt8) : Prop :=
  ∃ line, todo = line :: pieces s.stdin ∧ LineOk line ∧ buf = Cells.cstr line

/-- What holds where the client is, when the pieces `todo` of its input are not printed. -/
def Session.At (s : Session) (todo : List (List UInt8)) : Prop :=
  match s.client with
  | .fgets => todo = pieces s.stdin ∧ s.Quiet ∧ s.Ready []
  | .write buf rest => s.Current todo buf ∧
      (s.Sending buf rest ∨ (rest = [] ∧ s.Answering buf []))
  | .read buf got => s.Current todo buf ∧
      ((got = [] ∧ s.Sending buf []) ∨ s.Answering buf got)
  | .puts buf => s.Current todo buf ∧ LineDone buf ∧ s.Quiet ∧ s.Ready []
  | .closed => todo = [] ∧ s.Quiet ∧ (s.Ready [] ∨ s.server = .closed)

/-- The pieces that were answered are printed. -/
def SessionInv (input : List UInt8) (s : Session) : Prop :=
  ∃ done todo, pieces input = done ++ todo ∧ (∀ p ∈ done, Answered p) ∧
    s.stdout = done.flatten ∧ s.At todo

section Steps

variable {capacity : ℕ} {s s' : Session} {todo : List (List UInt8)}

theorem Session.Current.lineOk {buf : List UInt8} (h : s.Current todo buf) : LineOk buf := by
  obtain ⟨line, -, hok, rfl⟩ := h
  exact hok.of_head (cstr_isHead line)

theorem Session.At.fgets (hs : s.At todo) (h : s.client = .fgets) (hne : s.stdin ≠ []) :
    Session.At { s with
      client := .write (Cells.cstr (takeLine (MAXLINE - 1) s.stdin))
        (Cells.cstr (takeLine (MAXLINE - 1) s.stdin))
      stdin := s.stdin.drop (takeLine (MAXLINE - 1) s.stdin).length } todo := by
  simp only [Session.At, h] at hs
  obtain ⟨htodo, ⟨hup, hdown⟩, hready⟩ := hs
  refine ⟨⟨_, ?_, lineOk_takeLine s.stdin, rfl⟩, Or.inl ⟨hdown, [], hready, not_lineDone_nil, ?_⟩⟩
  · rw [htodo, pieces, if_neg hne]
  · simp only [hup, List.nil_append]

theorem Session.At.clientWrite (hs : s.At todo) {buf rest : List UInt8} {k : ℕ}
    (h : s.client = .write buf rest) (hk : 0 < k) (hlen : k ≤ rest.length) :
    Session.At { s with
      client := .write buf (rest.drop k), up := s.up.send (rest.take k) } todo := by
  simp only [Session.At, h] at hs
  obtain ⟨hcur, ⟨hdown, got, hready, hgot, heq⟩ | ⟨rfl, -⟩⟩ := hs
  · refine ⟨hcur, Or.inl ⟨hdown, got, hready, hgot, ?_⟩⟩
    simp only [Link.send, List.append_assoc, List.take_append_drop]
    exact heq
  · rw [List.length_nil] at hlen
    omega

theorem Session.At.clientWritten (hs : s.At todo) {buf : List UInt8}
    (h : s.client = .write buf []) : Session.At { s with client := .read buf [] } todo := by
  simp only [Session.At, h] at hs
  exact ⟨hs.1, hs.2.imp (fun hsend => ⟨rfl, hsend⟩) And.right⟩

theorem Session.At.clientFill (hs : s.At todo) {buf got : List UInt8} {k : ℕ}
    (h : s.client = .read buf got) (hempty : s.down.buffered = []) (hk : 0 < k)
    (hlen : k ≤ s.down.flight.length) : Session.At { s with down := s.down.fill k } todo := by
  simp only [Session.At, h] at hs ⊢
  obtain ⟨hcur, ⟨-, hdown, -⟩ | ⟨hdone, hup, hgot, rest, hserver, heq⟩⟩ := hs
  · rw [hdown, List.length_nil] at hlen
    omega
  · refine ⟨hcur, Or.inr ⟨hdone, hup, hgot, rest, hserver, ?_⟩⟩
    rw [hempty, List.nil_append] at heq
    simp only [Link.fill]
    rw [← List.append_assoc (s.down.flight.take k), List.take_append_drop]
    exact heq

theorem Session.At.clientByte (hs : s.At todo) {buf got : List UInt8} {c : UInt8}
    {cs : List UInt8} (h : s.client = .read buf got) (hbuf : s.down.buffered = c :: cs) :
    Session.At { s with
      client := if LineDone (got ++ [c]) then .puts (Cells.cstr (got ++ [c]))
        else .read buf (got ++ [c])
      down := { s.down with buffered := cs } } todo := by
  simp only [Session.At, h] at hs
  obtain ⟨hcur, ⟨-, hdown, -⟩ | ⟨hdone, hup, hgot, rest, hserver, heq⟩⟩ := hs
  · rw [hdown] at hbuf
    exact nomatch hbuf
  · rw [hbuf, List.cons_append, ← List.singleton_append, ← List.append_assoc] at heq
    by_cases hline : LineDone (got ++ [c])
    · -- the line is complete, so that nothing is left on its way
      have hall := hcur.lineOk.eq_of_done ⟨_, heq⟩ hline
      have hrest : cs ++ (s.down.flight ++ rest) = [] := by
        rw [hall] at heq
        exact List.append_cancel_left (heq.trans (List.append_nil _).symm)
      obtain ⟨rfl, hflight, rfl⟩ : cs = [] ∧ s.down.flight = [] ∧ rest = [] := by
        simpa using hrest
      obtain ⟨line, htodo, hok, rfl⟩ := hcur
      simp only [Session.At, if_pos hline]
      refine ⟨⟨line, htodo, hok, ?_⟩, ?_, ⟨hup, ?_⟩, ?_⟩
      · rw [hall, cstr_cstr]
      · rw [hall, cstr_cstr]
        exact hdone
      · rw [hflight]
      · exact hserver.symm.imp And.left fun hw => ⟨hw, rfl⟩
    · simp only [Session.At, if_neg hline]
      exact ⟨hcur, Or.inr ⟨hdone, hup, hline, rest, hserver, heq⟩⟩

theorem Session.At.clientEof (hs : s.At todo) {buf got : List UInt8}
    (h : s.client = .read buf got) (heof : s.server = .closed) : False := by
  simp only [Session.At, h] at hs
  obtain ⟨-, ⟨-, -, got, hready, -⟩ | ⟨-, -, -, rest, hserver, -⟩⟩ := hs
  · rcases hready with h | ⟨h, -⟩ <;> exact nomatch heof.symm.trans h
  · rcases hserver with h | ⟨h, -⟩ <;> exact nomatch heof.symm.trans h

/-- **A step of the server** while the connection is open. -/
theorem Session.At.server (hs : s.At todo) {server : ServerPc} {up down : Link}
    (hidle : s.Quiet → s.Ready [] →
      Session.Quiet { s with server, up, down } ∧ Session.Ready { s with server, up, down } [])
    (hsend : ∀ buf rest, LineOk buf → s.Sending buf rest →
      Session.Sending { s with server, up, down } buf rest ∨
        (rest = [] ∧ Session.Answering { s with server, up, down } buf []))
    (hanswer : ∀ buf got, s.Answering buf got →
      Session.Answering { s with server, up, down } buf got)
    (hopen : s.server ≠ .closed) : Session.At { s with server, up, down } todo := by
  cases h : s.client with
  | fgets =>
      simp only [Session.At, h] at hs ⊢
      exact ⟨hs.1, hidle hs.2.1 hs.2.2⟩
  | write buf rest =>
      simp only [Session.At, h] at hs ⊢
      refine ⟨hs.1, ?_⟩
      rcases hs.2 with hs' | ⟨hnil, hs'⟩
      · have hok : LineOk buf := hs.1.lineOk
        simpa only [h] using hsend buf rest hok hs'
      · exact Or.inr ⟨hnil, by simpa only [h] using hanswer buf [] hs'⟩
  | read buf got =>
      simp only [Session.At, h] at hs ⊢
      refine ⟨hs.1, ?_⟩
      rcases hs.2 with ⟨rfl, hs'⟩ | hs'
      · have hok : LineOk buf := hs.1.lineOk
        rcases hsend buf [] hok hs' with h' | ⟨-, h'⟩
        · exact Or.inl ⟨rfl, h'⟩
        · exact Or.inr h'
      · exact Or.inr (hanswer buf got hs')
  | puts buf =>
      simp only [Session.At, h] at hs ⊢
      exact ⟨hs.1, hs.2.1, hidle hs.2.2.1 hs.2.2.2⟩
  | closed =>
      simp only [Session.At, h] at hs ⊢
      obtain ⟨hquiet, hready⟩ := hidle hs.2.1 (hs.2.2.resolve_right hopen)
      exact ⟨hs.1, hquiet, Or.inl hready⟩

theorem Session.At.serverFill (hs : s.At todo) {got : List UInt8} {k : ℕ}
    (h : s.server = .read got) (hempty : s.up.buffered = []) (hk : 0 < k)
    (hlen : k ≤ s.up.flight.length) : Session.At { s with up := s.up.fill k } todo := by
  have hup : s.up ≠ ⟨[], []⟩ := by
    intro hnil
    rw [hnil, List.length_nil] at hlen
    omega
  refine hs.server (fun hquiet => absurd hquiet.1 hup) ?_
    (fun buf got hanswer => absurd hanswer.2.1 hup) (by rw [h]; exact nofun)
  rintro buf rest hok ⟨hdown, got', hready, hgot, heq⟩
  refine Or.inl ⟨hdown, got', hready, hgot, ?_⟩
  rw [hempty, List.nil_append] at heq
  simp only [Link.fill]
  rw [← List.append_assoc (s.up.flight.take k), List.take_append_drop]
  exact heq

theorem Session.At.serverByte (hs : s.At todo) {got : List UInt8} {c : UInt8}
    {cs : List UInt8} (h : s.server = .read got) (hbuf : s.up.buffered = c :: cs) :
    Session.At { s with
      server := if LineDone (got ++ [c]) then .write (got ++ [c]) else .read (got ++ [c])
      up := { s.up with buffered := cs } } todo := by
  have hup : s.up ≠ ⟨[], []⟩ := by
    intro hnil
    rw [hnil] at hbuf
    exact nomatch hbuf
  refine hs.server (fun hquiet => absurd hquiet.1 hup) ?_
    (fun buf got hanswer => absurd hanswer.2.1 hup) (by rw [h]; exact nofun)
  rintro buf rest hok ⟨hdown, got', hready, hgot, heq⟩
  obtain rfl : got' = got := by
    rcases hready with hr | ⟨hw, -⟩
    · exact ServerPc.read.inj (hr.symm.trans h)
    · exact nomatch h.symm.trans hw
  rw [hbuf, List.cons_append, ← List.singleton_append, ← List.append_assoc] at heq
  by_cases hline : LineDone (got' ++ [c])
  · have hall := hok.eq_of_done ⟨_, heq⟩ hline
    have hrest : cs ++ (s.up.flight ++ rest) = [] := by
      rw [hall] at heq
      exact List.append_cancel_left (heq.trans (List.append_nil _).symm)
    obtain ⟨rfl, hflight, rfl⟩ : cs = [] ∧ s.up.flight = [] ∧ rest = [] := by
      simpa using hrest
    refine Or.inr ⟨rfl, hall ▸ hline, ?_, not_lineDone_nil, buf, Or.inl ?_, ?_⟩
    · simp only [hflight]
    · exact (if_pos hline).trans (congrArg ServerPc.write hall)
    · simp only [hdown, List.nil_append]
  · refine Or.inl ⟨hdown, got' ++ [c], Or.inl ?_, hline, heq⟩
    simp only [if_neg hline]

theorem Session.At.serverEof (hs : s.At todo) {got : List UInt8} (h : s.server = .read got)
    (heof : s.client = .closed) :
    Session.At { s with server := if got = [] then .closed else .write got } todo := by
  simp only [Session.At, heof] at hs ⊢
  obtain ⟨htodo, hquiet, hserver⟩ := hs
  have hgot : got = [] := by
    rcases hserver with (hr | ⟨hw, -⟩) | hc
    · exact ServerPc.read.inj (h.symm.trans hr)
    · exact nomatch h.symm.trans hw
    · exact nomatch h.symm.trans hc
  exact ⟨htodo, hquiet, Or.inr (if_pos hgot)⟩

theorem Session.At.serverWrite (hs : s.At todo) {rest : List UInt8} {k : ℕ}
    (h : s.server = .write rest) (hk : 0 < k) (hlen : k ≤ rest.length) :
    Session.At { s with
      server := .write (rest.drop k), down := s.down.send (rest.take k) } todo := by
  have hbusy : ∀ got, ¬ s.Ready got := by
    rintro got (hr | ⟨hw, -⟩)
    · exact nomatch h.symm.trans hr
    · obtain rfl := ServerPc.write.inj (h.symm.trans hw)
      rw [List.length_nil] at hlen
      omega
  refine hs.server (fun _ hready => absurd hready (hbusy [])) ?_ ?_ (by rw [h]; exact nofun)
  · rintro buf rest' hok ⟨-, got, hready, -⟩
    exact absurd hready (hbusy got)
  · rintro buf got ⟨hdone, hup, hgot, rest', hserver, heq⟩
    obtain rfl : rest' = rest := by
      rcases hserver with hw | ⟨hr, -⟩
      · exact ServerPc.write.inj (hw.symm.trans h)
      · exact nomatch h.symm.trans hr
    refine ⟨hdone, hup, hgot, rest'.drop k, Or.inl rfl, ?_⟩
    simp only [Link.send, List.append_assoc, List.take_append_drop]
    exact heq

theorem Session.At.serverWritten (hs : s.At todo) (h : s.server = .write []) :
    Session.At { s with server := .read [] } todo := by
  refine hs.server (fun hquiet _ => ⟨hquiet, Or.inl rfl⟩) ?_ ?_ (by rw [h]; exact nofun)
  · rintro buf rest hok ⟨hdown, got, hready, hgot, heq⟩
    obtain rfl : got = [] := by
      rcases hready with hr | ⟨-, hnil⟩
      · exact nomatch h.symm.trans hr
      · exact hnil
    exact Or.inl ⟨hdown, [], Or.inl rfl, hgot, heq⟩
  · rintro buf got ⟨hdone, hup, hgot, rest, hserver, heq⟩
    obtain rfl : rest = [] := by
      rcases hserver with hw | ⟨-, hnil⟩
      · exact ServerPc.write.inj (hw.symm.trans h)
      · exact hnil
    exact ⟨hdone, hup, hgot, [], Or.inr ⟨rfl, rfl⟩, heq⟩

/-- Steps that print nothing. -/
theorem SessionInv.of_at {input : List UInt8} (h : SessionInv input s)
    (hat : ∀ todo, s.At todo → s'.At todo) (hout : s'.stdout = s.stdout) :
    SessionInv input s' := by
  obtain ⟨done, todo, hp, hdone, hstdout, hs⟩ := h
  exact ⟨done, todo, hp, hdone, hout.trans hstdout, hat todo hs⟩

/-- The line that came back is printed. -/
theorem SessionInv.puts {input buf : List UInt8} (h : SessionInv input s)
    (hclient : s.client = .puts buf) :
    SessionInv input { s with client := .fgets, stdout := s.stdout ++ buf } := by
  obtain ⟨done, todo, hp, hdone, hstdout, hs⟩ := h
  simp only [Session.At, hclient] at hs
  obtain ⟨⟨line, rfl, hok, rfl⟩, hline, hquiet, hready⟩ := hs
  refine ⟨done ++ [line], pieces s.stdin, ?_, ?_, ?_, rfl, hquiet, hready⟩
  · rw [hp, List.append_assoc, List.singleton_append]
  · intro p hmem
    rcases List.mem_append.mp hmem with hmem | hmem
    · exact hdone p hmem
    · rw [List.mem_singleton.mp hmem]
      exact hline
  · simp only [List.flatten_append, List.flatten_singleton, hstdout]
    rw [Answered.cstr_eq hline hok]

/-- **One step** of the session. -/
theorem SessionInv.step {input : List UInt8} (hs : SessionInv input s)
    (h : SessionStep capacity s s') : SessionInv input s' := by
  cases h with
  | fgets h hne => exact hs.of_at (fun _ hat => hat.fgets h hne) rfl
  | fgetsEof h hnil =>
      refine hs.of_at (fun todo hat => ?_) rfl
      simp only [Session.At, h, hnil] at hat
      exact ⟨hat.1.trans (by rw [pieces, if_pos rfl]), hat.2.1, Or.inl hat.2.2⟩
  | clientWrite buf rest k h hk hlen hroom =>
      exact hs.of_at (fun _ hat => hat.clientWrite h hk hlen) rfl
  | clientWritten buf h => exact hs.of_at (fun _ hat => hat.clientWritten h) rfl
  | clientFill buf got k h hempty hk hk' hlen =>
      exact hs.of_at (fun _ hat => hat.clientFill h hempty hk hlen) rfl
  | clientByte buf got c cs h hbuf => exact hs.of_at (fun _ hat => hat.clientByte h hbuf) rfl
  | clientEof buf got h heof hempty hflight =>
      obtain ⟨_, todo, -, -, -, hat⟩ := hs
      exact (hat.clientEof h heof).elim
  | puts buf h => exact hs.puts h
  | serverFill got k h hempty hk hk' hlen =>
      exact hs.of_at (fun _ hat => hat.serverFill h hempty hk hlen) rfl
  | serverByte got c cs h hbuf => exact hs.of_at (fun _ hat => hat.serverByte h hbuf) rfl
  | serverEof got h heof hempty hflight => exact hs.of_at (fun _ hat => hat.serverEof h heof) rfl
  | serverWrite rest k h hk hlen hroom =>
      exact hs.of_at (fun _ hat => hat.serverWrite h hk hlen) rfl
  | serverWritten h => exact hs.of_at (fun _ hat => hat.serverWritten h) rfl

theorem SessionInv.reachable {input : List UInt8} (h : (echoSession capacity input).Reachable s) :
    SessionInv input s := by
  refine h.invariant (fun s hinit => ?_) (fun s s' _ hs hstep => hs.step hstep)
  obtain rfl : s = .start input := hinit
  exact ⟨[], pieces input, rfl, nofun, rfl, rfl, ⟨rfl, rfl⟩, Or.inl rfl⟩

/-! ## §5. Where a run stops. -/

/-- Bytes that wait for a reader are read. -/
theorem clientRead_of_stuck {input buf got : List UInt8}
    (hstuck : (echoSession capacity input).Stuck s) (h : s.client = .read buf got) :
    s.down.buffered = [] ∧ s.down.flight = [] := by
  cases hbuf : s.down.buffered with
  | cons c cs => exact absurd (.clientByte buf got c cs h hbuf) (hstuck _)
  | nil =>
      refine ⟨rfl, List.eq_nil_iff_length_eq_zero.mpr ?_⟩
      by_contra hne
      exact hstuck _ (.clientFill buf got 1 h hbuf Nat.one_pos (by decide) (by omega))

theorem serverRead_of_stuck {input got : List UInt8}
    (hstuck : (echoSession capacity input).Stuck s) (h : s.server = .read got) :
    s.up.buffered = [] ∧ s.up.flight = [] := by
  cases hbuf : s.up.buffered with
  | cons c cs => exact absurd (.serverByte got c cs h hbuf) (hstuck _)
  | nil =>
      refine ⟨rfl, List.eq_nil_iff_length_eq_zero.mpr ?_⟩
      by_contra hne
      exact hstuck _ (.serverFill got 1 h hbuf Nat.one_pos (by decide) (by omega))

theorem ready_of_stuck {input got : List UInt8} (hstuck : (echoSession capacity input).Stuck s)
    (h : s.Ready got) : s.server = .read got :=
  h.resolve_right fun hw => hstuck _ (.serverWritten hw.1)

/-- Both sides wait for the other. -/
structure Session.Deadlock (s : Session) : Prop where
  client : ∃ buf, s.client = .read buf []
  server : ∃ got, s.server = .read got
  quiet : s.Quiet

/-- **Sending ends** with the whole string at the server. -/
theorem Session.Sending.stuck {input buf : List UInt8} (hsend : s.Sending buf [])
    (hstuck : (echoSession capacity input).Stuck s) :
    s.Quiet ∧ s.server = .read buf ∧ ¬ LineDone buf := by
  obtain ⟨hdown, got, hready, hgot, heq⟩ := hsend
  have hserver := ready_of_stuck hstuck hready
  obtain ⟨hbuf, hflight⟩ := serverRead_of_stuck hstuck hserver
  rw [hbuf, hflight] at heq
  simp only [List.append_nil] at heq
  subst heq
  exact ⟨⟨congrArg₂ Link.mk hflight hbuf, hdown⟩, hserver, hgot⟩

/-- The answer always arrives. -/
theorem Session.Answering.not_stuck {input buf got : List UInt8} (h : s.Answering buf got)
    (hclient : s.client = .read buf got) (hcap : 0 < capacity) :
    ¬ (echoSession capacity input).Stuck s := by
  intro hstuck
  obtain ⟨hdone, -, hgot, rest, hserver, heq⟩ := h
  obtain ⟨hbuf, hflight⟩ := clientRead_of_stuck hstuck hclient
  rw [hbuf, hflight, List.nil_append, List.nil_append] at heq
  have hrest : rest ≠ [] := by
    rintro rfl
    rw [List.append_nil] at heq
    exact hgot (heq ▸ hdone)
  have hlen := List.length_pos_of_ne_nil hrest
  rcases hserver with hw | ⟨-, hnil⟩
  · exact hstuck _ (.serverWrite rest 1 hw Nat.one_pos hlen (by rw [hflight]; exact hcap))
  · exact hrest hnil

/-- **Where a run can stop**: at its end, or with both sides waiting. -/
theorem Session.At.stuck {input : List UInt8} (hs : s.At todo) (hcap : 0 < capacity)
    (hstuck : (echoSession capacity input).Stuck s) :
    (todo = [] ∧ s.client = .closed ∧ s.server = .closed) ∨
      (s.Deadlock ∧ ∃ line rest, todo = line :: rest ∧ ¬ Answered line) := by
  cases h : s.client with
  | fgets =>
      exfalso
      by_cases hnil : s.stdin = []
      · exact hstuck _ (.fgetsEof h hnil)
      · exact hstuck _ (.fgets h hnil)
  | write buf rest =>
      exfalso
      simp only [Session.At, h] at hs
      have hrest : rest ≠ [] := by
        rintro rfl
        exact hstuck _ (.clientWritten buf h)
      have hlen := List.length_pos_of_ne_nil hrest
      obtain ⟨-, ⟨-, got, hready, -⟩ | ⟨hnil, -⟩⟩ := hs
      · -- the server has taken all that was written, so there is room
        obtain ⟨-, hflight⟩ := serverRead_of_stuck hstuck (ready_of_stuck hstuck hready)
        refine hstuck _ (.clientWrite buf rest 1 h Nat.one_pos hlen ?_)
        rw [hflight]
        exact hcap
      · exact hrest hnil
  | read buf got =>
      simp only [Session.At, h] at hs
      obtain ⟨⟨line, htodo, -, rfl⟩, ⟨rfl, hsend⟩ | hanswer⟩ := hs
      · obtain ⟨hquiet, hserver, hdone⟩ := hsend.stuck hstuck
        exact Or.inr ⟨⟨⟨_, h⟩, ⟨_, hserver⟩, hquiet⟩, line, _, htodo, hdone⟩
      · exact absurd hstuck (hanswer.not_stuck h hcap)
  | puts buf => exact absurd (.puts buf h) (hstuck _)
  | closed =>
      simp only [Session.At, h] at hs
      obtain ⟨htodo, hquiet, hserver⟩ := hs
      refine Or.inl ⟨htodo, rfl, hserver.resolve_left fun hready => ?_⟩
      exact hstuck _ (.serverEof [] (ready_of_stuck hstuck hready) h
        (by rw [hquiet.1]) (by rw [hquiet.1]))

end Steps

/-! ## §6. Which input is answered. -/

/-- How many bytes stand behind the last newline. -/
def unfinished (input : List UInt8) : ℕ := (input.reverse.takeWhile (· ≠ 10)).length

theorem takeWhile_reverse_eq_iff (bytes : List UInt8) :
    bytes.reverse.takeWhile (· ≠ 10) = bytes.reverse ↔ (10 : UInt8) ∉ bytes := by
  rw [List.takeWhile_eq_self_iff]
  constructor
  · intro h hmem
    exact absurd (h 10 (List.mem_reverse.mpr hmem)) (by decide)
  · intro h c hc
    have hne : c ≠ 10 := by
      rintro rfl
      exact h (List.mem_reverse.mp hc)
    exact decide_eq_true hne

theorem unfinished_append (xs ys : List UInt8) :
    unfinished (xs ++ ys) =
      if (10 : UInt8) ∈ ys then unfinished ys else unfinished xs + ys.length := by
  have hiff : (ys.reverse.takeWhile (· ≠ 10)).length = ys.reverse.length ↔ (10 : UInt8) ∉ ys := by
    rw [← takeWhile_reverse_eq_iff]
    exact ⟨( List.takeWhile_prefix _).eq_of_length, congrArg List.length⟩
  rw [unfinished, List.reverse_append, List.takeWhile_append]
  by_cases h : (10 : UInt8) ∈ ys
  · rw [if_pos h, if_neg (fun hlen => hiff.mp hlen h)]
    rfl
  · rw [if_neg h, if_pos (hiff.mpr h), List.length_append, List.length_reverse, Nat.add_comm]
    rfl

theorem unfinished_of_not_mem {bytes : List UInt8} (h : (10 : UInt8) ∉ bytes) :
    unfinished bytes = bytes.length := by
  have hnil := unfinished_append [] bytes
  rw [if_neg h, List.nil_append] at hnil
  exact hnil.trans (Nat.zero_add _)

theorem unfinished_of_getLast {bytes : List UInt8} (h : bytes.getLast? = some 10) :
    unfinished bytes = 0 := by
  obtain ⟨init, rfl⟩ := List.getLast?_eq_some_iff.mp h
  rw [unfinished_append, if_pos (List.mem_singleton.mpr rfl)]
  rfl

/-- A piece ends in a newline, or is full, or is all that is left. -/
theorem takeLine_cases (k : ℕ) (s : List UInt8) :
    (takeLine k s).getLast? = some 10 ∨
      ((10 : UInt8) ∉ takeLine k s ∧ ((takeLine k s).length = k ∨ takeLine k s = s)) := by
  induction k generalizing s with
  | zero => exact Or.inr ⟨List.not_mem_nil, Or.inl rfl⟩
  | succ k ih =>
      cases s with
      | nil => exact Or.inr ⟨List.not_mem_nil, Or.inr rfl⟩
      | cons c s =>
          rw [takeLine]
          by_cases hc : c = 10
          · rw [if_pos hc, hc]
            exact Or.inl rfl
          · rw [if_neg hc]
            rcases ih s with h | ⟨hnot, h⟩
            · refine Or.inl ?_
              obtain ⟨init, hinit⟩ := List.getLast?_eq_some_iff.mp h
              exact List.getLast?_eq_some_iff.mpr ⟨c :: init, by rw [hinit]; rfl⟩
            · refine Or.inr ⟨?_, h.imp (fun h => by rw [List.length_cons, h]) (congrArg (c :: ·))⟩
              rw [List.mem_cons, not_or]
              exact ⟨fun he => hc he.symm, hnot⟩

theorem LineOk.answered_iff {line : List UInt8} (hok : LineOk line) :
    Answered line ↔ 0 ∉ line ∧ LineDone line := by
  constructor
  · intro h
    have heq := h.cstr_eq hok
    rw [Answered, heq] at h
    exact ⟨(Cells.cstr_eq_self_iff line).mp heq, h⟩
  · rintro ⟨hnul, hdone⟩
    rw [Answered, (Cells.cstr_eq_self_iff line).mpr hnul]
    exact hdone

/-- Whether a piece is a line shows in the bytes behind the last newline. -/
theorem lineDone_takeLine {s : List UInt8} (hs : s ≠ []) :
    MAXLINE - 1 ∣ unfinished s ↔ LineDone (takeLine (MAXLINE - 1) s) ∧
      MAXLINE - 1 ∣ unfinished (s.drop (takeLine (MAXLINE - 1) s).length) := by
  set line := takeLine (MAXLINE - 1) s
  set rest := s.drop line.length
  have hsplit : s = line ++ rest := (List.prefix_iff_eq_append.mp
    (Rio.takeLine_isHead (MAXLINE - 1) s)).symm
  rcases takeLine_cases (MAXLINE - 1) s with hlast | ⟨hnot, hfull | hall⟩
  · have hdone : LineDone line := Or.inl hlast
    rw [hsplit, unfinished_append, unfinished_of_getLast hlast]
    split
    next => exact ⟨fun h => ⟨hdone, h⟩, And.right⟩
    next hrest =>
      rw [Nat.zero_add, ← unfinished_of_not_mem hrest]
      exact ⟨fun h => ⟨hdone, h⟩, And.right⟩
  · have hdone : LineDone line := Or.inr hfull
    rw [hsplit, unfinished_append, unfinished_of_not_mem hnot, hfull]
    split
    next => exact ⟨fun h => ⟨hdone, h⟩, And.right⟩
    next hrest =>
      rw [Nat.dvd_add_right (Nat.dvd_refl _), ← unfinished_of_not_mem hrest]
      exact ⟨fun h => ⟨hdone, h⟩, And.right⟩
  · -- the last line, shorter than a full piece unless it is one
    have hlen := Rio.takeLine_length_le (MAXLINE - 1) s
    have hpos := List.length_pos_of_ne_nil hs
    rw [hall] at hnot hlen
    have hrest : rest = [] := by
      show s.drop (takeLine (MAXLINE - 1) s).length = []
      rw [hall, List.drop_length]
    have hdone : LineDone line ↔ s.length = MAXLINE - 1 := by
      show LineDone (takeLine (MAXLINE - 1) s) ↔ _
      rw [hall]
      exact ⟨fun h => h.resolve_left fun hl => hnot (List.mem_of_getLast? hl), Or.inr⟩
    rw [unfinished_of_not_mem hnot, hrest, hdone]
    constructor
    · intro h
      exact ⟨Nat.le_antisymm hlen (Nat.le_of_dvd hpos h), Nat.dvd_zero _⟩
    · rintro ⟨h, -⟩
      exact h ▸ Nat.dvd_refl _

/-- Induction along the pieces. -/
theorem pieces_induction {motive : List UInt8 → Prop} (nil : motive [])
    (piece : ∀ s, s ≠ [] → motive (s.drop (takeLine (MAXLINE - 1) s).length) → motive s)
    (s : List UInt8) : motive s := by
  induction hn : s.length using Nat.strong_induction_on generalizing s with
  | _ n ih =>
      by_cases hs : s = []
      · exact hs ▸ nil
      · have hline := List.length_pos_of_ne_nil
          (Rio.takeLine_ne_nil (k := MAXLINE - 1) (by decide) hs)
        have hpos := List.length_pos_of_ne_nil hs
        exact piece s hs (ih _ (by rw [List.length_drop]; omega) _ rfl)

/-- **Which input is answered to its end.** -/
theorem answered_iff (input : List UInt8) :
    (∀ p ∈ pieces input, Answered p) ↔ 0 ∉ input ∧ MAXLINE - 1 ∣ unfinished input := by
  induction input using pieces_induction with
  | nil =>
      rw [pieces, if_pos rfl]
      exact ⟨fun _ => ⟨List.not_mem_nil, Nat.dvd_zero _⟩, fun _ p hp => absurd hp List.not_mem_nil⟩
  | piece input hne ih =>
      have hsplit := List.prefix_iff_eq_append.mp (Rio.takeLine_isHead (MAXLINE - 1) input)
      have hnul : 0 ∉ input ↔ 0 ∉ takeLine (MAXLINE - 1) input ∧
          0 ∉ input.drop (takeLine (MAXLINE - 1) input).length := by
        rw [← not_or, ← List.mem_append, hsplit]
      rw [pieces, if_neg hne, List.forall_mem_cons, ih, (lineOk_takeLine input).answered_iff,
        hnul, lineDone_takeLine hne]
      exact and_and_and_comm

theorem flatten_pieces (input : List UInt8) : (pieces input).flatten = input := by
  induction input using pieces_induction with
  | nil =>
      rw [pieces, if_pos rfl]
      rfl
  | piece input hne ih =>
      rw [pieces, if_neg hne, List.flatten_cons, ih]
      exact List.prefix_iff_eq_append.mp (Rio.takeLine_isHead (MAXLINE - 1) input)

/-- **An echo session.**  Whatever the sizes of the reads and writes and the interleaving, the
    session comes to a stop.  If the input has no NUL and the bytes behind its last newline
    fill whole buffers, the client has printed its input and both sides have closed.  If not,
    both sides wait for the other, and the client has printed what was answered before. -/
theorem echo_session {capacity : ℕ} (hcap : 0 < capacity) (input : List UInt8) :
    (echoSession capacity input).EndsIn fun s =>
      (0 ∉ input ∧ MAXLINE - 1 ∣ unfinished input →
        s.client = .closed ∧ s.server = .closed ∧ s.stdout = input) ∧
      (¬ (0 ∉ input ∧ MAXLINE - 1 ∣ unfinished input) →
        s.Deadlock ∧ s.stdout = ((pieces input).takeWhile fun p => Answered p).flatten) := by
  refine System.ends_of_measure Session.left (fun s s' _ h => h.left_lt) fun s hreach hstuck => ?_
  obtain ⟨done, todo, hp, hdone, hout, hat⟩ := SessionInv.reachable hreach
  rw [← answered_iff, hp]
  rcases hat.stuck hcap hstuck with ⟨rfl, hclient, hserver⟩ | ⟨hdead, line, rest, rfl, hline⟩
  · rw [List.append_nil] at hp ⊢
    refine ⟨fun _ => ⟨hclient, hserver, ?_⟩, fun h => absurd hdone h⟩
    rw [hout, ← hp, flatten_pieces]
  · refine ⟨fun h => absurd (h line (by simp)) hline, fun _ => ⟨hdead, ?_⟩⟩
    rw [List.takeWhile_append_of_pos (by simpa using hdone), List.takeWhile_cons_of_neg
      (by simpa using hline), List.append_nil, hout]

/-- `"hi\n"` comes back; `"hi"` at the end of a file does not. -/
theorem echo_session_hi :
    ((echoSession 1 [104, 105, 10]).EndsIn fun s => s.stdout = [104, 105, 10]) ∧
    (echoSession 1 [104, 105]).EndsIn fun s => s.Deadlock := by
  have hline := echo_session Nat.one_pos [104, 105, 10]
  have hpart := echo_session Nat.one_pos [104, 105]
  exact ⟨⟨hline.1, fun s hreach hstuck => ((hline.2 s hreach hstuck).1 (by decide)).2.2⟩,
    ⟨hpart.1, fun s hreach hstuck => ((hpart.2 s hreach hstuck).2 (by decide)).1⟩⟩

end ComputerScience.Netprog
