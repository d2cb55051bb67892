/-
  ComputerScience.Tiny.Doit
  ─────────────────────────
  **THE STRINGS OF ONE REQUEST** (`22-netprog2/tiny/tiny.c`).

  `doit` takes a request line of at most `MAXLINE-1` bytes apart, `parse_uri` makes a file
  name of the uri, and `clienterror` wraps the method or the file name in an error page.
  None of them looks at a length.

    • `clienterror_fits_iff` — an error page fits exactly when its cause does beside the
      text around it,
    • `parseUri_filename_length` — how long the file name is,
    • `doit_fits_iff` — the requests whose strings all fit.
-/
import ComputerScience.Lib.CString
import ComputerScience.Lib.Decimal
import ComputerScience.Lib.Fields
import ComputerScience.Rio.LineCopy

namespace ComputerScience.Tiny

open ComputerScience.Lib
open ComputerScience.Rio

def MAXBUF : ℕ := 8192

/-- The bytes of a string literal. -/
def text (s : String) : List UInt8 := s.toList.map (fun c => UInt8.ofNat c.toNat)

/-- A string that was written to an array of `size` characters. -/
structure Built where
  size : ℕ
  str : List UInt8

/-- There is room for the string and its NUL. -/
def Built.Fits (b : Built) : Prop := b.str.length ≤ b.size - 1

/-! ## §1. The request line. -/

/-- `isspace` of the C locale. -/
def isspace (c : UInt8) : Bool := c == 32 || (9 ≤ c.toNat && c.toNat ≤ 13)

/-- `sscanf(buf, "%s %s %s", method, uri, version)`, where it parses all three. -/
def sscanf3 (buf : List UInt8) : Option (List UInt8 × List UInt8 × List UInt8) :=
  match fields isspace buf with
  | method :: uri :: version :: _ => some (method, uri, version)
  | _ => none

def tolower (c : UInt8) : UInt8 := if 65 ≤ c.toNat ∧ c.toNat ≤ 90 then c + 32 else c

/-- `!strcasecmp(method, "GET")` -/
def isGet (method : List UInt8) : Bool := method.map tolower == text "get"

/-- `strstr(s, pat)` is not `NULL`. -/
def strstr (s pat : List UInt8) : Bool := s.tails.any (fun t => pat.isPrefixOf t)

/-! ## §2. The functions. -/

/-- What `parse_uri` returns and writes. -/
structure ParsedUri where
  isStatic : Bool
  filename : List UInt8
  cgiargs : List UInt8

/-- `parse_uri(uri, filename, cgiargs)` -/
def parseUri (uri : List UInt8) : ParsedUri :=
  if !strstr uri (text "cgi-bin") then
    let filename := text "." ++ uri
    { isStatic := true
      filename := if uri.getLast? = some 47 then filename ++ text "home.html" else filename
      cgiargs := [] }
  else if 63 ∈ uri then
    -- `index(uri, '?')` is the first one; the NUL in its place ends the uri
    { isStatic := false
      filename := text "." ++ uri.takeWhile (fun c => c != 63)
      cgiargs := (uri.dropWhile (fun c => c != 63)).tail }
  else
    { isStatic := false, filename := text "." ++ uri, cgiargs := [] }

/-- `clienterror(fd, cause, errnum, shortmsg, longmsg)`: what it writes to `body` and to
`buf`, one `sprintf` after the other. -/
def clienterror (cause : List UInt8) (errnum shortmsg longmsg : String) : List Built :=
  let body1 := text "<html><title>Tiny Error</title>"
  let body2 := body1 ++ text "<body bgcolor=ffffff>\r\n"
  let body3 := body2 ++ text errnum ++ text ": " ++ text shortmsg ++ text "\r\n"
  let body4 := body3 ++ text "<p>" ++ text longmsg ++ text ": " ++ cause ++ text "\r\n"
  let body5 := body4 ++ text "<hr><em>The Tiny Web server</em>\r\n"
  [⟨MAXBUF, body1⟩, ⟨MAXBUF, body2⟩, ⟨MAXBUF, body3⟩, ⟨MAXBUF, body4⟩, ⟨MAXBUF, body5⟩,
   ⟨MAXLINE, text "HTTP/1.0 " ++ text errnum ++ text " " ++ text shortmsg ++ text "\r\n"⟩,
   ⟨MAXLINE, text "Content-type: text/html\r\n"⟩,
   ⟨MAXLINE, text "Content-length: " ++ decimalNat body5.length ++ text "\r\n\r\n"⟩]

/-- What `doit` asks of `st_mode`. -/
structure Mode where
  regular : Bool
  readable : Bool
  executable : Bool

/-- How a `GET` request ends. -/
inductive Reply
  | notFound
  | cannotRead
  | cannotRun
  | served

/-- The tests of `doit` after `parse_uri`; `stat` fails where `fs` has nothing. -/
def reply (fs : List UInt8 → Option Mode) (u : ParsedUri) : Reply :=
  match fs u.filename with
  | none => .notFound
  | some mode =>
      if u.isStatic then
        if !mode.regular || !mode.readable then .cannotRead else .served
      else if !mode.regular || !mode.executable then .cannotRun
      else .served

/-- The error page of a `GET` request. -/
def errorPage (filename : List UInt8) : Reply → List Built
  | .notFound => clienterror filename "404" "Not found" "Tiny couldn't find this file"
  | .cannotRead => clienterror filename "403" "Forbidden" "Tiny couldn't read the file"
  | .cannotRun => clienterror filename "403" "Forbidden" "Tiny couldn't run the CGI program"
  | .served => []

/-- The strings that `doit` builds for a request line whose three parts were parsed. -/
def doit (fs : List UInt8 → Option Mode) (method uri version : List UInt8) : List Built :=
  [⟨MAXLINE, method⟩, ⟨MAXLINE, uri⟩, ⟨MAXLINE, version⟩] ++
    if !isGet method then
      clienterror method "501" "Not Implemented" "Tiny does not implement this method"
    else
      let u := parseUri uri
      [⟨MAXLINE, u.filename⟩, ⟨MAXLINE, u.cgiargs⟩] ++ errorPage u.filename (reply fs u)

/-! ## §3. The error page. -/

/-- The length of the text around the cause. -/
def overhead (errnum shortmsg longmsg : String) : ℕ :=
  99 + (text errnum).length + (text shortmsg).length + (text longmsg).length

/-- **An error page fits exactly when its cause does**, beside the text around it. -/
theorem clienterror_fits_iff (cause : List UInt8) (errnum shortmsg longmsg : String)
    (hhead : 12 + (text errnum).length + (text shortmsg).length ≤ MAXLINE - 1) :
    (∀ b ∈ clienterror cause errnum shortmsg longmsg, b.Fits) ↔
      cause.length + overhead errnum shortmsg longmsg ≤ MAXBUF - 1 := by
  have h1 : (text "<html><title>Tiny Error</title>").length = 31 := by decide
  have h2 : (text "<body bgcolor=ffffff>\r\n").length = 23 := by decide
  have h3 : (text ": ").length = 2 := by decide
  have h4 : (text "\r\n").length = 2 := by decide
  have h5 : (text "<p>").length = 3 := by decide
  have h6 : (text "<hr><em>The Tiny Web server</em>\r\n").length = 34 := by decide
  have h7 : (text "HTTP/1.0 ").length = 9 := by decide
  have h8 : (text " ").length = 1 := by decide
  have h9 : (text "Content-type: text/html\r\n").length = 25 := by decide
  have h10 : (text "Content-length: ").length = 16 := by decide
  have h11 : (text "\r\n\r\n").length = 4 := by decide
  have hbuf : MAXBUF = 8192 := rfl
  have hline : MAXLINE = 8192 := rfl
  simp only [clienterror, List.forall_mem_cons, Built.Fits, List.length_append, h1, h2, h3, h4,
    h5, h6, h7, h8, h9, h10, h11, overhead]
  constructor
  · intro ⟨_, _, _, _, hbody, _⟩
    omega
  · intro hfit
    -- the length of the page has at most four digits
    have hdigits : (decimalNat (31 + 23 + (text errnum).length + 2 + (text shortmsg).length + 2 + 3 +
        (text longmsg).length + 2 + cause.length + 2 + 34)).length ≤ 4 :=
      decimalNat_length_le (by decide) (by omega)
    refine ⟨by omega, by omega, by omega, by omega, by omega, by omega, by omega, by omega, ?_⟩
    intro b hb
    exact absurd hb List.not_mem_nil

/-- The longest file name for which everything fits. -/
def Reply.limit : Reply → ℕ
  | .notFound => 8052
  | .cannotRead => 8053
  | .cannotRun => 8047
  | .served => 8191

/-- A file name and a page about it, where the text around it leaves `limit` characters. -/
theorem page_fits_iff (filename : List UInt8) {errnum shortmsg longmsg : String} {limit : ℕ}
    (hhead : 12 + (text errnum).length + (text shortmsg).length ≤ MAXLINE - 1)
    (hlimit : limit + overhead errnum shortmsg longmsg = MAXBUF - 1) :
    (filename.length ≤ MAXLINE - 1 ∧
        ∀ b ∈ clienterror filename errnum shortmsg longmsg, b.Fits) ↔
      filename.length ≤ limit := by
  have hline : MAXLINE = 8192 := rfl
  have hbuf : MAXBUF = 8192 := rfl
  rw [clienterror_fits_iff _ _ _ _ hhead]
  omega

/-- A file name and the page about it fit up to a limit. -/
theorem errorPage_fits_iff (filename : List UInt8) (r : Reply) :
    (filename.length ≤ MAXLINE - 1 ∧ ∀ b ∈ errorPage filename r, b.Fits) ↔
      filename.length ≤ r.limit := by
  cases r with
  | notFound => exact page_fits_iff filename (by decide) (by decide)
  | cannotRead => exact page_fits_iff filename (by decide) (by decide)
  | cannotRun => exact page_fits_iff filename (by decide) (by decide)
  | served =>
      have hline : MAXLINE = 8192 := rfl
      simp [errorPage, Reply.limit, hline]

/-! ## §4. The uri. -/

/-- The length of the file name, from the uri: a dot, the uri or its part before the `?`,
and the default name behind a slash. -/
def filenameLength (uri : List UInt8) : ℕ :=
  if !strstr uri (text "cgi-bin") then
    1 + uri.length + if uri.getLast? = some 47 then 9 else 0
  else 1 + (uri.takeWhile (fun c => c != 63)).length

theorem parseUri_filename_length (uri : List UInt8) :
    (parseUri uri).filename.length = filenameLength uri := by
  have hdot : (text ".").length = 1 := by decide
  have hhome : (text "home.html").length = 9 := by decide
  unfold parseUri filenameLength
  split
  · simp only
    split
    · rw [List.length_append, List.length_append, hdot, hhome]
    · rw [List.length_append, hdot]
      rfl
  · split
    next =>
      simp only
      rw [List.length_append, hdot]
    next hmark =>
      have hall : uri.takeWhile (fun c => c != 63) = uri := by
        rw [List.takeWhile_eq_self_iff]
        intro c hc
        exact bne_iff_ne.mpr (fun heq => hmark (heq ▸ hc))
      simp only
      rw [hall, List.length_append, hdot]

theorem parseUri_cgiargs_length (uri : List UInt8) : (parseUri uri).cgiargs.length ≤ uri.length := by
  unfold parseUri
  split
  · exact Nat.zero_le _
  · split
    · simp only
      rw [List.length_tail]
      have := (List.dropWhile_sublist (fun c => c != 63) (l := uri)).length_le
      omega
    · exact Nat.zero_le _

/-! ## §5. The line. -/

/-- Three fields of a list are shorter than it. -/
theorem three_fields_length {p : UInt8 → Bool} {l a b c : List UInt8} {rest : List (List UInt8)}
    (h : fields p l = a :: b :: c :: rest) : a.length + b.length + c.length + 2 ≤ l.length := by
  have hjoin := length_join_fields_le (p := p) 32 l
  have hlast : c.length ≤ (List.intercalate [32] (c :: rest)).length := by
    cases rest with
    | nil => rw [intercalate_singleton]
    | cons d rest =>
        rw [intercalate_cons_cons, List.length_append]
        omega
  rw [h, intercalate_cons_cons, intercalate_cons_cons, List.length_append, List.length_cons,
    List.length_append, List.length_cons] at hjoin
  omega

/-- The parts of a request line, by its length. -/
theorem sscanf3_length {buf method uri version : List UInt8}
    (h : sscanf3 buf = some (method, uri, version)) :
    method.length + uri.length + version.length + 2 ≤ buf.length := by
  unfold sscanf3 at h
  split at h
  next m u v rest hfields =>
    obtain ⟨rfl, rfl, rfl⟩ : m = method ∧ u = uri ∧ v = version := by simpa using h
    exact three_fields_length hfields
  next => exact absurd h (by simp)

/-- The request line as `Rio_readlineb` leaves it in the buffer of `doit`. -/
theorem request_line {rp : RioT} {os : Os} (buf : Cells UInt8) (hinv : rp.Inv) (hok : os.ReadsOk)
    (hdata : (rioReadlineb rp os buf MAXLINE).rc ≠ 0) :
    (rioReadlineb rp os buf MAXLINE).buf.IsStr 0
      (Cells.cstr (takeLine (MAXLINE - 1) (unread rp os))) := by
  obtain ⟨_, hrc, hbuf⟩ := rioReadlineb_spec buf (show 2 ≤ MAXLINE by decide) hinv hok
  have hne : unread rp os ≠ [] := by
    intro hend
    rw [hrc, hend] at hdata
    exact hdata rfl
  rw [hbuf, if_neg hne]
  exact Cells.isStr_store buf 0 _

/-- The parts of a delivered line fit the arrays of `sscanf`. -/
theorem parts_fit {stream method uri version : List UInt8}
    (h : sscanf3 (Cells.cstr (takeLine (MAXLINE - 1) stream)) = some (method, uri, version)) :
    ∀ b ∈ [Built.mk MAXLINE method, ⟨MAXLINE, uri⟩, ⟨MAXLINE, version⟩,
      ⟨MAXLINE, (parseUri uri).cgiargs⟩], b.Fits := by
  have hparts := sscanf3_length h
  have hstr := Cells.cstr_length_le (takeLine (MAXLINE - 1) stream)
  have hlen := takeLine_length_le (MAXLINE - 1) stream
  have hargs := parseUri_cgiargs_length uri
  intro b hb
  simp only [List.mem_cons, List.not_mem_nil, or_false] at hb
  unfold Built.Fits
  rcases hb with rfl | rfl | rfl | rfl
  · show method.length ≤ MAXLINE - 1
    omega
  · show uri.length ≤ MAXLINE - 1
    omega
  · show version.length ≤ MAXLINE - 1
    omega
  · show (parseUri uri).cgiargs.length ≤ MAXLINE - 1
    omega

/-- The strings of a request that is not a `GET`: its parts, and the page about its
method. -/
theorem doit_other_fits_iff (fs : List UInt8 → Option Mode) {method : List UInt8}
    (uri version : List UInt8) (hget : isGet method = false) :
    (∀ b ∈ doit fs method uri version, b.Fits) ↔
      (∀ b ∈ [Built.mk MAXLINE method, ⟨MAXLINE, uri⟩, ⟨MAXLINE, version⟩], b.Fits) ∧
        method.length ≤ 8039 := by
  have hover : overhead "501" "Not Implemented" "Tiny does not implement this method" = 152 := by
    decide
  have hpage := clienterror_fits_iff method "501" "Not Implemented"
    "Tiny does not implement this method" (by decide)
  have hbuf : MAXBUF = 8192 := rfl
  have hlen : method.length + 152 ≤ MAXBUF - 1 ↔ method.length ≤ 8039 := by omega
  unfold doit
  rw [hget, Bool.not_false, if_pos rfl, List.forall_mem_append, hpage, hover, hlen]

/-- The strings of a `GET`: its parts, the file name and the arguments, and the page about
the file name. -/
theorem doit_get_fits_iff (fs : List UInt8 → Option Mode) {method : List UInt8}
    (uri version : List UInt8) (hget : isGet method = true) :
    (∀ b ∈ doit fs method uri version, b.Fits) ↔
      (∀ b ∈ [Built.mk MAXLINE method, ⟨MAXLINE, uri⟩, ⟨MAXLINE, version⟩,
          ⟨MAXLINE, (parseUri uri).cgiargs⟩], b.Fits) ∧
        filenameLength uri ≤ (reply fs (parseUri uri)).limit := by
  have hname : Built.Fits ⟨MAXLINE, (parseUri uri).filename⟩ ↔
      (parseUri uri).filename.length ≤ MAXLINE - 1 := Iff.rfl
  have hpage := errorPage_fits_iff (parseUri uri).filename (reply fs (parseUri uri))
  rw [parseUri_filename_length] at hpage
  unfold doit
  rw [hget, Bool.not_true, if_neg (by decide), List.forall_mem_append, List.forall_mem_append,
    ← hpage]
  simp only [List.forall_mem_cons, hname, parseUri_filename_length]
  tauto

/-- **The strings of a request all fit** exactly when a method other than `GET` has at
most 8039 bytes, and the file name of a `GET` at most as many as go into the page that it
is answered with, or else into its own array. -/
theorem doit_fits_iff (fs : List UInt8 → Option Mode) (stream method uri version : List UInt8)
    (h : sscanf3 (Cells.cstr (takeLine (MAXLINE - 1) stream)) = some (method, uri, version)) :
    (∀ b ∈ doit fs method uri version, b.Fits) ↔
      if isGet method then filenameLength uri ≤ (reply fs (parseUri uri)).limit
      else method.length ≤ 8039 := by
  have hparts := parts_fit h
  cases hget : isGet method with
  | false =>
      rw [doit_other_fits_iff fs uri version hget, if_neg (by decide)]
      apply and_iff_right
      intro b hb
      exact hparts b (List.mem_append_left [_] hb)
  | true =>
      rw [doit_get_fits_iff fs uri version hget, if_pos rfl]
      exact and_iff_right hparts

/-- `GET /a HTTP/1.0`, where there is no such file. -/
theorem doit_fits_get : isGet (text "GET") = true ∧
    ∀ b ∈ doit (fun _ => none) (text "GET") (text "/a") (text "HTTP/1.0"), b.Fits :=
  ⟨by decide,
    (doit_fits_iff (fun _ => none) (text "GET /a HTTP/1.0\r\n") _ _ _ (by decide)).mpr
      (by decide)⟩

/-- A request with a long method of letters `A`, taken apart. -/
theorem sscanf3_long {m : List UInt8} (hmem : ∀ c ∈ m, c = 65) (hne : m ≠ [])
    (hlen : m.length + 5 ≤ MAXLINE - 1) :
    sscanf3 (Cells.cstr (takeLine (MAXLINE - 1) (m ++ text " / 1\n"))) =
      some (m, text "/", text "1") := by
  have hline : takeLine (MAXLINE - 1) (m ++ text " / 1\n") = m ++ text " / 1\n" := by
    have h10 : (10 : UInt8) ∉ m := fun h => absurd (hmem _ h) (by decide)
    obtain ⟨j, hj⟩ : ∃ j, MAXLINE - 1 - m.length = j + 5 := ⟨MAXLINE - 1 - m.length - 5, by omega⟩
    rw [takeLine_append h10 (by omega), hj]
    rfl
  have hstr : Cells.cstr (m ++ text " / 1\n") = m ++ 32 :: text "/ 1\n" := by
    have htail : (text " / 1\n").takeWhile (fun c => c != 0) = 32 :: text "/ 1\n" := by decide
    unfold Cells.cstr
    rw [List.takeWhile_append_of_pos, htail]
    intro c hc
    rw [hmem c hc]
    rfl
  have hfields : fields isspace (m ++ 32 :: text "/ 1\n") = m :: fields isspace (text "/ 1\n") := by
    apply fields_word_sep hne _ _ (by rfl)
    intro c hc
    rw [hmem c hc]
    rfl
  have hrest : fields isspace (text "/ 1\n") = [text "/", text "1"] := by decide
  rw [hline, hstr]
  unfold sscanf3
  rw [hfields, hrest]

/-- The page about a long method does not fit. -/
theorem doit_long (fs : List UInt8 → Option Mode) {m uri version : List UInt8}
    (hlen : 8039 < m.length) : ¬ ∀ b ∈ doit fs m uri version, b.Fits := by
  intro hall
  have hget : isGet m = false := by
    unfold isGet
    rw [beq_eq_false_iff_ne]
    intro heq
    have hshort := congrArg List.length heq
    have hthree : (text "get").length = 3 := by decide
    rw [List.length_map, hthree] at hshort
    omega
  have hpage := ((doit_other_fits_iff fs uri version hget).mp hall).2
  omega

/-- A method of 8040 letters: the request line has 8045 bytes, and the page about the
method 8192, one more than `body` can hold. -/
theorem doit_overflow :
    sscanf3 (Cells.cstr (takeLine (MAXLINE - 1) (List.replicate 8040 65 ++ text " / 1\n"))) =
        some (List.replicate 8040 65, text "/", text "1") ∧
      ¬ ∀ b ∈ doit (fun _ => none) (List.replicate 8040 65) (text "/") (text "1"), b.Fits := by
  have hlen : (List.replicate 8040 (65 : UInt8)).length = 8040 := List.length_replicate
  have hline : MAXLINE = 8192 := rfl
  constructor
  · exact sscanf3_long (fun c => List.eq_of_mem_replicate)
      (List.ne_nil_of_length_pos (by omega)) (by omega)
  · exact doit_long _ (by omega)

end ComputerScience.Tiny
